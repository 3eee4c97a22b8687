import Mathlib.Tactic.Lemma
import RichText.Proofs.Offsets
import RichText.Proofs.RoundTrip

/-!
The markup of a row of tokens. A row is written from left to right, and what is written of its
beginning does not depend on what follows; so what an edit puts in is written between two pieces of
markup that are there without it.
-/

namespace RichText

/-- Nodes in a row are written as they are by themselves, whatever is open around them. -/
lemma tokensMarkup_tokens_append (opened : List Tag) (ns : List Node) (us : List Token) :
    tokensMarkup opened (tokens ns ++ us) = markup ns ++ tokensMarkup opened us := by
  induction ns using Node.induction generalizing opened us with
  | nil => rfl
  | text s ns ih =>
    have hchars (s : Text) (us : List Token) : tokensMarkup opened (s.map .char ++ us) =
        escapeText s ++ tokensMarkup opened us := by
      induction s with
      | nil => rfl
      | cons c s ih =>
        rw [List.map_cons, List.cons_append, tokensMarkup, ih, escapeText_cons, List.append_assoc]
    rw [tokens_cons, Node.tokens, List.append_assoc, hchars, ih, markup_cons, Node.markup,
      List.append_assoc]
  | comment s ns ih =>
    rw [tokens_cons, Node.tokens, List.append_assoc, List.singleton_append, tokensMarkup, ih,
      markup_cons, List.append_assoc]
  | element tag inside ns ihin ih =>
    rw [tokens_cons, Node.tokens, markup_cons]
    by_cases hv : tag.isVoid = true
    · rw [if_pos hv, List.append_assoc, List.singleton_append, tokensMarkup, ih, List.append_assoc]
    · rw [if_neg hv, List.cons_append, List.cons_append, List.cons_append, tokensMarkup,
        List.append_assoc, List.append_assoc, List.append_assoc, ihin, List.singleton_append,
        tokensMarkup, ih, Node.markup, if_neg hv]
      simp only [List.append_assoc]

theorem tokensMarkup_tokens (ns : List Node) : tokensMarkup [] (tokens ns) = markup ns := by
  have h := tokensMarkup_tokens_append [] ns []
  rwa [List.append_nil, tokensMarkup, List.flatMap_nil, List.append_nil] at h

/-- **The beginning of a row** is written as one piece of markup, and leaves some tags open. -/
theorem tokensMarkup_append (opened : List Tag) (ts : List Token) :
    ∃ (written : Text) (stillOpen : List Tag), ∀ us,
      tokensMarkup opened (ts ++ us) = written ++ tokensMarkup stillOpen us := by
  induction ts generalizing opened with
  | nil => exact ⟨[], opened, fun _ => rfl⟩
  | cons t ts ih =>
    cases t with
    | char c =>
      obtain ⟨written, stillOpen, h⟩ := ih opened
      refine ⟨Escape.textChar c ++ written, stillOpen, fun us => ?_⟩
      rw [List.cons_append, tokensMarkup, h, List.append_assoc]
    | leaf n =>
      obtain ⟨written, stillOpen, h⟩ := ih opened
      refine ⟨n.markup ++ written, stillOpen, fun us => ?_⟩
      rw [List.cons_append, tokensMarkup, h, List.append_assoc]
    | start tag =>
      obtain ⟨written, stillOpen, h⟩ := ih (tag :: opened)
      refine ⟨tag.startMarkup ++ written, stillOpen, fun us => ?_⟩
      rw [List.cons_append, tokensMarkup, h, List.append_assoc]
    | stop =>
      cases opened with
      | nil =>
        obtain ⟨written, stillOpen, h⟩ := ih []
        refine ⟨written, stillOpen, fun us => ?_⟩
        rw [List.cons_append, tokensMarkup, h]
      | cons tag opened =>
        obtain ⟨written, stillOpen, h⟩ := ih opened
        refine ⟨tag.endMarkup ++ written, stillOpen, fun us => ?_⟩
        rw [List.cons_append, tokensMarkup, h, List.append_assoc]

lemma Node.markup_normalize (n : Node) : n.normalize.markup = n.markup := by
  cases n with
  | text s => rfl
  | comment s => rfl
  | element tag inside => rw [normalize, markup, markup, RichText.markup_normalize]

/-- What is inside a leaf is not written. -/
lemma tokensMarkup_map_normalize (opened : List Tag) (ts : List Token) :
    tokensMarkup opened (ts.map Token.normalize) = tokensMarkup opened ts := by
  induction ts generalizing opened with
  | nil => rfl
  | cons t ts ih =>
    cases t with
    | char c => exact congrArg (Escape.textChar c ++ ·) (ih opened)
    | leaf n =>
      rw [List.map_cons, Token.normalize, tokensMarkup, ih, Node.markup_normalize, tokensMarkup]
    | start tag => exact congrArg (tag.startMarkup ++ ·) (ih (tag :: opened))
    | stop =>
      cases opened with
      | nil => exact ih []
      | cons tag opened => exact congrArg (tag.endMarkup ++ ·) (ih opened)

/-- **What is put in place of a selection** is written between two pieces of markup that do not
depend on it. -/
theorem markup_replaceSelected (ns : List Node) (sel : Selection) (reach : Reach) :
    ∃ before after : Text, ∀ new,
      markup (replaceSelected ns sel reach new).nodes = before ++ markup new ++ after := by
  have hlen := span_start_le_length sel reach (tokens ns)
  generalize hr : sel.span reach (tokens ns) = r at hlen
  obtain ⟨written, stillOpen, h⟩ := tokensMarkup_append [] (r.keptBefore (tokens ns))
  refine ⟨written, tokensMarkup stillOpen (r.keptAfter (tokens ns)), fun new => ?_⟩
  rw [← tokensMarkup_tokens, tokens_replaceSelected, tokensMarkup_map_normalize, hr,
    Span.insertNodes_erase hlen, List.append_assoc, h, tokensMarkup_tokens_append,
    List.append_assoc]

/-! ### The markup of a span -/

lemma tokensMarkup_starts (opened tags : List Tag) (us : List Token) :
    tokensMarkup opened (tags.map .start ++ us) =
      tags.flatMap Tag.startMarkup ++ tokensMarkup (tags.reverse ++ opened) us := by
  induction tags generalizing opened with
  | nil => rfl
  | cons tag tags ih =>
    rw [List.map_cons, List.cons_append, tokensMarkup, ih, List.flatMap_cons, List.reverse_cons,
      List.append_assoc, List.append_assoc, List.singleton_append]

/-- End tags at the end of a row close what is closed there anyway, or have no effect. -/
lemma tokensMarkup_append_stops (opened : List Tag) (ts : List Token) (n : Nat) :
    tokensMarkup opened (ts ++ List.replicate n .stop) = tokensMarkup opened ts := by
  have hstops (opened : List Tag) :
      tokensMarkup opened (List.replicate n .stop) = tokensMarkup opened [] := by
    induction n generalizing opened with
    | zero => rfl
    | succ n ih =>
      cases opened with
      | nil => exact ih []
      | cons tag opened => exact congrArg (tag.endMarkup ++ ·) (ih opened)
  obtain ⟨written, stillOpen, h⟩ := tokensMarkup_append opened ts
  have hnone := h []
  rw [List.append_nil] at hnone
  rw [h, hstops, hnone]

namespace Span

/-- The elements around a span that end inside it, innermost first. -/
def cut (r : Span) (ts : List Token) : List Tag :=
  (Unmatched.ofTokens (r.before ts)).starts.take (Unmatched.ofTokens (r.inside ts)).stops

/-- The row of a span with start tags for the elements that end in it and end tags for those that
begin in it. -/
def whole (r : Span) (ts : List Token) : List Token :=
  Unmatched.startTokens ⟨0, r.cut ts⟩ ++ r.inside ts ++
    Unmatched.stopTokens ⟨(Unmatched.ofTokens (r.inside ts)).starts.length, []⟩

variable {r : Span} {ts : List Token}

lemma markup_eq (hr : r.start < r.stop) : r.markup ts = tokensMarkup [] (r.whole ts) := by
  have hempty : r.isEmpty = false := by simpa [isEmpty] using hr
  have hstarts : Unmatched.startTokens ⟨0, r.cut ts⟩ = (r.cut ts).reverse.map .start := rfl
  rw [whole, Unmatched.stopTokens, tokensMarkup_append_stops, hstarts, tokensMarkup_starts,
    List.reverse_reverse, List.append_nil]
  simp only [markup, hempty]
  rfl

lemma mem_whole {t : Token} (h : t ∈ r.whole ts) : t = .stop ∨ t ∈ ts := by
  rw [whole, List.mem_append, List.mem_append] at h
  rcases h with (h | h) | h
  · obtain ⟨tag, htag, rfl⟩ := List.mem_map.1 h
    rcases Unmatched.mem_foldl_starts (List.mem_of_mem_take (List.mem_reverse.1 htag)) with
      hnone | hbefore
    · cases hnone
    · exact .inr (List.mem_of_mem_take hbefore)
  · exact .inr (List.mem_of_mem_take (List.mem_of_mem_drop h))
  · exact .inl (List.eq_of_mem_replicate h)

/-- Every end tag in a span of a balanced row belongs to an element that is open there. -/
lemma stops_inside_le (h : r.start ≤ r.stop) (hts : Balanced ts) :
    (Unmatched.ofTokens (r.inside ts)).stops ≤
      (Unmatched.ofTokens (r.before ts)).starts.length := by
  have hnone : Unmatched.ofTokens ts = {} := hts
  rw [← split h ts, Unmatched.ofTokens_append, Unmatched.ofTokens_append] at hnone
  have hstops := congrArg Unmatched.stops hnone
  simp only [Unmatched.append_def] at hstops
  omega

lemma balanced_whole (h : r.start ≤ r.stop) (hts : Balanced ts) : Balanced (r.whole ts) := by
  have hle := stops_inside_le h hts
  have hcut : (r.cut ts).length = (Unmatched.ofTokens (r.inside ts)).stops := by
    rw [cut, List.length_take, Nat.min_eq_left hle]
  rw [Balanced, whole, Unmatched.ofTokens_append, Unmatched.ofTokens_append,
    Unmatched.ofTokens_startTokens, Unmatched.ofTokens_stopTokens]
  simp [Unmatched.append_def, hcut, List.drop_eq_nil_of_le]

/-- **The markup of a span** is that of a document, whose row is the span's made whole. -/
theorem tokens_parse_markup {ns : List Node} (h : WellFormed ns) (hr : r.start < r.stop) :
    tokens (parse (r.markup (tokens ns))) = r.whole (tokens ns) := by
  have hproper : ∀ t ∈ r.whole (tokens ns), t.Proper := by
    intro t ht
    rcases mem_whole ht with rfl | ht
    · trivial
    · exact proper_of_mem_tokens ns t ht
  have hwf : WellFormed (ofTokens (r.whole (tokens ns))) := by
    refine wellFormed_ofTokens fun t ht => ?_
    rcases mem_whole ht with rfl | ht
    · trivial
    · exact wellFormed_of_mem_tokens h t ht
  have hnormal : ∀ t ∈ r.whole (tokens ns), t.normalize = t := by
    intro t ht
    rcases mem_whole ht with rfl | ht
    · rfl
    · exact Token.normalize_of_mem_tokens h.voidsEmpty ht
  have hrow := tokens_ofTokens hproper (balanced_whole (Nat.le_of_lt hr) (balanced_tokens ns))
  have hmarkup : r.markup (tokens ns) = RichText.markup (ofTokens (r.whole (tokens ns))) := by
    rw [markup_eq hr, ← tokensMarkup_tokens, hrow, tokensMarkup_map_normalize]
  rw [hmarkup, parse_markup hwf, normalize_of_isNormal (isNormal_ofTokens _), hrow,
    List.map_congr_left hnormal, List.map_id']

end Span

end RichText
