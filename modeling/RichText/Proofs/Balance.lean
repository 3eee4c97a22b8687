import Mathlib.Data.List.Induction
import Mathlib.Tactic.Lemma
import RichText.Proofs.Tokens

/-!
Rows whose tags match. The row of a document is one, and an edited row is one again, because a cut
keeps just the tags that were unmatched in it. From such a row a document is rebuilt that has the
row for its own, but for what is inside void elements.
-/

namespace RichText

/-! ### Unmatched tags -/

namespace Unmatched

/-- What is unmatched in a row and in one behind it: end tags of the second meet start tags of the
first. -/
instance : Append Unmatched where
  append u v := ⟨u.stops + (v.stops - u.starts.length), v.starts ++ u.starts.drop v.stops⟩

lemma append_def (u v : Unmatched) :
    u ++ v = ⟨u.stops + (v.stops - u.starts.length), v.starts ++ u.starts.drop v.stops⟩ := rfl

@[simp] lemma append_none (u : Unmatched) : u ++ ({} : Unmatched) = u := by simp [append_def]

@[simp] lemma none_append (u : Unmatched) : ({} : Unmatched) ++ u = u := by simp [append_def]

lemma step_append (u v : Unmatched) (t : Token) : (u ++ v).step t = u ++ v.step t := by
  obtain ⟨k, outer⟩ := u
  obtain ⟨n, inner⟩ := v
  cases t with
  | char c => rfl
  | leaf m => rfl
  | start tag => rfl
  | stop =>
    cases inner with
    | cons tag rest => rfl
    | nil =>
      simp only [append_def, step, List.nil_append]
      rcases Nat.lt_or_ge n outer.length with hlt | hge
      · -- the end tag meets a start tag of the first row
        rw [List.drop_eq_getElem_cons hlt]
        simp only [Unmatched.mk.injEq, and_true]
        omega
      · rw [List.drop_eq_nil_of_le hge, List.drop_eq_nil_of_le (by omega)]
        simp only [Unmatched.mk.injEq, and_true]
        omega

lemma foldl_step (u : Unmatched) (ts : List Token) : ts.foldl step u = u ++ ofTokens ts := by
  induction ts using List.reverseRecOn with
  | nil => exact (append_none u).symm
  | append_singleton ts t ih =>
    rw [ofTokens, List.foldl_append, List.foldl_append, ih]
    exact step_append u _ t

theorem ofTokens_append (ts us : List Token) :
    ofTokens (ts ++ us) = ofTokens ts ++ ofTokens us := by
  rw [ofTokens, List.foldl_append, foldl_step]
  rfl

lemma ofTokens_cons (t : Token) (ts : List Token) :
    ofTokens (t :: ts) = ofTokens [t] ++ ofTokens ts := ofTokens_append [t] ts

lemma ofTokens_stopTokens (u : Unmatched) : ofTokens u.stopTokens = ⟨u.stops, []⟩ := by
  have hstops (n : Nat) : ofTokens (List.replicate n .stop) = ⟨n, []⟩ := by
    induction n with
    | zero => rfl
    | succ n ih => rw [List.replicate_succ', ofTokens_append, ih]; rfl
  exact hstops u.stops

lemma ofTokens_startTokens (u : Unmatched) : ofTokens u.startTokens = ⟨0, u.starts⟩ := by
  have hstarts (tags : List Tag) : ofTokens (tags.reverse.map .start) = ⟨0, tags⟩ := by
    induction tags with
    | nil => rfl
    | cons tag tags ih =>
      have hlast : ofTokens ([tag].map .start) = ⟨0, [tag]⟩ := rfl
      rw [List.reverse_cons, List.map_append, ofTokens_append, ih, hlast]
      simp [append_def]
  exact hstarts u.starts

/-- The tags that a cut keeps are unmatched as they were in the cut. -/
lemma ofTokens_kept (u : Unmatched) : ofTokens (u.stopTokens ++ u.startTokens) = u := by
  rw [ofTokens_append, ofTokens_stopTokens, ofTokens_startTokens]
  simp [append_def]

end Unmatched

/-! ### Rows whose tags match -/

def Balanced (ts : List Token) : Prop := Unmatched.ofTokens ts = {}

lemma Balanced.append {ts us : List Token} (ht : Balanced ts) (hu : Balanced us) :
    Balanced (ts ++ us) := by
  rw [Balanced, Unmatched.ofTokens_append, ht, hu]
  rfl

/-- A balanced row may be put in anywhere and taken out again. -/
lemma balanced_insert_iff {ts us ws : List Token} (hu : Balanced us) :
    Balanced (ts ++ us ++ ws) ↔ Balanced (ts ++ ws) := by
  rw [Balanced, Balanced, Unmatched.ofTokens_append, Unmatched.ofTokens_append, hu,
    Unmatched.append_none, Unmatched.ofTokens_append]

lemma Balanced.stops_eq_zero {us ws : List Token} (h : Balanced (us ++ ws)) :
    (Unmatched.ofTokens us).stops = 0 := by
  rw [Balanced, Unmatched.ofTokens_append] at h
  have hstops := congrArg Unmatched.stops h
  simp only [Unmatched.append_def] at hstops
  omega

lemma Balanced.starts_eq_nil {us ws : List Token} (h : Balanced (us ++ ws)) :
    (Unmatched.ofTokens ws).starts = [] := by
  rw [Balanced, Unmatched.ofTokens_append] at h
  have hstarts := congrArg Unmatched.starts h
  exact (List.append_eq_nil_iff.1 hstarts).1

lemma unmatched_chars (s : Text) : Unmatched.ofTokens (s.map .char) = {} := by
  induction s with
  | nil => rfl
  | cons c s ih => exact ih

theorem balanced_tokens (ns : List Node) : Balanced (tokens ns) := by
  induction ns using Node.induction with
  | nil => rfl
  | text s ns ih =>
    rw [Balanced, tokens_cons, Unmatched.ofTokens_append, ih, Node.tokens, unmatched_chars]
    rfl
  | comment s ns ih => exact ih
  | element tag inside ns ihin ih =>
    rw [Balanced, tokens_cons, Unmatched.ofTokens_append, ih, Node.tokens, Unmatched.append_none]
    split
    · rfl
    · rw [List.cons_append, Unmatched.ofTokens_cons, Unmatched.ofTokens_append, ihin,
        Unmatched.none_append]
      rfl

/-- A token as a document has it: elements of which it has tags have an end tag, and a leaf is all
of its own row. -/
def Token.Proper : Token → Prop
  | .start tag => tag.isVoid = false
  | .leaf n => n.tokens = [.leaf n]
  | _ => True

lemma proper_of_mem_tokens (ns : List Node) : ∀ t ∈ tokens ns, t.Proper := by
  induction ns using Node.induction with
  | nil => exact fun t ht => by cases ht
  | text s ns ih =>
    intro t ht
    rcases List.mem_append.1 ht with ht | ht
    · obtain ⟨c, -, rfl⟩ := List.mem_map.1 ht
      trivial
    · exact ih t ht
  | comment s ns ih => exact List.forall_mem_cons.2 ⟨rfl, ih⟩
  | element tag inside ns ihin ih =>
    intro t ht
    rcases List.mem_append.1 ht with ht | ht
    · rw [Node.tokens] at ht
      split at ht
      · next hv =>
        obtain rfl := List.mem_singleton.1 ht
        exact if_pos hv
      · next hv =>
        rw [List.cons_append, List.mem_cons, List.mem_append, List.mem_singleton] at ht
        rcases ht with rfl | ht | rfl
        · exact (Bool.not_eq_true _).mp hv
        · exact ihin t ht
        · trivial
    · exact ih t ht

/-! ### Rebuilding -/

lemma tokens_consText (s : Text) (ns : List Node) :
    tokens (consText s ns) = s.map .char ++ tokens ns := by
  rcases consText_cases s ns with ⟨rfl, h⟩ | ⟨t, ms, rfl, h⟩ | ⟨-, -, h⟩
  · rw [h, List.map_nil, List.nil_append]
  · simp [h, Node.tokens]
  · rw [h]
    rfl

/-- A leaf with its inside in normal form. -/
def Token.normalize : Token → Token
  | .leaf n => .leaf n.normalize
  | t => t

lemma tokens_normalize (ns : List Node) :
    tokens (normalize ns) = (tokens ns).map Token.normalize := by
  induction ns using Node.induction with
  | nil => rfl
  | text s ns ih =>
    rw [normalize_text, tokens_consText, ih, tokens_cons, List.map_append, Node.tokens,
      List.map_map]
    rfl
  | comment s ns ih => rw [normalize_comment, tokens_cons, ih]; rfl
  | element tag inside ns ihin ih =>
    rw [normalize_element, tokens_cons, tokens_cons, ih, List.map_append, Node.tokens, Node.tokens]
    split
    · rfl
    · rw [ihin, List.map_append, List.map_cons]
      rfl

namespace Levels

/-- The row that was read: the levels around are behind end tags that have no start tag yet. -/
def row (l : Levels) : List Token :=
  tokens l.nodes ++ l.around.flatMap fun ns => .stop :: tokens ns

lemma row_cons {l : Levels} {t : Token} (ht : t.Proper) (h : t.isStart = true → l.around ≠ []) :
    (l.cons t).row = t :: l.row := by
  obtain ⟨nodes, around⟩ := l
  cases t with
  | char c => simp [cons, row, tokens_consText]
  | leaf n =>
    have hleaf : n.tokens = [.leaf n] := ht
    simp [cons, row, hleaf]
  | stop => simp [cons, row]
  | start tag =>
    have hv : tag.isVoid = false := ht
    cases around with
    | nil => exact absurd rfl (h rfl)
    | cons outer rest => simp [cons, row, Node.tokens, hv]

/-- A row in which every start tag is matched is read as it is, with a level around for each end
tag that is not. -/
lemma row_foldr {ts : List Token} (hts : ∀ t ∈ ts, t.Proper)
    (h : (Unmatched.ofTokens ts).starts = []) :
    (ts.foldr cons {}).row = ts ∧
      (ts.foldr cons {}).around.length = (Unmatched.ofTokens ts).stops := by
  induction ts with
  | nil => exact ⟨rfl, rfl⟩
  | cons t ts ih =>
    obtain ⟨ht, hts⟩ := List.forall_mem_cons.1 hts
    rw [Unmatched.ofTokens_cons, Unmatched.append_def] at h
    obtain ⟨hstarts, hdrop⟩ := List.append_eq_nil_iff.1 h
    obtain ⟨hrow, haround⟩ := ih hts hstarts
    have hlevel : t.isStart = true → (ts.foldr cons {}).around ≠ [] := by
      -- the start tag meets an end tag further on
      intro hstart hnil
      cases t with
      | start tag =>
        rw [hnil, List.length_nil] at haround
        rw [← haround] at hdrop
        cases hdrop
      | _ => cases hstart
    refine ⟨by rw [List.foldr_cons, row_cons ht hlevel, hrow], ?_⟩
    rw [List.foldr_cons, Unmatched.ofTokens_cons, Unmatched.append_def, ← haround]
    cases t with
    | char c => exact (Nat.zero_add _).symm
    | leaf n => exact (Nat.zero_add _).symm
    | stop => exact Nat.add_comm _ 1
    | start tag =>
      rw [cons]
      cases haround' : (ts.foldr cons {}).around with
      | nil => exact absurd haround' (hlevel rfl)
      | cons outer rest => exact (Nat.zero_add _).symm

end Levels

/-- **Rebuilding and flattening** a row whose tags match gives the row. -/
theorem tokens_ofTokens {ts : List Token} (hts : ∀ t ∈ ts, t.Proper) (h : Balanced ts) :
    tokens (ofTokens ts) = ts.map Token.normalize := by
  have hnone : Unmatched.ofTokens ts = {} := h
  obtain ⟨hrow, haround⟩ := Levels.row_foldr hts (by rw [hnone])
  rw [hnone] at haround
  rw [Levels.row, List.eq_nil_of_length_eq_zero haround, List.flatMap_nil, List.append_nil] at hrow
  rw [ofTokens, tokens_normalize, Levels.all, List.eq_nil_of_length_eq_zero haround,
    List.flatten_nil, List.append_nil, hrow]

/-! ### Edited rows -/

/-- A list is what stands before, inside and after a stretch of it. -/
lemma take_append_slice_append_drop {α : Type} {i j : Nat} (h : i ≤ j) (l : List α) :
    l.take i ++ (l.take j).drop i ++ l.drop j = l := by
  have hbefore : l.take i = (l.take j).take i := by rw [List.take_take, Nat.min_eq_left h]
  rw [hbefore, List.take_append_drop, List.take_append_drop]

namespace Span

variable {r : Span} {ts : List Token}

lemma split (h : r.start ≤ r.stop) (ts : List Token) :
    r.before ts ++ r.inside ts ++ r.after ts = ts :=
  take_append_slice_append_drop h ts

lemma length_before (h : r.start ≤ ts.length) : (r.before ts).length = r.start := by
  rw [before, List.length_take, Nat.min_eq_left h]

lemma length_inside (h : r.stop ≤ ts.length) : (r.inside ts).length = r.stop - r.start := by
  rw [inside, List.length_drop, List.length_take, Nat.min_eq_left h]

lemma inside_append (ts ms us : List Token) :
    inside ⟨ts.length, ts.length + ms.length⟩ (ts ++ ms ++ us) = ms := by
  rw [inside, List.append_assoc, List.take_length_add_append, List.take_left, List.drop_left]

/-- What a cut keeps before its place: the row up to the span, and the end tags. -/
def keptBefore (r : Span) (ts : List Token) : List Token :=
  r.before ts ++ (Unmatched.ofTokens (r.inside ts)).stopTokens

/-- What a cut keeps after its place: the start tags, and the row behind the span. -/
def keptAfter (r : Span) (ts : List Token) : List Token :=
  (Unmatched.ofTokens (r.inside ts)).startTokens ++ r.after ts

lemma kept_append (us ms ws : List Token) :
    keptBefore ⟨us.length, us.length + ms.length⟩ (us ++ ms ++ ws) =
        us ++ (Unmatched.ofTokens ms).stopTokens ∧
      keptAfter ⟨us.length, us.length + ms.length⟩ (us ++ ms ++ ws) =
        (Unmatched.ofTokens ms).startTokens ++ ws := by
  have hbefore : before ⟨us.length, us.length + ms.length⟩ (us ++ ms ++ ws) = us := by
    rw [before, List.append_assoc, List.take_left]
  have hafter : after ⟨us.length, us.length + ms.length⟩ (us ++ ms ++ ws) = ws := by
    rw [after, ← List.length_append, List.drop_left]
  rw [keptBefore, keptAfter, inside_append, hbefore, hafter]
  exact ⟨rfl, rfl⟩

lemma erase_eq (r : Span) (ts : List Token) : r.erase ts = r.keptBefore ts ++ r.keptAfter ts := by
  simp only [erase, keptBefore, keptAfter, List.append_assoc]

lemma length_keptBefore (h : r.start ≤ ts.length) : (r.keptBefore ts).length = r.collapse ts := by
  rw [collapse, keptBefore, Unmatched.stopTokens, List.length_append, length_before h,
    List.length_replicate]

/-- Nodes stand between the end tags and the start tags that are kept. -/
lemma insertNodes_erase (h : r.start ≤ ts.length) (ns : List Node) :
    insertNodes (r.erase ts) (r.collapse ts) ns =
      r.keptBefore ts ++ tokens ns ++ r.keptAfter ts := by
  rw [insertNodes, erase_eq, ← length_keptBefore h, List.take_left, List.drop_left]

/-- What an edited row begins with, up to some tokens behind the cut. -/
lemma take_insertNodes_erase (h : r.start ≤ ts.length) (ns : List Node) (n : Nat) :
    (insertNodes (r.erase ts) (r.collapse ts) ns).take (r.collapse ts + n) =
      r.keptBefore ts ++ (tokens ns ++ r.keptAfter ts).take n := by
  rw [insertNodes_erase h, ← length_keptBefore h, List.append_assoc, List.take_length_add_append]

/-- **A row stays balanced** when nodes are put in place of a span of it. -/
theorem balanced_insertNodes_erase (hr : r.start ≤ r.stop) (hlen : r.start ≤ ts.length)
    (hts : Balanced ts) (ns : List Node) :
    Balanced (insertNodes (r.erase ts) (r.collapse ts) ns) := by
  have hsplit := congrArg Unmatched.ofTokens (split hr ts)
  rw [Unmatched.ofTokens_append, Unmatched.ofTokens_append] at hsplit
  have hkept := Unmatched.ofTokens_kept (Unmatched.ofTokens (r.inside ts))
  have hassoc : r.keptBefore ts ++ r.keptAfter ts = r.before ts ++
      ((Unmatched.ofTokens (r.inside ts)).stopTokens ++
        (Unmatched.ofTokens (r.inside ts)).startTokens) ++ r.after ts := by
    simp only [keptBefore, keptAfter, List.append_assoc]
  rw [Balanced, insertNodes_erase hlen, Unmatched.ofTokens_append, Unmatched.ofTokens_append,
    balanced_tokens ns, Unmatched.append_none, ← Unmatched.ofTokens_append, hassoc,
    Unmatched.ofTokens_append, Unmatched.ofTokens_append, hkept, hsplit]
  exact hts

end Span

end RichText
