import Mathlib.Tactic.Lemma
import RichText.Proofs.Building
import RichText.Proofs.Normalize

/-!
Reading pieces of markup. `Reads next s ns` says that a piece of markup stands for nodes wherever it
is put, as long as what follows it is `next`: a piece that ends in text must not be followed by more
text. Pieces are read one after the other, and what is enclosed in tags is read by itself.
-/

namespace RichText

namespace Event

open Ascii

/-! ### Events one by one -/

@[simp] lemma ofMarkup_nil : ofMarkup [] = [] := by rw [ofMarkup]

lemma ofMarkup_lt (r : Text) :
    ofMarkup ('<' :: r) = (readTag r).1.toList ++ ofMarkup (readTag r).2 := by
  rw [ofMarkup, if_pos rfl]

/-- What follows a text does not go on with text. -/
def Break (rest : Text) : Prop := rest = [] ∨ rest.head? = some '<'

lemma break_nil : Break [] := .inl rfl

lemma break_lt (rest : Text) : Break ('<' :: rest) := .inr rfl

/-- A run of text reaches to the next `<`. -/
lemma ofMarkup_text {s rest : Text} (hs : s ≠ []) (hlt : '<' ∉ s) (hrest : Break rest) :
    ofMarkup (s ++ rest) = text (decode s) :: ofMarkup rest := by
  obtain ⟨c, r, rfl⟩ := List.exists_cons_of_ne_nil hs
  rw [List.mem_cons, not_or] at hlt
  have hr : ∀ d ∈ r, (d != '<') = true := by
    intro d hd
    simpa using fun e : d = '<' => hlt.2 (e ▸ hd)
  have hstop : ∀ d ∈ rest.head?, (d != '<') = false := by
    intro d hd
    rcases hrest with rfl | h
    · cases hd
    · obtain rfl := Option.some.inj (hd.symm.trans h)
      rfl
  rw [List.cons_append, ofMarkup, if_neg (fun e => hlt.1 e.symm), takeWhile_append_of_head hr hstop,
    dropWhile_append_of_head hr hstop]

lemma readComment_append {s : Text} (h : ¬"-->".toList <:+: s) (rest : Text) :
    readComment (s ++ "-->".toList ++ rest) = (s, rest) := by
  induction s with
  | nil => rfl
  | cons c s ih =>
    have hs : ¬"-->".toList <:+: s := fun hin => h (hin.trans (List.suffix_cons c s).isInfix)
    have hnext : ∀ t, c = '-' → s ++ "-->".toList ++ rest = '-' :: '>' :: t → False := by
      rintro t rfl heq
      match s, heq with
      | [], heq => simp at heq
      | [d], heq => simp at heq
      | d :: e :: s, heq =>
        obtain ⟨rfl, rfl, -⟩ : d = '-' ∧ e = '>' ∧ _ = t := by simpa using heq
        exact h (List.prefix_append ['-', '-', '>'] s).isInfix
    rw [List.cons_append, List.cons_append, readComment.eq_3 _ _ hnext, ih hs]

lemma ofMarkup_comment {s : Text} (h : ¬"-->".toList <:+: s) (rest : Text) :
    ofMarkup ("<!--".toList ++ s ++ "-->".toList ++ rest) = comment s :: ofMarkup rest := by
  have hread := readComment_append h rest
  rw [show "<!--".toList ++ s ++ "-->".toList ++ rest =
    '<' :: '!' :: '-' :: '-' :: (s ++ "-->".toList ++ rest) by simp, ofMarkup_lt, readTag, hread]
  rfl

/-- The text between `<` and `>` is a start tag. -/
def Opens (opening : Text) (tag : Tag) : Prop :=
  (∃ c r, opening = c :: r ∧ c.isAlpha = true) ∧
    ∀ rest, StartTag.read? (opening ++ '>' :: rest) = some (tag, rest)

/-- The text between `</` and `>` is the end tag of a name. -/
def Closes (closing name : Text) : Prop :=
  (∃ c r, closing = c :: r ∧ c.isAlpha = true) ∧
    (∀ c ∈ closing, StartTag.isNameChar c = true) ∧ lower closing = name

lemma readTag_start {c : Char} {r rest : Text} {tag : Tag} (hc : c.isAlpha = true)
    (h : StartTag.read? (c :: r) = some (tag, rest)) :
    readTag (c :: r) = (some (start tag), rest) := by
  unfold readTag
  split
  · next h => cases h; cases hc
  · next h => cases h; cases hc
  · next h => cases h; cases hc
  · next h => cases h; cases hc
  · simp [hc, h]

lemma Opens.ofMarkup_eq {opening : Text} {tag : Tag} (h : Opens opening tag) (rest : Text) :
    ofMarkup ('<' :: opening ++ '>' :: rest) = start tag :: ofMarkup rest := by
  obtain ⟨⟨c, r, rfl, hc⟩, hread⟩ := h
  have htag : readTag (c :: (r ++ '>' :: rest)) = (some (start tag), rest) :=
    readTag_start hc (hread rest)
  rw [List.cons_append, List.cons_append, ofMarkup_lt, htag]
  rfl

lemma Closes.ofMarkup_eq {closing name : Text} (h : Closes closing name) (rest : Text) :
    ofMarkup ("</".toList ++ closing ++ '>' :: rest) = stop name :: ofMarkup rest := by
  obtain ⟨⟨c, r, hcr, hc⟩, hchars, rfl⟩ := h
  have hgt : ∀ d ∈ closing, (d != '>') = true := by
    intro d hd
    have := hchars d hd
    simp only [StartTag.isNameChar, Bool.not_eq_true', Bool.or_eq_false_iff, beq_eq_false_iff_ne]
      at this
    simpa using this.2
  have hskip : skipTag (closing ++ '>' :: rest) = rest := by
    rw [skipTag, List.dropWhile_append_of_pos hgt]
    rfl
  have hname : (closing ++ '>' :: rest).takeWhile StartTag.isNameChar = closing :=
    takeWhile_append_of_head hchars (by simp; decide)
  have htag : readTag ('/' :: (closing ++ '>' :: rest)) = (some (stop (lower closing)), rest) := by
    rw [readTag, hskip, hname, if_pos (by simp [hcr, hc])]
  rw [show "</".toList ++ closing ++ '>' :: rest = '<' :: '/' :: (closing ++ '>' :: rest) by simp,
    ofMarkup_lt, htag]
  rfl

/-- Tags around content that ends before its end tag add two events to those of the content. -/
lemma ofMarkup_enclosed {opening closing name s : Text} {tag : Tag} {es : List Event}
    (ho : Opens opening tag) (hc : Closes closing name)
    (hs : ∀ rest, Break rest → ofMarkup (s ++ rest) = es ++ ofMarkup rest) (rest : Text) :
    ofMarkup (enclosed opening closing s ++ rest) =
      start tag :: (es ++ stop name :: ofMarkup rest) := by
  have hbreak : Break ("</".toList ++ closing ++ '>' :: rest) := break_lt _
  have htext : enclosed opening closing s ++ rest =
      '<' :: opening ++ '>' :: (s ++ ("</".toList ++ closing ++ '>' :: rest)) := by
    simp [enclosed]
  rw [htext, ho.ofMarkup_eq, hs _ hbreak, hc.ofMarkup_eq]

end Event

open Event

/-! ### Pieces of markup -/

/-- A piece of markup stands for nodes, up to the joining of texts, before what is `next`. -/
def Reads (next : Text → Prop) (s : Text) (ns : List Node) : Prop :=
  ∃ es ms, Builds es ms ∧ normalize ms = normalize ns ∧
    ∀ rest, next rest → ofMarkup (s ++ rest) = es ++ ofMarkup rest

namespace Reads

variable {next mid after : Text → Prop} {s t opening closing : Text} {ms ns : List Node} {tag : Tag}

lemma nil : Reads next [] [] := ⟨[], [], .nil, rfl, fun _ _ => rfl⟩

lemma congr (h : Reads next s ms) (hn : normalize ms = normalize ns) : Reads next s ns := by
  obtain ⟨es, ks, hb, hk, hr⟩ := h
  exact ⟨es, ks, hb, hk.trans hn, hr⟩

lemma mono (h : Reads mid s ns) (hnext : ∀ rest, next rest → mid rest) : Reads next s ns := by
  obtain ⟨es, ms, hb, hn, hr⟩ := h
  exact ⟨es, ms, hb, hn, fun rest hrest => hr rest (hnext rest hrest)⟩

/-- Markup read by itself is parsed. -/
theorem parse_eq (h : Reads next s ns) (hnil : next []) : parse s = normalize ns := by
  obtain ⟨es, ms, hb, hn, hr⟩ := h
  have hes : ofMarkup s = es := by simpa using hr [] hnil
  rw [parse, hes, hb.ofEvents_eq, hn]

/-- Two pieces are read one after the other if the first stands before the second. -/
lemma append (hs : Reads mid s ms) (ht : Reads next t ns)
    (h : ∀ rest, after rest → mid (t ++ rest) ∧ next rest) : Reads after (s ++ t) (ms ++ ns) := by
  obtain ⟨es, ks, hes, hks, hs⟩ := hs
  obtain ⟨fs, ls, hfs, hls, ht⟩ := ht
  refine ⟨es ++ fs, ks ++ ls, hes.append hfs, normalize_append_congr hks hls, fun rest hrest => ?_⟩
  obtain ⟨hmid, hnext⟩ := h rest hrest
  rw [List.append_assoc, hs _ hmid, ht _ hnext, List.append_assoc]

/-- A run of text stands for what it decodes to. -/
lemma run (h : '<' ∉ s) : Reads Break s [.text (decode s)] := by
  by_cases hs : s = []
  · subst hs
    exact nil.congr rfl
  · exact ⟨[.text (decode s)], _, .text _, rfl, fun rest hrest => ofMarkup_text hs h hrest⟩

lemma escapeText (s : Text) : Reads Break (escapeText s) [.text s] := by
  have h := run (lt_notMem_escapeText s)
  rwa [decode_escapeText] at h

lemma comment (h : ¬"-->".toList <:+: s) :
    Reads next ("<!--".toList ++ s ++ "-->".toList) [.comment s] :=
  ⟨[.comment s], _, .comment s, rfl, fun rest _ => ofMarkup_comment h rest⟩

lemma void (ho : Opens opening tag) (hv : tag.isVoid = true) :
    Reads next ('<' :: opening ++ ['>']) [.element tag []] := by
  refine ⟨[.start tag], _, .void hv, rfl, fun rest _ => ?_⟩
  rw [List.append_assoc]
  exact ho.ofMarkup_eq rest

/-- **Content between tags** is read by itself. -/
theorem enclosed (ho : Opens opening tag) (hc : Closes closing tag.name) (hv : tag.isVoid = false)
    (h : Reads Break s ns) : Reads next (enclosed opening closing s) [.element tag ns] := by
  obtain ⟨es, ms, hb, hn, hr⟩ := h
  refine ⟨.start tag :: (es ++ [.stop tag.name]), [.element tag ms], .element hv hb, ?_, ?_⟩
  · rw [normalize_element, normalize_element, hn]
  · intro rest _
    rw [ofMarkup_enclosed ho hc hr]
    simp

/-- Content between the tags of a void element stands behind that element, and the closing tag for
nothing. -/
theorem enclosed_void (ho : Opens opening tag) (hc : Closes closing tag.name)
    (hv : tag.isVoid = true) (h : Reads Break s ns) :
    Reads next (RichText.enclosed opening closing s) (.element tag [] :: ns) := by
  obtain ⟨es, ms, hb, hn, hr⟩ := h
  refine ⟨[.start tag] ++ (es ++ [.stop tag.name]), [.element tag []] ++ (ms ++ []),
    (Builds.void hv).append (hb.append (.strayStop hv)), ?_, ?_⟩
  · rw [List.append_nil]
    exact normalize_append_congr rfl hn
  · intro rest _
    rw [ofMarkup_enclosed ho hc hr]
    simp

end Reads

/-! ### The markup of a document -/

namespace Tag.WellFormed

variable {tag : Tag}

lemma opens (h : tag.WellFormed) :
    Opens (tag.name ++ tag.attributes.flatMap Attribute.markup) tag := by
  obtain ⟨c, r, hcr, hc⟩ := h.name.1
  refine ⟨⟨c, r ++ tag.attributes.flatMap Attribute.markup, by rw [hcr]; rfl, hc⟩, ?_⟩
  exact StartTag.read?_markup h

lemma closes (h : tag.WellFormed) : Closes tag.name tag.name :=
  ⟨h.name.1, List.all_eq_true.1 h.name.2.1, h.name.2.2⟩

end Tag.WellFormed

lemma markup_element {tag : Tag} (h : tag.isVoid = false) (inside : List Node) :
    (Node.element tag inside).markup =
      enclosed (tag.name ++ tag.attributes.flatMap Attribute.markup) tag.name (markup inside) := by
  simp [Node.markup, Tag.startMarkup, Tag.endMarkup, enclosed, h]

lemma markup_void {tag : Tag} (h : tag.isVoid = true) (inside : List Node) :
    (Node.element tag inside).markup =
      '<' :: (tag.name ++ tag.attributes.flatMap Attribute.markup) ++ ['>'] := by
  simp [Node.markup, Tag.startMarkup, Tag.endMarkup, h]

/-- Markup that does not begin with a text begins with a tag. -/
lemma break_markup {n : Node} (h : n.isText = false) (ns : List Node) (rest : Text) :
    Break (markup (n :: ns) ++ rest) := by
  cases n with
  | text s => simp at h
  | comment s => exact break_lt _
  | element tag inside => exact break_lt _

/-- What may follow the markup of a document: no text if the document ends in one. -/
def Follows (ns : List Node) (rest : Text) : Prop := ns.getLast?.any Node.isText = true → Break rest

lemma reads_cons {n : Node} {ns : List Node} (hn : IsNormal (n :: ns))
    (h : Reads (Follows [n]) n.markup [n]) (hs : Reads (Follows ns) (markup ns) ns) :
    Reads (Follows (n :: ns)) (markup (n :: ns)) (n :: ns) := by
  refine h.append hs fun rest hrest => ?_
  cases ns with
  | nil => exact ⟨hrest, nofun⟩
  | cons m ms =>
    refine ⟨fun ht => break_markup ?_ ms rest, by simpa [Follows] using hrest⟩
    have hhead := hn.2.1
    simpa [show n.isText = true by simpa using ht] using hhead

lemma reads_markup_of_isNormal {ns : List Node} (h : WellFormed ns) (hn : IsNormal ns) :
    Reads (Follows ns) (markup ns) ns := by
  induction ns using Node.induction with
  | nil => exact .nil
  | text s ns ih =>
    exact reads_cons hn ((Reads.escapeText s).mono fun rest hrest => hrest rfl) (ih h.2 hn.2.2)
  | comment s ns ih => exact reads_cons hn (.comment h.1) (ih h.2 hn.2.2)
  | element tag inside ns ihin ih =>
    obtain ⟨⟨htag, hvoid, hinside⟩, hns⟩ := h
    refine reads_cons hn ?_ (ih hns hn.2.2)
    by_cases hv : tag.isVoid = true
    · rw [markup_void hv, hvoid hv]
      exact .void htag.opens hv
    · have hv : tag.isVoid = false := by simpa using hv
      rw [markup_element hv]
      have hread := (ihin hinside hn.1).mono fun rest (hrest : Break rest) _ => hrest
      exact .enclosed htag.opens htag.closes hv hread

/-- **The markup of a well-formed document** stands for the document. -/
theorem reads_markup {ns : List Node} (h : WellFormed ns) :
    Reads (Follows (normalize ns)) (markup ns) ns := by
  have hread := reads_markup_of_isNormal (wellFormed_normalize h) (isNormal_normalize ns)
  rw [markup_normalize] at hread
  exact hread.congr (normalize_normalize ns)

end RichText
