import Mathlib.Tactic.Lemma
import RichText.Edit
import RichText.Proofs.Reading
import RichText.Proofs.RoundTrip

/-!
What insertions put in. The markup of an element around a run of text, of a line break, or of tags
with quoted attributes begins and ends with a tag, so it is read the same wherever it is put, and
the two ways to make nodes of it agree.
-/

namespace RichText

open Ascii

/-! ### Tags -/

/-- An opening tag as actions spell it: a name, then attributes with quoted values. -/
def opening (name : Text) (attributes : List (Text × Text)) : Text :=
  name ++ attributes.flatMap fun a => ' ' :: a.1 ++ "=\"".toList ++ a.2 ++ ['"']

/-- The tag that is read from an opening. -/
def openingTag (name : Text) (attributes : List (Text × Text)) : Tag :=
  ⟨lower name, StartTag.firstOfName (attributes.map fun a => ⟨lower a.1, decode a.2⟩)⟩

namespace Event

variable {name : Text}

lemma opens_opening (hname : isElementName name = true) {attributes : List (Text × Text)}
    (h : ∀ a ∈ attributes, StartTag.IsAttributeName a.1 ∧ '"' ∉ a.2) :
    Opens (opening name attributes) (openingTag name attributes) := by
  obtain ⟨c, r, hcr, hc, hchars⟩ := StartTag.exists_cons_of_isElementName hname
  refine ⟨⟨c, opening r attributes, by rw [hcr]; rfl, hc⟩, fun rest => ?_⟩
  have hrest : ∀ d ∈ ((attributes.flatMap fun a => ' ' :: a.1 ++ "=\"".toList ++ a.2 ++ ['"']) ++
      '>' :: rest).head?, StartTag.isNameChar d = false := by
    cases attributes with
    | nil => simp; decide
    | cons a as => simp; decide
  rw [opening, List.append_assoc, StartTag.read?_append hchars hrest,
    StartTag.readAttributes?_quoted_gt h]
  rfl

lemma opens_name (hname : isElementName name = true) : Opens name ⟨lower name, []⟩ := by
  have h := @opens_opening name hname [] (by simp)
  simpa [opening, openingTag, StartTag.firstOfName] using h

lemma closes_name (hname : isElementName name = true) : Closes name (lower name) := by
  obtain ⟨c, r, hcr, hc, hchars⟩ := StartTag.exists_cons_of_isElementName hname
  exact ⟨⟨c, r, hcr, hc⟩, hchars, rfl⟩

end Event

/-! ### Markup that is read the same everywhere -/

/-- Markup that is empty or begins and ends with a tag. -/
structure Standalone (s : Text) : Prop where
  starts : Event.Break s
  reads : Reads (fun _ => True) s (parse s)

lemma Reads.standalone {s : Text} {ns : List Node} (h : Reads (fun _ => True) s ns)
    (hs : Event.Break s) : Standalone s := by
  refine ⟨hs, h.congr ?_⟩
  rw [h.parse_eq trivial, normalize_normalize]

lemma parse_nil : parse [] = [] := by rw [parse, Event.ofMarkup_nil]; rfl

lemma standalone_nil : Standalone [] := Reads.nil.standalone Event.break_nil

lemma reads_br {next : Text → Prop} : Reads next "<br>".toList [.element ⟨"br".toList, []⟩ []] :=
  .void (@Event.opens_name "br".toList rfl) rfl

lemma isVoid_plainTag (name : Text) : (⟨lower name, []⟩ : Tag).isVoid = isVoidName name := by
  rw [Tag.isVoid, isVoidName, StartTag.lower_lower, isVoidName]

lemma reads_element {next : Text → Prop} {name content : Text} (hname : isElementName name = true)
    (hvoid : isVoidName name = false) (hlt : '<' ∉ content) :
    Reads next (enclosed name name content)
      [.element ⟨lower name, []⟩ [.text (decode content)]] := by
  have hv : (⟨lower name, []⟩ : Tag).isVoid = false := (isVoid_plainTag name).trans hvoid
  exact .enclosed (Event.opens_name hname) (Event.closes_name hname) hv (.run hlt)

/-- A text between the tags of an element, or behind the element if it is void. -/
def Tag.around (tag : Tag) (s : Text) : List Node :=
  if tag.isVoid then [.element tag [], .text s] else [.element tag [.text s]]

lemma reads_around {next : Text → Prop} {name content : Text} {attributes : List (Text × Text)}
    (hname : isElementName name = true)
    (h : ∀ a ∈ attributes, StartTag.IsAttributeName a.1 ∧ '"' ∉ a.2) (hlt : '<' ∉ content) :
    Reads next (enclosed (opening name attributes) name content)
      ((openingTag name attributes).around (decode content)) := by
  have hopens := Event.opens_opening hname h
  have hcloses : Event.Closes name (openingTag name attributes).name := Event.closes_name hname
  rw [Tag.around]
  split
  · next hv => exact .enclosed_void hopens hcloses hv (.run hlt)
  · next hv => exact .enclosed hopens hcloses (by simpa using hv) (.run hlt)

lemma standalone_enclosed {name content : Text} {attributes : List (Text × Text)}
    (hname : isElementName name = true)
    (h : ∀ a ∈ attributes, StartTag.IsAttributeName a.1 ∧ '"' ∉ a.2) (hlt : '<' ∉ content) :
    Standalone (enclosed (opening name attributes) name content) :=
  (reads_around hname h hlt).standalone (Event.break_lt _)

/-- **Between two runs of text**, standalone markup stands for its nodes between two texts. -/
theorem Standalone.reads_between {s : Text} (h : Standalone s) (x z : Text) :
    Reads Event.Break (escapeText x ++ s ++ escapeText z) (.text x :: parse s ++ [.text z]) := by
  rcases h.starts with rfl | hlt
  · -- nothing stands between them, so the two runs are one
    have hjoin : Reads Event.Break (escapeText (x ++ z)) [.text (x ++ z)] := .escapeText _
    rw [escapeText_append] at hjoin
    rw [List.append_nil, parse_nil]
    exact hjoin.congr (consText_consText x z []).symm
  · obtain ⟨t, rfl⟩ := List.head?_eq_some_iff.1 hlt
    have hs : Reads (fun _ => True) (escapeText x ++ '<' :: t) ([.text x] ++ parse ('<' :: t)) :=
      (Reads.escapeText x).append h.reads fun rest _ => ⟨Event.break_lt _, trivial⟩
    exact hs.append (.escapeText z) fun rest hrest => ⟨trivial, hrest⟩

/-! ### Well-formed insertions -/

lemma wellFormed_textNode (s : Text) : WellFormed [.text s] := ⟨trivial, trivial⟩

/-- A name that an element can be made with is read as it is, in lower case. -/
lemma wellFormed_plainTag {name : Text} (h : isElementName name = true) :
    (⟨Ascii.lower name, []⟩ : Tag).WellFormed where
  name := by
    obtain ⟨c, s, rfl, hc, hname⟩ := StartTag.exists_cons_of_isElementName h
    exact StartTag.isReadName_lower hc hname
  attributes := by simp
  distinct := List.nodup_nil

lemma wellFormed_br : (⟨"br".toList, []⟩ : Tag).WellFormed :=
  @wellFormed_plainTag "br".toList rfl

namespace Insertion

lemma wellFormed_pasted (i : Insertion) : WellFormed i.pasted := by
  cases i with
  | text s => exact wellFormed_textNode s
  | _ => exact wellFormed_parse _

lemma wellFormed_wrapper? {name content : Text} {n : Node} (h : wrapper? name content = some n) :
    n.WellFormed := by
  rw [wrapper?] at h
  split at h
  · next hname =>
    obtain rfl := Option.some.inj h
    refine ⟨wellFormed_plainTag hname, fun hv => if_pos hv, ?_⟩
    split
    · trivial
    · exact wellFormed_parse content
  · cases h

lemma wellFormed_built? {i : Insertion} {ns : List Node} (h : i.built? = some ns) :
    WellFormed ns := by
  cases i with
  | text s =>
    obtain rfl := Option.some.inj h
    exact wellFormed_textNode s
  | tagged opening closing content =>
    obtain rfl := Option.some.inj h
    exact wellFormed_parse _
  | element name content =>
    obtain ⟨n, hn, rfl⟩ := Option.map_eq_some_iff.1 h
    exact ⟨wellFormed_wrapper? hn, trivial⟩
  | lineBreak =>
    obtain rfl := Option.some.inj h
    exact ⟨⟨wellFormed_br, fun _ => rfl, trivial⟩, trivial⟩
  | nothing =>
    obtain rfl := Option.some.inj h
    trivial

end Insertion

/-! ### The two ways to make nodes -/

namespace Insertion

@[simp] lemma pasted_lineBreak : lineBreak.pasted = [.element ⟨"br".toList, []⟩ []] := by
  have hread : Reads Event.Break "<br>".toList _ := reads_br
  rw [pasted, markup, hread.parse_eq Event.break_nil]
  · rfl
  · nofun

lemma plainText_pasted_lineBreak : plainText lineBreak.pasted = [] := by
  rw [pasted_lineBreak]
  rfl

@[simp] lemma pasted_nothing : nothing.pasted = [] := by rw [pasted, markup, parse_nil]; nofun

/-- An element whose end tag is read, around a run of text. Other insertions are made the same way
through either interface. -/
def Plain : Insertion → Prop
  | element name content => isElementName name = true ∧ isVoidName name = false ∧ '<' ∉ content
  | _ => True

/-- **Making elements and pasting markup** give the same nodes. -/
theorem built?_eq_pasted {i : Insertion} (h : i.Plain) : i.built? = some i.pasted := by
  cases i with
  | text s => rfl
  | tagged opening closing content => rfl
  | element name content =>
    obtain ⟨hname, hvoid, hlt⟩ := h
    have hv : (⟨lower name, []⟩ : Tag).isVoid = false := (isVoid_plainTag name).trans hvoid
    have hpasted : Reads Event.Break (enclosed name name content) _ :=
      reads_element hname hvoid hlt
    have hinside := (Reads.run hlt).parse_eq Event.break_nil
    simp only [built?, wrapper?, if_pos hname, hv, pasted, markup,
      hpasted.parse_eq Event.break_nil, hinside]
    rfl
  | lineBreak => rw [pasted_lineBreak, built?]
  | nothing => rw [pasted_nothing, built?]

end Insertion

end RichText
