import Mathlib.Tactic.Lemma
import RichText.Proofs.Insertions
import RichText.Registry.Standard

/-!
The standard actions, kind by kind. Most of them put the selected text back between tags, spelled so
that reading finds the same tags around any text; the others break the line, delete or unformat.
-/

namespace RichText

/-! ### Names and spellings -/

/-- Elements are made of names that have an end tag. -/
def Transform.Plain : Transform → Prop
  | .wrap name => isElementName name = true ∧ isVoidName name = false
  | .breakThen next => next.Plain
  | _ => True

lemma Transform.plain_of_mem_actions {settings : Settings} {a : Action}
    (h : a ∈ Standard.actions settings) : a.transform.Plain := by
  simp only [Standard.mem_actions, Standard.headings, Standard.alignments, Standard.styles,
    Standard.boxes, Standard.plainEdits, List.mem_cons, List.not_mem_nil, or_false] at h
  rcases h with h | h | h | h | rfl | rfl | h
  · rcases h with rfl | rfl | rfl | rfl <;> exact ⟨rfl, rfl⟩
  · rcases h with rfl | rfl | rfl | rfl <;> trivial
  · rcases h with rfl | rfl | rfl | rfl <;> exact ⟨rfl, rfl⟩
  · rcases h with rfl | rfl | rfl | rfl | rfl | rfl <;> trivial
  · trivial
  · trivial
  · rcases h with rfl | rfl | rfl | rfl <;> trivial

/-- Opening tags of a transform are spelled as a name and attributes with quoted values. -/
def Transform.Spelled (t : Transform) : Prop :=
  ∀ o c, t = .enclose o c → isElementName c = true ∧ ∃ attributes : List (Text × Text),
    (∀ a ∈ attributes, StartTag.IsAttributeName a.1 ∧ '"' ∉ a.2) ∧ o = opening c attributes

lemma spelled_enclose {o c : Text} (attributes : List (Text × Text)) (hc : isElementName c = true)
    (ho : o = opening c attributes)
    (h : ∀ a ∈ attributes, (a.1 ≠ [] ∧ a.1.all StartTag.isAttributeChar = true) ∧ '"' ∉ a.2) :
    (Transform.enclose o c).Spelled := by
  rintro _ _ ⟨⟩
  exact ⟨hc, attributes, fun a ha => ⟨.inr (h a ha).1, (h a ha).2⟩, ho⟩

lemma spelled_of_mem_actions {settings : Settings} (hlink : '"' ∉ settings.linkTarget)
    (himage : '"' ∉ settings.imageSource) {a : Action} (ha : a ∈ Standard.actions settings) :
    a.transform.Spelled := by
  simp only [Standard.mem_actions, Standard.headings, Standard.alignments, Standard.styles,
    Standard.boxes, Standard.plainEdits, List.mem_cons, List.not_mem_nil, or_false] at ha
  rcases ha with ha | ha | ha | ha | rfl | rfl | ha
  · rcases ha with rfl | rfl | rfl | rfl <;> rintro _ _ ⟨⟩
  · rcases ha with rfl | rfl | rfl | rfl
    · exact spelled_enclose [("class".toList, "text-left".toList)] rfl
        (by simp [opening]) (by decide)
    · exact spelled_enclose [("class".toList, "text-center".toList)] rfl
        (by simp [opening]) (by decide)
    · exact spelled_enclose [("class".toList, "text-right".toList)] rfl
        (by simp [opening]) (by decide)
    · exact spelled_enclose [("class".toList, "text-justify".toList)] rfl
        (by simp [opening]) (by decide)
  · rcases ha with rfl | rfl | rfl | rfl <;> rintro _ _ ⟨⟩
  · rcases ha with rfl | rfl | rfl | rfl | rfl | rfl
    · rintro _ _ ⟨⟩
    · exact spelled_enclose [("class".toList, "well".toList),
        ("style".toList, "color: white;".toList)] rfl (by simp [opening]) (by decide)
    · exact spelled_enclose [("class".toList, "alert alert-success".toList),
        ("role".toList, "alert".toList)] rfl (by simp [opening]) (by decide)
    · exact spelled_enclose [("class".toList, "alert alert-info".toList),
        ("role".toList, "alert".toList)] rfl (by simp [opening]) (by decide)
    · exact spelled_enclose [("class".toList, "alert alert-warning".toList),
        ("role".toList, "alert".toList)] rfl (by simp [opening]) (by decide)
    · exact spelled_enclose [("class".toList, "alert alert-danger".toList),
        ("role".toList, "alert".toList)] rfl (by simp [opening]) (by decide)
  · refine spelled_enclose [("target".toList, "_blank".toList),
      ("href".toList, settings.linkTarget)] rfl (by simp [opening]) ?_
    simp only [List.mem_cons, List.not_mem_nil, or_false, forall_eq_or_imp, forall_eq]
    exact ⟨by decide, by decide, hlink⟩
  · refine spelled_enclose [("src".toList, settings.imageSource),
      ("class".toList, "img-responsive".toList)] rfl (by simp [opening]) ?_
    simp only [List.mem_cons, List.not_mem_nil, or_false, forall_eq_or_imp, forall_eq]
    exact ⟨⟨by decide, himage⟩, by decide⟩
  · rcases ha with rfl | rfl | rfl | rfl <;> rintro _ _ ⟨⟩

/-! ### Putting the text back -/

lemma plainText_around (tag : Tag) (s : Text) : plainText (tag.around s) = s := by
  rw [Tag.around]
  split <;> simp

/-- A transform that puts the selected text back between tags. -/
inductive Transform.Surrounds : Transform → Prop
  | wrap {name : Text} (hname : isElementName name = true) (hvoid : isVoidName name = false) :
    Surrounds (.wrap name)
  | enclose {name : Text} {attributes : List (Text × Text)} (hname : isElementName name = true)
    (h : ∀ a ∈ attributes, StartTag.IsAttributeName a.1 ∧ '"' ∉ a.2) :
    Surrounds (.enclose (opening name attributes) name)

lemma Transform.Surrounds.needsText {t : Transform} (h : t.Surrounds) : t.needsText = true := by
  cases h <;> rfl

/-- A transform puts any text back inside one tag, escaped. -/
def Transform.Puts (t : Transform) (tag : Tag) : Prop :=
  ∃ put : Text → Insertion, ∀ s, t.edits (escapeText s) = [.replace (put s)] ∧ (put s).Plain ∧
    (put s).pasted = normalize (tag.around s)

lemma Transform.puts_wrap {name : Text} (hname : isElementName name = true)
    (hvoid : isVoidName name = false) : (Transform.wrap name).Puts ⟨Ascii.lower name, []⟩ := by
  refine ⟨fun s => .element name (escapeText s), fun s => ?_⟩
  have hlt := lt_notMem_escapeText s
  have hread : Reads Event.Break (enclosed name name (escapeText s)) _ :=
    reads_element hname hvoid hlt
  refine ⟨rfl, ⟨hname, hvoid, hlt⟩, ?_⟩
  rw [Insertion.pasted, Insertion.markup, hread.parse_eq Event.break_nil, decode_escapeText,
    Tag.around, isVoid_plainTag, hvoid]
  · rfl
  · rintro _ ⟨⟩

lemma Transform.puts_enclose {name : Text} {attributes : List (Text × Text)}
    (hname : isElementName name = true)
    (h : ∀ a ∈ attributes, StartTag.IsAttributeName a.1 ∧ '"' ∉ a.2) :
    (Transform.enclose (opening name attributes) name).Puts (openingTag name attributes) := by
  refine ⟨fun s => .tagged (opening name attributes) name (escapeText s),
    fun s => ⟨rfl, trivial, ?_⟩⟩
  have hread : Reads Event.Break (enclosed (opening name attributes) name (escapeText s)) _ :=
    reads_around hname h (lt_notMem_escapeText s)
  rw [Insertion.pasted, Insertion.markup, hread.parse_eq Event.break_nil, decode_escapeText]
  rintro _ ⟨⟩

/-- **The same tag stands around any text** that such a transform puts back, escaped. -/
theorem Transform.Surrounds.edits {t : Transform} (h : t.Surrounds) :
    ∃ (tag : Tag) (put : Text → Insertion), ∀ s, t.edits (escapeText s) = [.replace (put s)] ∧
      (put s).Plain ∧ (put s).pasted = normalize (tag.around s) := by
  cases h with
  | wrap hname hvoid => exact ⟨_, Transform.puts_wrap hname hvoid⟩
  | enclose hname h => exact ⟨_, Transform.puts_enclose hname h⟩

/-! ### Kinds of standard actions -/

/-- A standard transform: it puts the text back between tags, perhaps behind a line break, or puts
no text in. -/
inductive Transform.Regular : Transform → Prop
  | surrounds {t : Transform} (h : t.Surrounds) : Regular t
  | breakThen {next : Transform} (h : next.Surrounds) : Regular (.breakThen next)
  | lineBreak : Regular .lineBreak
  | delete : Regular .delete
  | unformat : Regular .unformat

/-- Only a quote goes on behind a break; breaking the line and deleting have one action each. -/
lemma transform_of_mem_actions {settings : Settings} {a : Action}
    (h : a ∈ Standard.actions settings) :
    (∀ next, a.transform = .breakThen next →
      next = .enclose "blockquote".toList "blockquote".toList) ∧
      (a.transform = .lineBreak → a.name = "makeNewLine") ∧
      (a.transform = .delete → a.name = "deleteText") := by
  simp only [Standard.mem_actions, Standard.headings, Standard.alignments, Standard.styles,
    Standard.boxes, Standard.plainEdits, List.mem_cons, List.not_mem_nil, or_false] at h
  rcases h with h | h | h | h | rfl | rfl | h
  · rcases h with rfl | rfl | rfl | rfl <;> exact ⟨nofun, nofun, nofun⟩
  · rcases h with rfl | rfl | rfl | rfl <;> exact ⟨nofun, nofun, nofun⟩
  · rcases h with rfl | rfl | rfl | rfl <;> exact ⟨nofun, nofun, nofun⟩
  · rcases h with rfl | rfl | rfl | rfl | rfl | rfl
    · exact ⟨fun next hnext => (Transform.breakThen.inj hnext).symm, nofun, nofun⟩
    all_goals exact ⟨nofun, nofun, nofun⟩
  · exact ⟨nofun, nofun, nofun⟩
  · exact ⟨nofun, nofun, nofun⟩
  · rcases h with rfl | rfl | rfl | rfl
    · exact ⟨nofun, fun _ => rfl, nofun⟩
    · exact ⟨nofun, nofun, fun _ => rfl⟩
    all_goals exact ⟨nofun, nofun, nofun⟩

theorem regular_of_mem_actions {settings : Settings} (hlink : '"' ∉ settings.linkTarget)
    (himage : '"' ∉ settings.imageSource) {a : Action} (h : a ∈ Standard.actions settings) :
    a.transform.Regular := by
  cases ht : a.transform with
  | wrap name =>
    have hplain := Transform.plain_of_mem_actions h
    rw [ht] at hplain
    exact .surrounds (.wrap hplain.1 hplain.2)
  | enclose o c =>
    obtain ⟨hc, attributes, hattrs, rfl⟩ := spelled_of_mem_actions hlink himage h o c ht
    exact .surrounds (.enclose hc hattrs)
  | breakThen next =>
    obtain rfl := (transform_of_mem_actions h).1 next ht
    exact .breakThen (@Transform.Surrounds.enclose "blockquote".toList [] rfl nofun)
  | lineBreak => exact .lineBreak
  | delete => exact .delete
  | unformat => exact .unformat

end RichText
