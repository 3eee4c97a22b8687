import RichText.Markup.StartTag

/-!
Well-formed documents are those whose markup says all that is in them: names and comments are such
as reading markup gives, and nothing is inside a void element. Texts and attribute values may hold
any characters.
-/

namespace RichText

/-- A letter, then anything but blanks, `/` and `>`, in lower case. -/
def IsReadName (s : Text) : Prop :=
  (∃ c r, s = c :: r ∧ c.isAlpha = true) ∧ s.all StartTag.isNameChar = true ∧ Ascii.lower s = s

/-- A lone `=`, or anything but blanks, `/`, `>` and `=`, in lower case. -/
def IsReadAttributeName (s : Text) : Prop :=
  (s = ['='] ∨ s ≠ [] ∧ s.all StartTag.isAttributeChar = true) ∧ Ascii.lower s = s

instance (s : Text) : Decidable (IsReadAttributeName s) :=
  inferInstanceAs (Decidable (_ ∧ _))

structure Tag.WellFormed (t : Tag) : Prop where
  name : IsReadName t.name
  attributes : ∀ a ∈ t.attributes, IsReadAttributeName a.name
  distinct : (t.attributes.map Attribute.name).Nodup

mutual

def Node.WellFormed : Node → Prop
  | .text _ => True
  | .comment s => ¬"-->".toList <:+: s
  | .element tag inside =>
    tag.WellFormed ∧ (tag.isVoid = true → inside = []) ∧ WellFormed inside

def WellFormed : List Node → Prop
  | [] => True
  | n :: ns => n.WellFormed ∧ WellFormed ns

end

@[simp] theorem wellFormed_nil : WellFormed [] := trivial
@[simp] theorem wellFormed_cons (n : Node) (ns : List Node) :
    WellFormed (n :: ns) ↔ n.WellFormed ∧ WellFormed ns := Iff.rfl

theorem wellFormed_append {ms ns : List Node} :
    WellFormed (ms ++ ns) ↔ WellFormed ms ∧ WellFormed ns := by
  induction ms with
  | nil => simp
  | cons m ms ih => simp [ih, and_assoc]

end RichText
