import RichText.Document.Node

/-!
Normal documents: no text is empty and no text follows another, at any depth. Normalizing joins
neighbouring texts and drops empty ones, also an empty one between two others.
-/

namespace RichText

def Node.isText : Node → Bool
  | .text _ => true
  | _ => false

mutual

def Node.IsNormal : Node → Prop
  | .text s => s ≠ []
  | .comment _ => True
  | .element _ inside => IsNormal inside

def IsNormal : List Node → Prop
  | [] => True
  | n :: ns => n.IsNormal ∧ ¬(n.isText = true ∧ ns.head?.any Node.isText = true) ∧ IsNormal ns

end

/-- Puts a text before nodes, joined to their first if that is a text. -/
def consText (s : Text) : List Node → List Node
  | .text t :: ns => .text (s ++ t) :: ns
  | ns => if s.isEmpty then ns else .text s :: ns

mutual

def Node.normalize : Node → Node
  | .element tag inside => .element tag (normalize inside)
  | n => n

def normalize : List Node → List Node
  | [] => []
  | .text s :: ns => consText s (normalize ns)
  | n :: ns => n.normalize :: normalize ns

end

@[simp] theorem Node.isText_text (s : Text) : (Node.text s).isText = true := rfl
@[simp] theorem Node.isText_comment (s : Text) : (Node.comment s).isText = false := rfl
@[simp] theorem Node.isText_element (tag : Tag) (inside : List Node) :
    (Node.element tag inside).isText = false := rfl

@[simp] theorem isNormal_nil : IsNormal [] := trivial

@[simp] theorem normalize_nil : normalize [] = [] := rfl
@[simp] theorem normalize_text (s : Text) (ns : List Node) :
    normalize (.text s :: ns) = consText s (normalize ns) := rfl
@[simp] theorem normalize_comment (s : Text) (ns : List Node) :
    normalize (.comment s :: ns) = .comment s :: normalize ns := rfl
@[simp] theorem normalize_element (tag : Tag) (inside ns : List Node) :
    normalize (.element tag inside :: ns) = .element tag (normalize inside) :: normalize ns := rfl

/-- A text put before nodes vanishes if it is empty, joins their first if that is a text, and stands
before them otherwise. -/
theorem consText_cases (s : Text) (ns : List Node) :
    (s = [] ∧ consText s ns = ns) ∨
      (∃ t ms, ns = .text t :: ms ∧ consText s ns = .text (s ++ t) :: ms) ∨
      (s ≠ [] ∧ ns.head?.any Node.isText = false ∧ consText s ns = .text s :: ns) := by
  match ns with
  | .text t :: ms => exact .inr (.inl ⟨t, ms, rfl, rfl⟩)
  | [] | .comment _ :: _ | .element _ _ :: _ =>
    by_cases hs : s = []
    · exact .inl ⟨hs, by simp [consText, hs]⟩
    · exact .inr (.inr ⟨hs, rfl, by simp [consText, hs]⟩)

@[simp] theorem plainText_consText (s : Text) (ns : List Node) :
    plainText (consText s ns) = s ++ plainText ns := by
  rcases consText_cases s ns with ⟨rfl, h⟩ | ⟨t, ms, rfl, h⟩ | ⟨-, -, h⟩
  · rw [h, List.nil_append]
  · simp [h]
  · rw [h, plainText_text]

end RichText
