import RichText.Selection
import RichText.Text.Numeral
import RichText.Text.Space

/-!
Selections as they are written on a command line: `START..END`, or one offset for a caret.
-/

namespace RichText

/-- Offsets have 64 bits. -/
def offsetLimit : Nat := Nat.pow 2 64

/-- An offset may have space around it and a plus sign before it. -/
def readOffset? (s : Text) : Option Nat :=
  let digits :=
    match Space.trim s with
    | '+' :: r => r
    | r => r
  (Numeral.read? 10 digits).filter (· < offsetLimit)

/-- What stands before and after the first `..`. -/
def splitDots? : Text → Option (Text × Text)
  | [] => none
  | '.' :: '.' :: s => some ([], s)
  | c :: s => (splitDots? s).map fun p => (c :: p.1, p.2)

namespace Selection

/-- Reads a selection, or returns the part that is no offset. -/
def read (s : Text) : Except Text Selection :=
  match splitDots? s with
  | some (left, right) =>
    match readOffset? left with
    | none => .error left
    | some anchor =>
      match readOffset? right with
      | none => .error right
      | some focus => .ok ⟨anchor, focus⟩
  | none =>
    match readOffset? s with
    | none => .error s
    | some offset => .ok (caret offset)

/-- What is said of a part that is no offset. -/
def readMessage (part : Text) : String := "`" ++ String.ofList part ++ "` is not a char offset"

end Selection

end RichText
