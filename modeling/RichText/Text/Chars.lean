import RichText.Text.Ascii

/-!
Reading and changing a text at character offsets. An offset past the end stands for the end, and a
range whose end comes before its start is empty, so every change can be made; only reading is
refused outside the text.
-/

namespace RichText.Chars

/-- The number of bytes of a text in UTF-8. -/
def byteCount (s : Text) : Nat := s.foldl (fun n c => n + c.utf8Size) 0

def insert (s : Text) (offset : Nat) (u : Text) : Text := s.take offset ++ u ++ s.drop offset

/-- The start gives way: a reversed range is empty at its end. -/
def delete (s : Text) (start stop : Nat) : Text := s.take (min start stop) ++ s.drop stop

/-- Deletes the range, then inserts at its start in what is left. -/
def replace (s : Text) (start stop : Nat) (u : Text) : Text :=
  insert (delete s start stop) start u

/-- A text anew, whatever was there. -/
def setContent (_ : Text) (u : Text) : Text := u

def slice? (s : Text) (start stop : Nat) : Option Text :=
  if start ≤ stop ∧ stop ≤ s.length then some ((s.take stop).drop start) else none

def at? (s : Text) (offset : Nat) : Option Char := s[offset]?

theorem slice?_append (a b c : Text) :
    slice? (a ++ b ++ c) a.length (a.length + b.length) = some b := by
  have hlen : a.length + b.length ≤ (a ++ b ++ c).length := by simp
  rw [slice?, if_pos ⟨Nat.le_add_right _ _, hlen⟩, List.append_assoc, List.take_length_add_append,
    List.take_left, List.drop_left]

theorem replace_append (a b c u : Text) :
    replace (a ++ b ++ c) a.length (a.length + b.length) u = a ++ u ++ c := by
  have htake : (a ++ b ++ c).take a.length = a := by rw [List.append_assoc, List.take_left]
  have hdrop : (a ++ b ++ c).drop (a.length + b.length) = c := by
    rw [List.append_assoc, List.drop_length_add_append, List.drop_left]
  rw [replace, delete, insert, Nat.min_eq_left (Nat.le_add_right _ _), htake, hdrop, List.take_left,
    List.drop_left]

end RichText.Chars
