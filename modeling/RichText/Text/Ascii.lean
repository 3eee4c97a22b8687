/-!
Text as a list of characters, and the character classes of markup. All of them are ASCII: a
letter outside ASCII has no case here and starts no name.
-/

namespace RichText

abbrev Text := List Char

theorem length_dropWhile_le (p : Char → Bool) (s : Text) : (s.dropWhile p).length ≤ s.length :=
  (List.dropWhile_sublist p).length_le

section

variable {p : Char → Bool} {s t : Text}

/-- A run of characters ends where what follows stops it. -/
theorem takeWhile_append_of_head (hs : ∀ c ∈ s, p c = true) (ht : ∀ c ∈ t.head?, p c = false) :
    (s ++ t).takeWhile p = s := by
  rw [List.takeWhile_append_of_pos hs]
  cases t with
  | nil => exact List.append_nil s
  | cons c t => rw [List.takeWhile_cons_of_neg (by simp [ht c rfl]), List.append_nil]

theorem dropWhile_append_of_head (hs : ∀ c ∈ s, p c = true) (ht : ∀ c ∈ t.head?, p c = false) :
    (s ++ t).dropWhile p = t := by
  rw [List.dropWhile_append_of_pos hs]
  cases t with
  | nil => rfl
  | cons c t => rw [List.dropWhile_cons_of_neg (by simp [ht c rfl])]

end

namespace Ascii

/-- Space, tab, line feed, form feed and carriage return. -/
def isBlank (c : Char) : Bool :=
  c == ' ' || c == '\t' || c == '\n' || c == '\x0c' || c == '\r'

def lower (s : Text) : Text := s.map Char.toLower

/-- Equal up to the case of ASCII letters. -/
def sameLetters (s t : Text) : Bool := lower s == lower t

@[simp] theorem lower_nil : lower [] = [] := rfl
@[simp] theorem lower_cons (c : Char) (s : Text) : lower (c :: s) = c.toLower :: lower s := rfl
@[simp] theorem lower_append (s t : Text) : lower (s ++ t) = lower s ++ lower t := by
  simp [lower]
@[simp] theorem length_lower (s : Text) : (lower s).length = s.length := by simp [lower]

end Ascii

end RichText
