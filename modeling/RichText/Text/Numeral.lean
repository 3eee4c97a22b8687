import RichText.Text.Ascii

/-!
Numerals: rows of digits of a base up to sixteen, read into natural numbers without a bound.
-/

namespace RichText.Numeral

/-- The value of a digit; the letters of base sixteen count in either case. -/
def digit? (c : Char) : Option Nat :=
  if c.isDigit then some (c.toNat - 48)
  else if 'a' ≤ c ∧ c ≤ 'f' then some (c.toNat - 87)
  else if 'A' ≤ c ∧ c ≤ 'F' then some (c.toNat - 55)
  else none

/-- The number so far, followed by one more digit of the base. -/
def push? (base n : Nat) (c : Char) : Option Nat :=
  match digit? c with
  | some d => if d < base then some (base * n + d) else none
  | none => none

/-- A row of digits read after the number `n`. -/
def readFrom? (base n : Nat) : Text → Option Nat
  | [] => some n
  | c :: s => (push? base n c).bind fun m => readFrom? base m s

/-- A numeral has at least one digit, and nothing but digits of its base. -/
def read? (base : Nat) : Text → Option Nat
  | [] => none
  | c :: s => readFrom? base 0 (c :: s)

@[simp] theorem read?_nil (base : Nat) : read? base [] = none := rfl

end RichText.Numeral
