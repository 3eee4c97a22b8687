import RichText.Kdl.Value
import RichText.Text.Numeral

/-!
The numbers of a KDL document. One in base ten may have a fraction and an exponent; one in another
base begins with a mark of it. Underscores may stand between and after digits.
-/

namespace RichText.Kdl

/-- The digits and underscores that a text begins with, a digit first, and what follows them. -/
def readRow? (base : Nat) : Text → Option (Text × Text)
  | [] => none
  | c :: s =>
    let belongs (c : Char) := (Numeral.digit? c).any (· < base)
    if belongs c then
      some (c :: s.takeWhile fun c => belongs c || c == '_',
        s.dropWhile fun c => belongs c || c == '_')
    else none

/-- A sign, if there is one, and what follows it. -/
def splitSign : Text → Text × Text
  | '-' :: s => (['-'], s)
  | '+' :: s => (['+'], s)
  | s => ([], s)

/-! ### Integers -/

/-- Digits of a number less than `2 ^ 63`. -/
def readDigits? (base : Nat) (s : Text) : Option (Nat × Text) :=
  (readRow? base s).bind fun p =>
    ((Numeral.read? base (p.1.filter (· != '_'))).filter (· < Nat.pow 2 63)).map fun n => (n, p.2)

/-- An integer has its sign before the mark of its base. The bound on its digits does not count the
sign. -/
def readInteger? (base : Nat) (mark s : Text) : Option (Int × Text) :=
  let (sign, rest) := splitSign s
  if mark.isPrefixOf rest then
    (readDigits? base (rest.drop mark.length)).map fun p =>
      (if sign = ['-'] then -p.1 else p.1, p.2)
  else none

/-- The bases with their marks; the base without a mark stands last. -/
def bases : List (Nat × String) := [(16, "0x"), (8, "0o"), (2, "0b"), (10, "")]

/-! ### Fractions and exponents -/

def readFraction? : Text → Option (Text × Text)
  | '.' :: s => (readRow? 10 s).map fun p => ('.' :: p.1, p.2)
  | _ => none

def readExponent? : Text → Option (Text × Text)
  | [] => none
  | c :: s =>
    if c = 'e' ∨ c = 'E' then
      let (sign, rest) := splitSign s
      (readRow? 10 rest).map fun p => (c :: sign ++ p.1, p.2)
    else none

/-- What stands behind the digits of a number that is no integer: a fraction, an exponent or both. -/
def readTail? (s : Text) : Option (Text × Text) :=
  match readFraction? s with
  | some fraction =>
    let exponent := (readExponent? fraction.2).getD ([], fraction.2)
    some (fraction.1 ++ exponent.1, exponent.2)
  | none => readExponent? s

def readFloat? (s : Text) : Option (Text × Text) :=
  let (sign, rest) := splitSign s
  (readRow? 10 rest).bind fun whole =>
    (readTail? whole.2).map fun tail => (sign ++ whole.1 ++ tail.1, tail.2)

def readNumber? (s : Text) : Option (Value × Text) :=
  ((readFloat? s).map fun p => (.float p.1, p.2)).or <|
    (bases.findSome? fun base => readInteger? base.1 base.2.toList s).map fun p =>
      (.integer p.1, p.2)

example : readNumber? "-1_0.5e+3;".toList = some (.float "-1_0.5e+3".toList, [';']) := by
  decide +kernel

example : readNumber? "0xfF 1".toList = some (.integer 255, " 1".toList) := by decide +kernel

/-! ### Every number has a digit -/

theorem readRow?_length {base : Nat} {s : Text} {p : Text × Text} (h : readRow? base s = some p) :
    p.2.length < s.length := by
  unfold readRow? at h
  split at h
  · cases h
  · next c s =>
    dsimp only at h
    split at h
    · cases h
      exact Nat.lt_succ_of_le (length_dropWhile_le _ s)
    · cases h

theorem splitSign_length (s : Text) : (splitSign s).2.length ≤ s.length := by
  unfold splitSign
  split
  · exact Nat.le_succ _
  · exact Nat.le_succ _
  · exact Nat.le_refl _

theorem readInteger?_length {base : Nat} {mark s : Text} {p : Int × Text}
    (h : readInteger? base mark s = some p) : p.2.length < s.length := by
  have hsign := splitSign_length s
  unfold readInteger? at h
  dsimp only at h
  split at h
  · obtain ⟨q, hq, rfl⟩ := Option.map_eq_some_iff.1 h
    obtain ⟨row, hrow, hr⟩ := Option.bind_eq_some_iff.1 hq
    obtain ⟨n, -, rfl⟩ := Option.map_eq_some_iff.1 hr
    have hlt := readRow?_length hrow
    rw [List.length_drop] at hlt
    show row.2.length < s.length
    omega
  · cases h

theorem readFraction?_length {s : Text} {p : Text × Text} (h : readFraction? s = some p) :
    p.2.length < s.length := by
  unfold readFraction? at h
  split at h
  · obtain ⟨q, hq, rfl⟩ := Option.map_eq_some_iff.1 h
    have hrow := readRow?_length hq
    exact Nat.lt_succ_of_lt hrow
  · cases h

theorem readExponent?_length {s : Text} {p : Text × Text} (h : readExponent? s = some p) :
    p.2.length < s.length := by
  unfold readExponent? at h
  split at h
  · cases h
  · next c s =>
    dsimp only at h
    split at h
    · obtain ⟨q, hq, rfl⟩ := Option.map_eq_some_iff.1 h
      have hrow := readRow?_length hq
      exact Nat.lt_succ_of_lt (Nat.lt_of_lt_of_le hrow (splitSign_length s))
    · cases h

theorem readTail?_length {s : Text} {p : Text × Text} (h : readTail? s = some p) :
    p.2.length < s.length := by
  unfold readTail? at h
  split at h
  · next fraction hfraction =>
    cases h
    have hlt := readFraction?_length hfraction
    show ((readExponent? fraction.2).getD ([], fraction.2)).2.length < s.length
    cases hexponent : readExponent? fraction.2 with
    | none => exact hlt
    | some exponent => exact Nat.lt_trans (readExponent?_length hexponent) hlt
  · exact readExponent?_length h

theorem readFloat?_length {s : Text} {p : Text × Text} (h : readFloat? s = some p) :
    p.2.length < s.length := by
  obtain ⟨whole, hwhole, hp⟩ := Option.bind_eq_some_iff.1 h
  obtain ⟨tail, htail, rfl⟩ := Option.map_eq_some_iff.1 hp
  have hrow := readRow?_length hwhole
  have hlt := readTail?_length htail
  exact Nat.lt_of_lt_of_le (Nat.lt_trans hlt hrow) (splitSign_length s)

theorem readNumber?_length {s : Text} {p : Value × Text} (h : readNumber? s = some p) :
    p.2.length < s.length := by
  rcases Option.or_eq_some_iff.1 h with h | ⟨-, h⟩
  · obtain ⟨q, hq, rfl⟩ := Option.map_eq_some_iff.1 h
    exact readFloat?_length hq
  · obtain ⟨q, hq, rfl⟩ := Option.map_eq_some_iff.1 h
    obtain ⟨base, -, hbase⟩ := List.exists_of_findSome?_eq_some hq
    exact readInteger?_length hbase

end RichText.Kdl
