import RichText.Text.Ascii

/-!
What stands between the words of a KDL document: blanks, line ends and marks. A comment counts as a
blank, or as the end of its line.
-/

namespace RichText.Kdl

inductive Token where
  | blank
  | newline
  | semicolon
  | opening
  | closing
  /-- Leaves out what follows it: a node, an entry or a block. -/
  | slashdash
  /-- Makes the end of its line a blank. -/
  | backslash
  deriving DecidableEq, Repr

def isNewline (c : Char) : Bool :=
  c == '\n' || c == '\r' || c == '\x0c' || c == '\u0085' || c == '\u2028' || c == '\u2029'

/-- The spaces of Unicode that do not end a line, and the byte order mark. -/
def isBlank (c : Char) : Bool :=
  let n := c.toNat
  n == 9 || n == 0x20 || n == 0xa0 || n == 0x1680 || (0x2000 ≤ n && n ≤ 0x200a) ||
    n == 0x202f || n == 0x205f || n == 0x3000 || n == 0xfeff

namespace Token

/-- What follows the end of the line. -/
def afterLine : Text → Text
  | [] => []
  | '\r' :: '\n' :: s => s
  | c :: s => if isNewline c then s else afterLine s

/-- What follows a comment that is `depth` comments deep inside another one. -/
def afterComment? : Nat → Text → Option Text
  | _, [] => none
  | 0, '*' :: '/' :: s => some s
  | depth + 1, '*' :: '/' :: s => afterComment? depth s
  | depth, '/' :: '*' :: s => afterComment? (depth + 1) s
  | depth, _ :: s => afterComment? depth s

/-- Reads the token that begins with `c`. -/
def read? (c : Char) (s : Text) : Option (Token × Text) :=
  match c, s with
  | ';', s => some (semicolon, s)
  | '{', s => some (opening, s)
  | '}', s => some (closing, s)
  | '\\', s => some (backslash, s)
  | '/', '-' :: r => some (slashdash, r)
  | '/', '/' :: r => some (newline, afterLine r)
  | '/', '*' :: r => (afterComment? 0 r).map fun r => (blank, r)
  | '\r', '\n' :: r => some (newline, r)
  | c, s =>
    if isNewline c then some (newline, s)
    else if isBlank c then some (blank, s)
    else none

theorem afterLine_length (s : Text) : (afterLine s).length ≤ s.length := by
  fun_induction afterLine s with
  | case1 => simp
  | case2 s => simp only [List.length_cons]; omega
  | case3 c s _ _ => simp
  | case4 c s _ _ ih => simp only [List.length_cons]; omega

theorem afterComment?_length {d : Nat} {s r : Text} (h : afterComment? d s = some r) :
    r.length ≤ s.length := by
  fun_induction afterComment? d s with
  | case1 => cases h
  | case2 s => cases h; simp only [List.length_cons]; omega
  | case3 s d ih => have := ih h; simp only [List.length_cons]; omega
  | case4 d s ih => have := ih h; simp only [List.length_cons]; omega
  | case5 d c s _ _ _ ih => have := ih h; simp only [List.length_cons]; omega

theorem read?_length {c : Char} {s : Text} {p : Token × Text} (h : read? c s = some p) :
    p.2.length ≤ s.length := by
  unfold read? at h
  split at h
  · cases h; exact Nat.le_refl _
  · cases h; exact Nat.le_refl _
  · cases h; exact Nat.le_refl _
  · cases h; exact Nat.le_refl _
  · cases h; simp
  · next r => cases h; have := afterLine_length r; simp only [List.length_cons]; omega
  · next r =>
    obtain ⟨t, ht, rfl⟩ := Option.map_eq_some_iff.1 h
    have := afterComment?_length ht
    simp only [List.length_cons]; omega
  · cases h; simp
  · split at h
    · cases h; exact Nat.le_refl _
    · split at h
      · cases h; exact Nat.le_refl _
      · cases h

end Token

end RichText.Kdl
