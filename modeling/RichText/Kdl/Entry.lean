import RichText.Kdl.Number
import RichText.Kdl.Token
import RichText.Text.Numeric

/-!
The words of a KDL document: strings, names, values and entries. Where a value may stand, its first
characters say what it is and where it ends; what follows it has to be read on its own.
-/

namespace RichText.Kdl

/-! ### Strings -/

def escape? : Char → Option Char
  | '"' => some '"'
  | '\\' => some '\\'
  | '/' => some '/'
  | 'b' => some '\x08'
  | 'f' => some '\x0c'
  | 'n' => some '\n'
  | 'r' => some '\r'
  | 't' => some '\t'
  | _ => none

/-- A code point has one to six digits of base sixteen. -/
def codePoint? (digits : Text) : Option Char :=
  if digits.length ≤ 6 then
    (Numeral.read? 16 digits).bind fun n => if n.isValidChar then some (Char.ofNat n) else none
  else none

/-- Where in a string a reader is. -/
inductive Inside where
  | plain
  | escape
  | brace
  /-- Among the digits of a code point, the latest first. -/
  | digits (read : Text)

/-- The rest of a string, and what follows its closing quote. -/
def readString? : Inside → Text → Option (Text × Text)
  | _, [] => none
  | .plain, c :: s =>
    if c = '"' then some ([], s)
    else if c = '\\' then readString? .escape s
    else (readString? .plain s).map fun p => (c :: p.1, p.2)
  | .escape, c :: s =>
    if c = 'u' then readString? .brace s
    else (escape? c).bind fun d => (readString? .plain s).map fun p => (d :: p.1, p.2)
  | .brace, c :: s => if c = '{' then readString? (.digits []) s else none
  | .digits read, c :: s =>
    if c = '}' then
      (codePoint? read.reverse).bind fun d => (readString? .plain s).map fun p => (d :: p.1, p.2)
    else readString? (.digits (c :: read)) s

/-- The rest of a raw string, which a quote and the given marks end. -/
def readRaw? (marks : Text) : Text → Option (Text × Text)
  | [] => none
  | c :: s =>
    if c = '"' ∧ marks.isPrefixOf s then some ([], s.drop marks.length)
    else (readRaw? marks s).map fun p => (c :: p.1, p.2)

/-- The number signs that open a raw string and its content, given what follows the `r`. -/
def rawStart? (s : Text) : Option (Text × Text) :=
  match s.dropWhile (· == '#') with
  | '"' :: r => some (s.takeWhile (· == '#'), r)
  | _ => none

/-- Reads a string in quotes or a raw one. -/
def readQuoted? : Text → Option (Text × Text)
  | '"' :: s => readString? .plain s
  | 'r' :: s => (rawStart? s).bind fun p => readRaw? p.1 p.2
  | _ => none

/-! ### Names -/

def readConstant? : Text → Option (Value × Text)
  | 't' :: 'r' :: 'u' :: 'e' :: s => some (.boolean true, s)
  | 'f' :: 'a' :: 'l' :: 's' :: 'e' :: s => some (.boolean false, s)
  | 'n' :: 'u' :: 'l' :: 'l' :: s => some (.null, s)
  | _ => none

def isNameChar (c : Char) : Bool :=
  32 ≤ c.toNat && !(isNewline c || isBlank c || "\\/()\x7b\x7d<>;[]=,\"".toList.contains c)

/-- Whether a word is one of the constants. -/
def isConstant (word : Text) : Bool := (readConstant? word).any fun p => p.2.isEmpty

/-- Reads a name without quotes. It begins with no numeric character and is no constant. -/
def readBare? : Text → Option (Text × Text)
  | [] => none
  | c :: s =>
    let word := c :: s.takeWhile isNameChar
    if isNameChar c && !Numeric.isNumeric c && !isConstant word then
      some (word, s.dropWhile isNameChar)
    else none

def readName? (s : Text) : Option (Text × Text) := (readQuoted? s).or (readBare? s)

/-! ### Values and entries -/

/-- What follows a type, if there is one: a name in round brackets, which is left out. -/
def afterType? : Text → Option Text
  | '(' :: s =>
    match readName? s with
    | some (_, ')' :: r) => some r
    | _ => none
  | s => some s

/-- The name of a node may have a type before it. -/
def readNodeName? (s : Text) : Option (Text × Text) := (afterType? s).bind readName?

def Value.readPlain? (s : Text) : Option (Value × Text) :=
  (readConstant? s).or <| ((readQuoted? s).map fun p => (.string p.1, p.2)).or (readNumber? s)

def Value.read? (s : Text) : Option (Value × Text) := (afterType? s).bind readPlain?

/-- Reads an entry. A name with `=` after it is a key, and its value follows directly. -/
def Entry.read? (s : Text) : Option (Entry × Text) :=
  match readName? s with
  | some (key, '=' :: r) => (Value.read? r).map fun p => (⟨some (String.ofList key), p.1⟩, p.2)
  | _ => (Value.read? s).map fun p => (⟨none, p.1⟩, p.2)

/-! ### Every word has a character -/

theorem readString?_length {i : Inside} {s : Text} {p : Text × Text}
    (h : readString? i s = some p) : p.2.length ≤ s.length := by
  fun_induction readString? i s generalizing p with
  | case1 => cases h
  | case2 s => cases h; simp
  | case3 s _ ih => have := ih h; simp only [List.length_cons]; omega
  | case4 c s _ _ ih =>
    obtain ⟨q, hq, rfl⟩ := Option.map_eq_some_iff.1 h
    have := ih hq
    simp only [List.length_cons]; omega
  | case5 s ih => have := ih h; simp only [List.length_cons]; omega
  | case6 c s _ ih =>
    obtain ⟨d, -, hd⟩ := Option.bind_eq_some_iff.1 h
    obtain ⟨q, hq, rfl⟩ := Option.map_eq_some_iff.1 hd
    have := ih hq
    simp only [List.length_cons]; omega
  | case7 s ih => have := ih h; simp only [List.length_cons]; omega
  | case8 => cases h
  | case9 read s ih =>
    obtain ⟨d, -, hd⟩ := Option.bind_eq_some_iff.1 h
    obtain ⟨q, hq, rfl⟩ := Option.map_eq_some_iff.1 hd
    have := ih hq
    simp only [List.length_cons]; omega
  | case10 read c s _ ih => have := ih h; simp only [List.length_cons]; omega

theorem readRaw?_length {marks s : Text} {p : Text × Text} (h : readRaw? marks s = some p) :
    p.2.length ≤ s.length := by
  induction s generalizing p with
  | nil => cases h
  | cons c s ih =>
    rw [readRaw?] at h
    split at h
    · cases h; simp only [List.length_drop, List.length_cons]; omega
    · obtain ⟨q, hq, rfl⟩ := Option.map_eq_some_iff.1 h
      have := ih hq
      simp only [List.length_cons]; omega

theorem rawStart?_length {s : Text} {p : Text × Text} (h : rawStart? s = some p) :
    p.2.length ≤ s.length := by
  have hs := length_dropWhile_le (· == '#') s
  unfold rawStart? at h
  split at h
  · next r hr =>
    cases h
    rw [hr] at hs
    simp only [List.length_cons] at hs
    show r.length ≤ s.length
    omega
  · cases h

theorem readQuoted?_length {s : Text} {p : Text × Text} (h : readQuoted? s = some p) :
    p.2.length < s.length := by
  unfold readQuoted? at h
  split at h
  · have := readString?_length h; simp only [List.length_cons]; omega
  · obtain ⟨q, hq, hp⟩ := Option.bind_eq_some_iff.1 h
    have h1 := rawStart?_length hq
    have h2 := readRaw?_length hp
    simp only [List.length_cons]; omega
  · cases h

theorem readConstant?_length {s : Text} {p : Value × Text} (h : readConstant? s = some p) :
    p.2.length < s.length := by
  unfold readConstant? at h
  split at h
  · cases h; simp only [List.length_cons]; omega
  · cases h; simp only [List.length_cons]; omega
  · cases h; simp only [List.length_cons]; omega
  · cases h

theorem readBare?_length {s : Text} {p : Text × Text} (h : readBare? s = some p) :
    p.2.length < s.length := by
  unfold readBare? at h
  split at h
  · cases h
  · next c s =>
    have hs := length_dropWhile_le isNameChar s
    dsimp only at h
    split at h
    · cases h; simp only [List.length_cons]; omega
    · cases h

theorem readName?_length {s : Text} {p : Text × Text} (h : readName? s = some p) :
    p.2.length < s.length := by
  rcases Option.or_eq_some_iff.1 h with h | ⟨-, h⟩
  · exact readQuoted?_length h
  · exact readBare?_length h

theorem afterType?_length {s r : Text} (h : afterType? s = some r) : r.length ≤ s.length := by
  unfold afterType? at h
  split at h
  · next s =>
    split at h
    · next name r hname =>
      cases h
      have hlt := readName?_length hname
      simp only [List.length_cons] at hlt ⊢
      omega
    · cases h
  · cases h; exact Nat.le_refl _

theorem readNodeName?_length {s : Text} {p : Text × Text} (h : readNodeName? s = some p) :
    p.2.length < s.length := by
  obtain ⟨r, hr, hp⟩ := Option.bind_eq_some_iff.1 h
  exact Nat.lt_of_lt_of_le (readName?_length hp) (afterType?_length hr)

theorem Value.readPlain?_length {s : Text} {p : Value × Text} (h : readPlain? s = some p) :
    p.2.length < s.length := by
  rcases Option.or_eq_some_iff.1 h with h | ⟨-, h⟩
  · exact readConstant?_length h
  rcases Option.or_eq_some_iff.1 h with h | ⟨-, h⟩
  · obtain ⟨q, hq, rfl⟩ := Option.map_eq_some_iff.1 h
    exact readQuoted?_length hq
  · exact readNumber?_length h

theorem Value.read?_length {s : Text} {p : Value × Text} (h : Value.read? s = some p) :
    p.2.length < s.length := by
  obtain ⟨r, hr, hp⟩ := Option.bind_eq_some_iff.1 h
  exact Nat.lt_of_lt_of_le (readPlain?_length hp) (afterType?_length hr)

theorem Entry.read?_length {s : Text} {p : Entry × Text} (h : Entry.read? s = some p) :
    p.2.length < s.length := by
  unfold Entry.read? at h
  split at h
  · next r hr =>
    obtain ⟨q, hq, rfl⟩ := Option.map_eq_some_iff.1 h
    have h1 := readName?_length hr
    have h2 := Value.read?_length hq
    simp only [List.length_cons] at h1
    show q.2.length < s.length
    omega
  · obtain ⟨q, hq, rfl⟩ := Option.map_eq_some_iff.1 h
    exact Value.read?_length hq

end RichText.Kdl
