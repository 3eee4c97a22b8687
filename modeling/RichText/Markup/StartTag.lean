import RichText.Text.Reference
import RichText.Document.Node

/-!
Reading a start tag, from its name to the `>` that ends it.

A name runs to a blank, `/` or `>`, and an attribute's name also to `=`; blanks and `/` separate
attributes. A value may be quoted either way or bare. Names lose their case, values are decoded,
and of attributes with one name the first counts. A tag without its `>`, or with a quote that is
not closed, is no tag.
-/

namespace RichText.StartTag

open Ascii

def isNameChar (c : Char) : Bool := !(isBlank c || c == '/' || c == '>')

def isAttributeChar (c : Char) : Bool := !(isBlank c || c == '/' || c == '>' || c == '=')

def isSeparator (c : Char) : Bool := isBlank c || c == '/'

def isBareChar (c : Char) : Bool := !(isBlank c || c == '>')

/-- What stands before the next quote mark, and what follows it. -/
def readQuoted? (quote : Char) : Text → Option (Text × Text)
  | [] => none
  | c :: s => if c = quote then some ([], s) else (readQuoted? quote s).map fun p => (c :: p.1, p.2)

def readValue? : Text → Option (Text × Text)
  | '"' :: s => readQuoted? '"' s
  | '\x27' :: s => readQuoted? '\x27' s
  | s => some (s.takeWhile isBareChar, s.dropWhile isBareChar)

/-- Reads an attribute whose name starts with `c`. A `=` in that place is a name by itself. -/
def readAttribute? (c : Char) (s : Text) : Option (Attribute × Text) :=
  let more := if c = '=' then [] else s.takeWhile isAttributeChar
  let name := lower (c :: more)
  match (s.drop more.length).dropWhile isBlank with
  | '=' :: r => (readValue? (r.dropWhile isBlank)).map fun p => (⟨name, decode p.1⟩, p.2)
  | r => some (⟨name, []⟩, r)

theorem readQuoted?_length {q : Char} {s : Text} {p : Text × Text} (h : readQuoted? q s = some p) :
    p.2.length ≤ s.length := by
  induction s generalizing p with
  | nil => simp [readQuoted?] at h
  | cons c s ih =>
    rw [readQuoted?] at h
    split at h
    · cases h; simp
    · obtain ⟨p', hp', rfl⟩ := Option.map_eq_some_iff.1 h
      have := ih hp'
      simp only [List.length_cons]; omega

theorem readValue?_length {s : Text} {p : Text × Text} (h : readValue? s = some p) :
    p.2.length ≤ s.length := by
  unfold readValue? at h
  split at h
  · have := readQuoted?_length h; simp only [List.length_cons]; omega
  · have := readQuoted?_length h; simp only [List.length_cons]; omega
  · cases h; exact length_dropWhile_le _ _

theorem readAttribute?_length {c : Char} {s : Text} {p : Attribute × Text}
    (h : readAttribute? c s = some p) : p.2.length ≤ s.length := by
  simp only [readAttribute?] at h
  generalize hmore : (if c = '=' then [] else s.takeWhile isAttributeChar) = more at h
  have hle : ((s.drop more.length).dropWhile isBlank).length ≤ s.length := by
    have := length_dropWhile_le isBlank (s.drop more.length)
    simp only [List.length_drop] at this
    omega
  split at h
  · next r hr =>
    obtain ⟨v, hv, rfl⟩ := Option.map_eq_some_iff.1 h
    have h1 := readValue?_length hv
    have h2 := length_dropWhile_le isBlank r
    rw [hr] at hle
    simp only [List.length_cons] at hle
    show v.2.length ≤ s.length
    omega
  · cases h; exact hle

/-- Reads attributes up to the end of the tag. -/
def readAttributes? (s : Text) : Option (List Attribute × Text) :=
  match _hs : s.dropWhile isSeparator with
  | [] => none
  | c :: r =>
    if c = '>' then some ([], r)
    else
      match _ha : readAttribute? c r with
      | none => none
      | some (a, rest) => (readAttributes? rest).map fun p => (a :: p.1, p.2)
termination_by s.length
decreasing_by
  have h1 : rest.length ≤ r.length := readAttribute?_length _ha
  have h2 := length_dropWhile_le isSeparator s
  rw [_hs] at h2
  simp only [List.length_cons] at h2
  omega

/-- The attributes of a tag, less those that repeat the name of an earlier one. -/
def firstOfName : List Attribute → List Attribute
  | [] => []
  | a :: as => a :: (firstOfName as).filter fun b => b.name != a.name

/-- Reads a tag from its name on; returns what follows its `>` as well. -/
def read? (s : Text) : Option (Tag × Text) :=
  (readAttributes? (s.dropWhile isNameChar)).map fun p =>
    (⟨lower (s.takeWhile isNameChar), firstOfName p.1⟩, p.2)

theorem readAttributes?_length {s : Text} {p : List Attribute × Text}
    (h : readAttributes? s = some p) : p.2.length ≤ s.length := by
  fun_induction readAttributes? s generalizing p with
  | case1 => cases h
  | case2 s r hr =>
    have := length_dropWhile_le isSeparator s
    cases h
    rw [hr] at this
    simp only [List.length_cons] at this
    show r.length ≤ s.length
    omega
  | case3 => cases h
  | case4 s c r hr hc a rest ha ih =>
    obtain ⟨q, hq, rfl⟩ := Option.map_eq_some_iff.1 h
    have h1 := ih hq
    have h2 : rest.length ≤ r.length := readAttribute?_length ha
    have h3 := length_dropWhile_le isSeparator s
    rw [hr] at h3
    simp only [List.length_cons] at h3
    show q.2.length ≤ s.length
    omega

theorem read?_length {s : Text} {p : Tag × Text} (h : read? s = some p) :
    p.2.length ≤ s.length := by
  obtain ⟨q, hq, rfl⟩ := Option.map_eq_some_iff.1 h
  exact Nat.le_trans (readAttributes?_length hq) (length_dropWhile_le _ _)

end RichText.StartTag
