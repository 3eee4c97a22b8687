import RichText.Text.Numeral

/-!
Character references in markup, `&name;`, `&#10;` and `&#xA;`, and their decoding.

A reference runs from `&` to the next `;`. One that names no character, or that another `&` or
the end of the text cuts short, stays as it is written.
-/

namespace RichText

namespace Reference

/-- A limited set of the named characters, not the standard list, which has many more. A name that
is missing here stays as it is written. Escaping needs the names that it writes, and no others. -/
def names : List (String × Char) :=
  [("AMP", '&'), ("amp", '&'), ("LT", '<'), ("lt", '<'), ("gt", '>'), ("quot", '"'),
   ("apos", '\x27'), ("nbsp", '\u00a0'), ("copy", '\u00a9'), ("Eacute", '\u00c9'),
   ("eacute", '\u00e9'), ("euro", '\u20ac'), ("hearts", '\u2665'), ("hellip", '\u2026'),
   ("mdash", '\u2014'), ("Afr", Char.ofNat 0x1d504), ("NotEqualTilde", '\u2242'),
   ("fjlig", 'f')]

def named? (name : Text) : Option Char :=
  (names.find? fun entry => entry.1.toList == name).map (·.2)

/-- The character of a code point. Control characters have none, tab, line feed, form feed and
carriage return excepted. -/
def codePoint? (n : Nat) : Option Char :=
  if n.isValidChar ∧ (32 ≤ n ∨ n = 9 ∨ n = 10 ∨ n = 12 ∨ n = 13) then some (Char.ofNat n)
  else none

/-- The character that a reference stands for, given what is between `&` and `;`. -/
def character? (body : Text) : Option Char :=
  match body with
  | '#' :: 'x' :: digits => (Numeral.read? 16 digits).bind codePoint?
  | '#' :: 'X' :: digits => (Numeral.read? 16 digits).bind codePoint?
  | '#' :: digits => (Numeral.read? 10 digits).bind codePoint?
  | name => named? name

/-- What a finished reference is replaced by. -/
def resolve (body : Text) : Text :=
  match character? body with
  | some c => [c]
  | none => '&' :: body ++ [';']

/-- Decodes the rest of a text. `pending` is what was read, latest first, since an `&` that may
begin a reference. -/
def decodeFrom (pending : Option Text) : Text → Text
  | [] =>
    match pending with
    | none => []
    | some read => '&' :: read.reverse
  | c :: s =>
    match pending with
    | none => if c = '&' then decodeFrom (some []) s else c :: decodeFrom none s
    | some read =>
      if c = '&' then '&' :: read.reverse ++ decodeFrom (some []) s
      else if c = ';' then resolve read.reverse ++ decodeFrom none s
      else decodeFrom (some (c :: read)) s

end Reference

def decode (s : Text) : Text := Reference.decodeFrom none s

@[simp] theorem decode_nil : decode [] = [] := rfl

theorem decode_cons_of_ne {c : Char} (h : c ≠ '&') (s : Text) :
    decode (c :: s) = c :: decode s := by
  simp [decode, Reference.decodeFrom, h]

end RichText
