import RichText.Text.Ascii

/-!
Escaping for markup. In text `&`, `<` and `>` are written as character references; in an
attribute value, which stands between double quotes, `"` is too.
-/

namespace RichText

namespace Escape

def textChar (c : Char) : Text :=
  match c with
  | '&' => "&amp;".toList
  | '<' => "&lt;".toList
  | '>' => "&gt;".toList
  | c => [c]

def valueChar (c : Char) : Text :=
  if c = '"' then "&quot;".toList else textChar c

end Escape

def escapeText (s : Text) : Text := s.flatMap Escape.textChar

def escapeValue (s : Text) : Text := s.flatMap Escape.valueChar

@[simp] theorem escapeText_nil : escapeText [] = [] := rfl
@[simp] theorem escapeText_cons (c : Char) (s : Text) :
    escapeText (c :: s) = Escape.textChar c ++ escapeText s := rfl
@[simp] theorem escapeText_append (s t : Text) :
    escapeText (s ++ t) = escapeText s ++ escapeText t := by simp [escapeText]

@[simp] theorem escapeValue_nil : escapeValue [] = [] := rfl
@[simp] theorem escapeValue_cons (c : Char) (s : Text) :
    escapeValue (c :: s) = Escape.valueChar c ++ escapeValue s := rfl
@[simp] theorem escapeValue_append (s t : Text) :
    escapeValue (s ++ t) = escapeValue s ++ escapeValue t := by simp [escapeValue]

end RichText
