import RichText.Text.Escape
import RichText.Document.Node

/-!
The markup of a document. A void element is written as its start tag alone, whatever is inside.
-/

namespace RichText

namespace Attribute

def markup (a : Attribute) : Text :=
  ' ' :: a.name ++ "=\"".toList ++ escapeValue a.value ++ ['"']

end Attribute

namespace Tag

def startMarkup (t : Tag) : Text :=
  '<' :: t.name ++ t.attributes.flatMap Attribute.markup ++ ['>']

/-- A void element has no end tag. -/
def endMarkup (t : Tag) : Text :=
  if t.isVoid then [] else "</".toList ++ t.name ++ ['>']

end Tag

mutual

def Node.markup : Node → Text
  | .text s => escapeText s
  | .comment s => "<!--".toList ++ s ++ "-->".toList
  | .element tag inside =>
    tag.startMarkup ++ (if tag.isVoid then [] else markup inside) ++ tag.endMarkup

def markup : List Node → Text
  | [] => []
  | n :: ns => n.markup ++ markup ns

end

@[simp] theorem markup_nil : markup [] = [] := rfl
@[simp] theorem markup_cons (n : Node) (ns : List Node) : markup (n :: ns) = n.markup ++ markup ns :=
  rfl
@[simp] theorem markup_append (ms ns : List Node) : markup (ms ++ ns) = markup ms ++ markup ns := by
  induction ms with
  | nil => rfl
  | cons m ms ih => simp [ih]

/-- Content between an opening and a closing tag, all three as given: the opening tag may have
attributes, and the content may be markup. -/
def enclosed (opening closing content : Text) : Text :=
  '<' :: opening ++ '>' :: content ++ "</".toList ++ closing ++ ['>']

end RichText
