import RichText.Edit
import RichText.Selection
import RichText.Text.Chars

/-!
The source is the markup view: a document as its markup, edited as plain text. What is put in place
of the selected text has the caret behind it.
-/

namespace RichText

structure Source where
  content : Text
  selection : Selection
  deriving DecidableEq, Repr

namespace Source

def ofText (s : Text) : Source := ⟨s, .caret 0⟩

def length (v : Source) : Nat := v.content.length

def setContent (v : Source) (s : Text) : Source := ⟨s, v.selection.clamp s.length⟩

def select (v : Source) (sel : Selection) : Source := { v with selection := sel.clamp v.length }

def selectedText (v : Source) : Text :=
  (Chars.slice? v.content v.selection.start v.selection.stop).getD []

def splice (v : Source) (s : Text) : Source :=
  ⟨Chars.replace v.content v.selection.start v.selection.stop s,
    .caret (v.selection.start + s.length)⟩

/-- The selected markup as text that stands for the same characters. -/
def unformatted (v : Source) : Text := escapeText (plainText (parse v.selectedText))

def edit (v : Source) : Edit → Source
  | .replace i => v.splice i.markup
  | .unformat => if v.selection.isCaret then v else v.splice v.unformatted

/-- Selected markup is the selected text. -/
instance : Surface Source where
  selectedText := selectedText
  selectedMarkup := selectedText
  edit := edit

end Source

end RichText
