import RichText.Markup.Printer
import RichText.Markup.Tree

/-!
Edits of a selection, and surfaces, which are what edits are made on.

An edit puts something in place of the selection or takes away its formatting. A surface without a
selection reads as empty, and an edit that it cannot make leaves it as it is.
-/

namespace RichText

/-- What is put in place of a selection. -/
inductive Insertion where
  | text (s : Text)
  /-- Content between an opening tag, which may have attributes, and a closing tag. -/
  | tagged (opening closing content : Text)
  /-- One element of that name around markup. -/
  | element (name content : Text)
  | lineBreak
  | nothing
  deriving DecidableEq, Repr

namespace Insertion

/-- An insertion as a piece of markup; a text is taken as it is. -/
def markup : Insertion → Text
  | text s => s
  | tagged opening closing content => enclosed opening closing content
  | element name content => enclosed name name content
  | lineBreak => "<br>".toList
  | nothing => []

/-- The nodes of an insertion that is pasted as markup. Only a text goes in as a node. -/
def pasted : Insertion → List Node
  | text s => [.text s]
  | i => parse i.markup

/-- An element with markup inside, or none if the name is no element name. -/
def wrapper? (name content : Text) : Option Node :=
  if isElementName name then
    let tag : Tag := ⟨Ascii.lower name, []⟩
    some (.element tag (if tag.isVoid then [] else parse content))
  else none

/-- The nodes of an insertion whose elements are made as such. -/
def built? : Insertion → Option (List Node)
  | text s => some [.text s]
  | tagged opening closing content => some (parse (enclosed opening closing content))
  | element name content => (wrapper? name content).map fun n => [n]
  | lineBreak => some [.element ⟨"br".toList, []⟩ []]
  | nothing => some []

end Insertion

inductive Edit where
  | replace (i : Insertion)
  /-- Makes the selection plain text. -/
  | unformat
  deriving DecidableEq, Repr

class Surface (σ : Type) where
  selectedText : σ → Text
  selectedMarkup : σ → Text
  edit : σ → Edit → σ

end RichText
