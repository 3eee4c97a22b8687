import RichText.Edit
import RichText.Text.Escape

/-!
What a toolbar action does to a selection: a transform becomes a row of edits, made one after the
other on the text that was selected at the beginning.
-/

namespace RichText

inductive Transform where
  /-- Wraps the text in one element. -/
  | wrap (name : Text)
  /-- Puts the text between an opening tag, which may have attributes, and a closing tag. -/
  | enclose (opening closing : Text)
  | lineBreak
  /-- Breaks the line, then goes on behind the break. -/
  | breakThen (next : Transform)
  | delete
  | unformat
  deriving DecidableEq, Repr

/-- How selected text is put into markup: as it is, so that what looks like markup becomes markup,
or escaped, so that it stays text. -/
inductive Policy where
  | verbatim
  | escaped
  deriving DecidableEq, Repr

def Policy.content : Policy → Text → Text
  | verbatim, s => s
  | escaped, s => escapeText s

namespace Transform

/-- Whether there is nothing to do without a selected text. -/
def needsText : Transform → Bool
  | wrap _ | enclose _ _ | breakThen _ => true
  | lineBreak | delete | unformat => false

def edits (content : Text) : Transform → List Edit
  | wrap name => [.replace (.element name content)]
  | enclose opening closing => [.replace (.tagged opening closing content)]
  | lineBreak => [.replace .lineBreak]
  | breakThen next => .replace .lineBreak :: edits content next
  | delete => [.replace .nothing]
  | unformat => [.unformat]

/-- Runs a transform; the answer is whether it had something to act on. -/
def run {σ : Type} [Surface σ] (t : Transform) (policy : Policy) (s : σ) : σ × Bool :=
  let text := Surface.selectedText s
  if text.isEmpty && t.needsText then (s, false)
  else ((t.edits (policy.content text)).foldl Surface.edit s, true)

end Transform

structure Action where
  name : String
  transform : Transform
  deriving DecidableEq, Repr

end RichText
