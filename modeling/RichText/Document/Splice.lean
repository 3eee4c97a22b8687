import RichText.Markup.Printer
import RichText.Document.Boundary

/-!
Cutting a span out of a row of tokens, reading it, and putting nodes in its place.

A cut keeps the tags of elements that are only partly inside: the end tags of those that began
before it, then the start tags of those that end after it. What is put in stands between the two.
-/

namespace RichText

/-- What is unmatched in a row of tokens: how many end tags, and which start tags, latest first. -/
structure Unmatched where
  stops : Nat := 0
  starts : List Tag := []
  deriving DecidableEq, Repr

namespace Unmatched

def step (u : Unmatched) : Token → Unmatched
  | .start tag => { u with starts := tag :: u.starts }
  | .stop =>
    match u.starts with
    | [] => { u with stops := u.stops + 1 }
    | _ :: rest => { u with starts := rest }
  | _ => u

def ofTokens (ts : List Token) : Unmatched := ts.foldl step {}

def stopTokens (u : Unmatched) : List Token := List.replicate u.stops .stop

def startTokens (u : Unmatched) : List Token := u.starts.reverse.map .start

end Unmatched

namespace Span

/-- The row without the span's content, partly selected elements keeping their tags. -/
def erase (r : Span) (ts : List Token) : List Token :=
  let u := Unmatched.ofTokens (r.inside ts)
  r.before ts ++ u.stopTokens ++ u.startTokens ++ r.after ts

/-- The boundary in the shortened row at which the content was. -/
def collapse (r : Span) (ts : List Token) : Nat :=
  r.start + (Unmatched.ofTokens (r.inside ts)).stops

def text (r : Span) (ts : List Token) : Text := charsOf (r.inside ts)

end Span

/-- Puts nodes in at a boundary. -/
def insertNodes (ts : List Token) (boundary : Nat) (ns : List Node) : List Token :=
  ts.take boundary ++ tokens ns ++ ts.drop boundary

/-- The markup of a row inside the given open elements, innermost first. What is still open at its
end is closed there. -/
def tokensMarkup (opened : List Tag) : List Token → Text
  | [] => opened.flatMap Tag.endMarkup
  | .char c :: ts => Escape.textChar c ++ tokensMarkup opened ts
  | .leaf n :: ts => n.markup ++ tokensMarkup opened ts
  | .start tag :: ts => tag.startMarkup ++ tokensMarkup (tag :: opened) ts
  | .stop :: ts =>
    match opened with
    | tag :: opened => tag.endMarkup ++ tokensMarkup opened ts
    | [] => tokensMarkup [] ts

/-- The markup of a span. Elements that began before it and end inside it are written as a whole,
around the part of them that it holds. -/
def Span.markup (r : Span) (ts : List Token) : Text :=
  if r.isEmpty then []
  else
    let opened := (Unmatched.ofTokens (r.before ts)).starts
    let cut := opened.take (Unmatched.ofTokens (r.inside ts)).stops
    cut.reverse.flatMap Tag.startMarkup ++ tokensMarkup cut (r.inside ts)

/-- What putting nodes in place of a selection leads to: the new document, and the offsets around
what was put in. -/
structure Replaced where
  nodes : List Node
  start : Nat
  stop : Nat
  deriving DecidableEq, Repr

def replaceSelected (ns : List Node) (sel : Selection) (reach : Reach) (new : List Node) :
    Replaced :=
  let ts := tokens ns
  let r := sel.span reach ts
  let place := r.collapse ts
  let full := insertNodes (r.erase ts) place new
  ⟨ofTokens full, Boundary.offset full place, Boundary.offset full (place + (tokens new).length)⟩

end RichText
