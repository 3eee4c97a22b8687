import RichText.Markup.Event
import RichText.Document.Normal

/-!
From events to a document. A start tag opens an element, unless it is void; an end tag closes the
nearest open element of its name together with all that is open inside it, and is passed over
when there is none. What is open at the end is closed there.
-/

namespace RichText

/-- A document part way through: the finished nodes of the innermost open element, and the open
elements from the innermost out, each with the nodes before it. -/
structure Unfinished where
  nodes : List Node := []
  around : List (Tag × List Node) := []

namespace Unfinished

def add (u : Unfinished) (n : Node) : Unfinished := { u with nodes := u.nodes ++ [n] }

def enter (u : Unfinished) (tag : Tag) : Unfinished := ⟨[], (tag, u.nodes) :: u.around⟩

/-- Closes elements up to the nearest of the given name. -/
def leaveFrom (name : Text) (nodes : List Node) : List (Tag × List Node) → Unfinished
  | [] => ⟨nodes, []⟩
  | (tag, before) :: outer =>
    if tag.name = name then ⟨before ++ [.element tag nodes], outer⟩
    else leaveFrom name (before ++ [.element tag nodes]) outer

def leave (u : Unfinished) (name : Text) : Unfinished :=
  if u.around.any fun level => level.1.name == name then leaveFrom name u.nodes u.around else u

def step (u : Unfinished) : Event → Unfinished
  | .text s => u.add (.text s)
  | .comment s => u.add (.comment s)
  | .start tag => if tag.isVoid then u.add (.element tag []) else u.enter tag
  | .stop name => u.leave name

def finishFrom (nodes : List Node) : List (Tag × List Node) → List Node
  | [] => nodes
  | (tag, before) :: outer => finishFrom (before ++ [.element tag nodes]) outer

def finish (u : Unfinished) : List Node := finishFrom u.nodes u.around

end Unfinished

/-- The document that events describe, each text as it came. -/
def ofEvents (es : List Event) : List Node := (es.foldl Unfinished.step {}).finish

/-- The normal document that markup stands for. -/
def parse (s : Text) : List Node := normalize (ofEvents (Event.ofMarkup s))

end RichText
