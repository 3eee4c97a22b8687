import RichText.Document.Token
import RichText.Selection

/-!
From character offsets to places in a row of tokens. A boundary is a number of tokens; an offset
that falls between two characters leaves a choice of boundaries when tags or leaves stand there.
-/

namespace RichText

/-- A stretch of a row of tokens, between two boundaries. -/
structure Span where
  start : Nat
  stop : Nat
  deriving DecidableEq, Repr

namespace Span

def isEmpty (r : Span) : Bool := r.stop ≤ r.start

def before (r : Span) (ts : List Token) : List Token := ts.take r.start

def inside (r : Span) (ts : List Token) : List Token := (ts.take r.stop).drop r.start

def after (r : Span) (ts : List Token) : List Token := ts.drop r.stop

end Span

/-- How far a span reaches past the selected characters. -/
inductive Reach where
  /-- Not at all, so that the elements around the selected text stay. -/
  | inner
  /-- Over the elements whose text is selected as a whole. -/
  | outer
  deriving DecidableEq, Repr

namespace Boundary

/-- The number of characters before a boundary. -/
def offset (ts : List Token) (boundary : Nat) : Nat := (charsOf (ts.take boundary)).length

/-- The first boundary with `n` characters before it, or the end. -/
def first : Nat → List Token → Nat
  | 0, _ => 0
  | _ + 1, [] => 0
  | n + 1, .char _ :: ts => first n ts + 1
  | n + 1, _ :: ts => first (n + 1) ts + 1

/-- The last boundary with `n` characters before it, or the end. -/
def last : Nat → List Token → Nat
  | _, [] => 0
  | 0, .char _ :: _ => 0
  | n + 1, .char _ :: ts => last n ts + 1
  | n, _ :: ts => last n ts + 1

/-- The first boundary, moved on over end tags and leaves. -/
def outerStart (n : Nat) (ts : List Token) : Nat :=
  let i := first n ts
  i + ((ts.drop i).takeWhile fun t => t.isStop || t.isLeaf).length

/-- The last boundary, moved back over start tags and leaves. -/
def outerStop (n : Nat) (ts : List Token) : Nat :=
  let i := last n ts
  i - ((ts.take i).reverse.takeWhile fun t => t.isStart || t.isLeaf).length

/-- A caret stands after the last leaf between its neighbouring characters. Without a leaf there it
follows the character before it, or precedes the first one. -/
def caret (n : Nat) (ts : List Token) : Nat :=
  let start := first n ts
  let stop := max (last n ts) start
  let leaves := (((ts.take stop).drop start).reverse.dropWhile fun t => !t.isLeaf).length
  if leaves = 0 ∧ n = 0 then stop else start + leaves

end Boundary

/-- The span of a selection, which is moved into the text first. -/
def Selection.span (sel : Selection) (reach : Reach) (ts : List Token) : Span :=
  let sel := sel.ordered.clamp (charsOf ts).length
  if sel.isCaret then ⟨Boundary.caret sel.start ts, Boundary.caret sel.start ts⟩
  else
    let start :=
      match reach with
      | .inner => Boundary.last sel.start ts
      | .outer => Boundary.outerStart sel.start ts
    let stop :=
      match reach with
      | .inner => Boundary.first sel.stop ts
      | .outer => Boundary.outerStop sel.stop ts
    ⟨start, max start stop⟩

end RichText
