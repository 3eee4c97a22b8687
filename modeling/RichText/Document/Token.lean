import RichText.Document.Normal

/-!
A document as a flat row of tokens: its characters, the start and end tags of its elements, and
leaves, which are void elements and comments. An end tag belongs to the nearest start tag before
it that has none yet.
-/

namespace RichText

inductive Token where
  | char (c : Char)
  | start (tag : Tag)
  | stop
  | leaf (n : Node)
  deriving DecidableEq, Repr

namespace Token

def isChar : Token → Bool
  | char _ => true
  | _ => false

def isLeaf : Token → Bool
  | leaf _ => true
  | _ => false

def isStart : Token → Bool
  | start _ => true
  | _ => false

def isStop : Token → Bool
  | stop => true
  | _ => false

end Token

mutual

def Node.tokens : Node → List Token
  | .text s => s.map .char
  | .comment s => [.leaf (.comment s)]
  | .element tag inside =>
    if tag.isVoid then [.leaf (.element tag inside)] else .start tag :: tokens inside ++ [.stop]

def tokens : List Node → List Token
  | [] => []
  | n :: ns => n.tokens ++ tokens ns

end

@[simp] theorem tokens_nil : tokens [] = [] := rfl
@[simp] theorem tokens_cons (n : Node) (ns : List Node) : tokens (n :: ns) = n.tokens ++ tokens ns :=
  rfl
@[simp] theorem tokens_append (ms ns : List Node) : tokens (ms ++ ns) = tokens ms ++ tokens ns := by
  induction ms with
  | nil => rfl
  | cons m ms ih => simp [ih]

/-- The characters of a row. -/
def charsOf : List Token → Text
  | [] => []
  | .char c :: ts => c :: charsOf ts
  | _ :: ts => charsOf ts

@[simp] theorem charsOf_nil : charsOf [] = [] := rfl
@[simp] theorem charsOf_char (c : Char) (ts : List Token) :
    charsOf (.char c :: ts) = c :: charsOf ts := rfl
@[simp] theorem charsOf_start (tag : Tag) (ts : List Token) :
    charsOf (.start tag :: ts) = charsOf ts := rfl
@[simp] theorem charsOf_stop (ts : List Token) : charsOf (.stop :: ts) = charsOf ts := rfl
@[simp] theorem charsOf_leaf (n : Node) (ts : List Token) :
    charsOf (.leaf n :: ts) = charsOf ts := rfl
@[simp] theorem charsOf_append (ts us : List Token) :
    charsOf (ts ++ us) = charsOf ts ++ charsOf us := by
  fun_induction charsOf ts <;> simp_all [charsOf]

/-- A row read from its end: the nodes found on the current level, and those found on the levels
around it, which start tags further to the left will enclose. -/
structure Levels where
  nodes : List Node := []
  around : List (List Node) := []

namespace Levels

/-- Takes in the token to the left. A start tag without an end tag encloses all that follows. -/
def cons (t : Token) (l : Levels) : Levels :=
  match t with
  | .char c => { l with nodes := consText [c] l.nodes }
  | .leaf n => { l with nodes := n :: l.nodes }
  | .stop => ⟨[], l.nodes :: l.around⟩
  | .start tag =>
    match l.around with
    | [] => ⟨[.element tag l.nodes], []⟩
    | outer :: rest => ⟨.element tag l.nodes :: outer, rest⟩

/-- All that was read, an end tag without a start tag having no effect. -/
def all (l : Levels) : List Node := l.nodes ++ l.around.flatten

end Levels

/-- The normal document of a row of tokens. -/
@[irreducible] def ofTokens (ts : List Token) : List Node := normalize (ts.foldr Levels.cons {}).all

end RichText
