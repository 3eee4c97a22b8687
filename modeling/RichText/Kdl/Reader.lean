import RichText.Kdl.Entry

/-!
Reading a KDL document from left to right.

A node is a name, entries and at most one block of nodes; it ends at a line's end, at a semicolon or
at the end of the text, and so does the last node of a block. An entry needs something between it
and what comes before: a blank, a backslash with the end of its line, or an entry or block that is
left out. Only nodes outside all blocks are kept.
-/

namespace RichText.Kdl

/-- A node part way through. -/
structure Draft where
  node : Node
  /-- The slashdashes before it: one leaves out this node, each other one a later node. -/
  before : Nat
  /-- The slashdashes since then that still wait for an entry or a block to leave out. -/
  waiting : Nat := 0
  /-- Whether an entry may follow directly. -/
  spaced : Bool := false
  /-- Whether its block has been read, so that nothing more can belong to it. -/
  closed : Bool := false
  deriving DecidableEq, Repr

namespace Draft

def ofName (name : String) (before : Nat) : Draft := { node := ⟨name, []⟩, before := before }

/-- Leaves out an entry or a block. -/
def leaveOut (d : Draft) : Draft := { d with waiting := d.waiting - 1, spaced := true }

/-- Whether an entry or a block may follow: after its own block only one that is left out. -/
def isOpen (d : Draft) : Bool := !d.closed || d.waiting != 0

def push? (d : Draft) (e : Entry) : Option Draft :=
  if d.spaced && d.isOpen then
    some (if d.waiting = 0 then { d with node := d.node.push e, spaced := false } else d.leaveOut)
  else none

/-- The draft after a block inside it. -/
def addBlock (d : Draft) : Draft := if d.waiting = 0 then { d with closed := true } else d.leaveOut

end Draft

/-- Where a reader is. -/
inductive Place where
  /-- Before a node, with some slashdashes that each leave out one. -/
  | between (slashdashes : Nat)
  | inside (d : Draft)
  /-- Behind a backslash, in what is left of its line. -/
  | wrapped (d : Draft)
  deriving DecidableEq, Repr

/-- A reader has the nodes kept so far, and for each block that it is in the node around it, the
innermost first. -/
structure Reader where
  around : List Draft := []
  place : Place := .between 0
  nodes : List Node := []
  deriving DecidableEq, Repr

namespace Reader

def goto (r : Reader) (place : Place) : Reader := { r with place := place }

/-- Ends a node. -/
def finish (r : Reader) (d : Draft) : Reader :=
  { r with
    place := .between (d.before - 1)
    nodes := if r.around.isEmpty && d.before = 0 then r.nodes ++ [d.node] else r.nodes }

def leave? (r : Reader) : Option Reader :=
  match r.around with
  | [] => none
  | d :: rest => some { r with around := rest, place := .inside d.addBlock }

def betweenToken? (r : Reader) (slashdashes : Nat) : Token → Option Reader
  | .blank | .newline => some r
  | .slashdash => some (r.goto (.between (slashdashes + 1)))
  | .closing => if slashdashes = 0 then r.leave? else none
  | .semicolon | .opening | .backslash => none

def insideToken? (r : Reader) (d : Draft) : Token → Option Reader
  | .blank => some (r.goto (.inside { d with spaced := true }))
  | .backslash => some (r.goto (.wrapped d))
  | .slashdash => some (r.goto (.inside { d with waiting := d.waiting + 1, spaced := true }))
  | .opening =>
    if d.isOpen then some { r with around := d :: r.around, place := .between 0 } else none
  | .newline | .semicolon => if d.waiting = 0 then some (r.finish d) else none
  | .closing => none

def wrappedToken? (r : Reader) (d : Draft) : Token → Option Reader
  | .blank => some r
  | .newline => some (r.goto (.inside { d with spaced := true }))
  | _ => none

def token? (r : Reader) (t : Token) : Option Reader :=
  match r.place with
  | .between slashdashes => r.betweenToken? slashdashes t
  | .inside d => r.insideToken? d t
  | .wrapped d => r.wrappedToken? d t

/-- Reads a name or an entry, whichever can stand in this place. -/
def word? (r : Reader) (s : Text) : Option (Reader × Text) :=
  match r.place with
  | .between slashdashes =>
    (readNodeName? s).map fun p =>
      (r.goto (.inside (.ofName (String.ofList p.1) slashdashes)), p.2)
  | .inside d =>
    (Entry.read? s).bind fun p => (d.push? p.1).map fun d => (r.goto (.inside d), p.2)
  | .wrapped _ => none

def step? (r : Reader) (c : Char) (s : Text) : Option (Reader × Text) :=
  match Token.read? c s with
  | some (t, rest) => (r.token? t).map fun r => (r, rest)
  | none => r.word? (c :: s)

/-- The nodes read, if the text may end here. -/
def nodes? (r : Reader) : Option (List Node) :=
  match r.around, r.place with
  | [], .between 0 => some r.nodes
  | [], .inside d => if d.waiting = 0 ∧ d.before ≤ 1 then some (r.finish d).nodes else none
  | _, _ => none

theorem word?_length {r : Reader} {s : Text} {p : Reader × Text} (h : r.word? s = some p) :
    p.2.length < s.length := by
  unfold word? at h
  split at h
  · obtain ⟨q, hq, rfl⟩ := Option.map_eq_some_iff.1 h
    exact readNodeName?_length hq
  · obtain ⟨q, hq, hd⟩ := Option.bind_eq_some_iff.1 h
    obtain ⟨d, -, rfl⟩ := Option.map_eq_some_iff.1 hd
    exact Entry.read?_length hq
  · cases h

theorem step?_length {r : Reader} {c : Char} {s : Text} {p : Reader × Text}
    (h : r.step? c s = some p) : p.2.length ≤ s.length := by
  unfold step? at h
  split at h
  · next t rest ht =>
    obtain ⟨q, -, rfl⟩ := Option.map_eq_some_iff.1 h
    exact Token.read?_length ht
  · exact Nat.le_of_lt_succ (word?_length h)

/-- Reads a text to its end. -/
def readFrom? (r : Reader) (s : Text) : Option Reader :=
  match s with
  | [] => some r
  | c :: t =>
    match _h : r.step? c t with
    | none => none
    | some (next, rest) => next.readFrom? rest
termination_by s.length
decreasing_by
  have : rest.length ≤ t.length := step?_length _h
  simp only [List.length_cons]; omega

end Reader

/-- The nodes of a document, or nothing if the text is no document. -/
def read? (s : Text) : Option (List Node) := (Reader.readFrom? {} s).bind Reader.nodes?

end RichText.Kdl
