import RichText.Text.Ascii

/-!
Documents in the KDL language: a list of nodes, each with a name and a row of entries. An entry is
an argument or, under a key, a property. Blocks of nodes below a node are read and left out.
-/

namespace RichText.Kdl

inductive Value where
  | string (s : Text)
  | integer (n : Int)
  /-- A number with a fraction or an exponent, as it is written. -/
  | float (number : Text)
  | boolean (b : Bool)
  | null
  deriving DecidableEq, Repr

def Value.string? : Value → Option Text
  | .string s => some s
  | _ => none

structure Entry where
  key : Option String
  value : Value
  deriving DecidableEq, Repr

structure Node where
  name : String
  entries : List Entry
  deriving DecidableEq, Repr

namespace Node

def push (n : Node) (e : Entry) : Node := { n with entries := n.entries ++ [e] }

/-- The first argument, if it is a string. A later argument does not stand in for it. -/
def argument? (n : Node) : Option Text :=
  (n.entries.find? fun e => e.key.isNone).bind fun e => e.value.string?

/-- The first property under a key, if it is a string. -/
def property? (n : Node) (key : String) : Option Text :=
  (n.entries.find? fun e => e.key == some key).bind fun e => e.value.string?

end Node

end RichText.Kdl
