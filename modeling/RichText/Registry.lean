import RichText.Action

/-!
The registry: actions under distinct names, in the order in which they were registered.
-/

namespace RichText

/-- What is said about an error. -/
structure Diagnostic where
  message : String
  code : String
  help : Option String
  deriving DecidableEq, Repr

inductive ActionError where
  | duplicate (name : String)
  /-- No action has that name; the similar one differs from it in the case of letters only. -/
  | unknown (name : String) (similar : Option String)
  deriving DecidableEq, Repr

def ActionError.diagnostic : ActionError → Diagnostic
  | .duplicate name =>
    ⟨"action `" ++ name ++ "` is already registered", "toolbox::duplicate_action",
      some "each action name can be registered once; pick another name"⟩
  | .unknown name similar =>
    ⟨"unknown action `" ++ name ++ "`", "toolbox::unknown_action",
      similar.map fun k => "did you mean `" ++ k ++ "`?"⟩

structure Registry where
  actions : List Action
  policy : Policy
  deriving DecidableEq, Repr

namespace Registry

def find? (r : Registry) (name : String) : Option Action := r.actions.find? fun a => a.name == name

def names (r : Registry) : List String := r.actions.map Action.name

/-- Adds an action at the end, unless its name is taken. -/
def register (r : Registry) (a : Action) : Except ActionError Registry :=
  if (r.find? a.name).isSome then .error (.duplicate a.name)
  else .ok { r with actions := r.actions ++ [a] }

/-- Adds actions in order, up to the first whose name is taken. -/
def registerAll (r : Registry) (as : List Action) : Except ActionError Registry :=
  as.foldlM register r

/-- The error for a name that no action has, with the first name of the same letters. -/
def unknown (r : Registry) (name : String) : ActionError :=
  .unknown name (r.names.find? fun k => Ascii.sameLetters k.toList name.toList)

end Registry

end RichText
