import RichText.Views
import RichText.Selection.Reader

/-!
Command line arguments. There are two commands, `apply` and `actions`, each with its own options. A
long option has its value after `=` or as the next argument, and a short one may have it attached.
Whatever is not understood makes the whole line a usage error, for which there is no value here.
-/

namespace RichText.Cli

inductive Setting where
  | select
  | action
  | view
  | host
  | config
  | output
  deriving DecidableEq, Repr

/-- An argument, or an option with its value. -/
inductive Item where
  | verbose
  | setting (s : Setting) (value : String)
  | positional (value : String)
  deriving DecidableEq, Repr

namespace Setting

/-- The settings that a command has, each under its long name. -/
def applySettings : List (String × Setting) :=
  [("select", select), ("action", action), ("view", view), ("host", host), ("config", config),
    ("output", output)]

def actionsSettings : List (String × Setting) := [("config", config)]

end Setting

/-- Whether an argument can stand as the value of the option before it. -/
def isValue : Text → Bool
  | '-' :: _ :: _ => false
  | _ => true

/-- What stands before the first `=`, and what follows it. -/
def splitEquals (s : Text) : Text × Option Text :=
  match s.dropWhile (· != '=') with
  | [] => (s, none)
  | _ :: value => (s.takeWhile (· != '='), some value)

def longSetting? (known : List (String × Setting)) (name : Text) : Option Setting :=
  (known.find? fun entry => entry.1.toList == name).map (·.2)

/-- Short options written together. The answer has the value of the last one, if that is attached;
`none` stands for a value that is the next argument. -/
def shortItems? (known : List (String × Setting)) :
    Text → Option (List Item × Option (Setting × Option Text))
  | [] => some ([], none)
  | 'v' :: s => (shortItems? known s).map fun p => (.verbose :: p.1, p.2)
  | 'o' :: s =>
    if known.any fun entry => entry.2 == .output then
      match s with
      | [] => some ([], some (.output, none))
      | '=' :: value => some ([], some (.output, some value))
      | value => some ([], some (.output, some value))
    else none
  | _ => none

/-- What an argument that begins with a dash stands for: finished items, and a setting with its
value or still without one. -/
def optionItems? (known : List (String × Setting)) :
    Text → Option (List Item × Option (Setting × Option Text))
  | '-' :: '-' :: s =>
    let (name, value) := splitEquals s
    if name = "verbose".toList ∧ value = none then some ([.verbose], none)
    else (longSetting? known name).map fun setting => ([], some (setting, value))
  | '-' :: s => shortItems? known s
  | _ => none

/-- Reads arguments up to the end. After `--` none of them is an option. -/
def items? (known : List (String × Setting)) : List String → Option (List Item)
  | [] => some []
  | arg :: args =>
    if arg = "--" then some (args.map .positional)
    else if isValue arg.toList then (items? known args).map fun is => .positional arg :: is
    else
      match optionItems? known arg.toList with
      | none => none
      | some (done, none) => (items? known args).map fun is => done ++ is
      | some (done, some (setting, some value)) =>
        (items? known args).map fun is => done ++ .setting setting (String.ofList value) :: is
      | some (done, some (setting, none)) =>
        match args with
        | [] => none
        | value :: rest =>
          if isValue value.toList then
            (items? known rest).map fun is => done ++ .setting setting value :: is
          else none

/-! ### Commands -/

structure ApplyCommand where
  input : String
  selections : List Selection
  actions : List String
  view : ViewKind
  host : Host
  config : Option String
  output : Option String
  deriving DecidableEq, Repr

inductive Command where
  | apply (c : ApplyCommand)
  | actions (config : Option String)
  deriving DecidableEq, Repr

def valuesOf (s : Setting) (is : List Item) : List String :=
  is.filterMap fun
    | .setting t value => if t = s then some value else none
    | _ => none

def positionals (is : List Item) : List String :=
  is.filterMap fun
    | .positional value => some value
    | _ => none

/-- Flags count once at most. -/
def verboseOnce (is : List Item) : Bool := (is.filter (· == .verbose)).length ≤ 1

/-- The value of an option that is given once at most. -/
def single? (s : Setting) (is : List Item) : Option (Option String) :=
  match valuesOf s is with
  | [] => some none
  | [value] => some (some value)
  | _ => none

/-- A path has at least one character. -/
def path? (s : String) : Option String := if s = "" then none else some s

def pathOnce? (s : Setting) (is : List Item) : Option (Option String) :=
  match single? s is with
  | some (some value) => (path? value).map some
  | other => other

def view? : String → Option ViewKind
  | "rendered" => some .rendered
  | "markup" => some .markup
  | _ => none

def host? : String → Option Host
  | "modern" => some .modern
  | "legacy" => some .legacy
  | "none" => some .none
  | _ => none

def applyCommand? (is : List Item) : Option ApplyCommand := do
  if !verboseOnce is then none
  let [input] := positionals is | none
  let input ← path? input
  let selections ← (valuesOf .select is).mapM fun s => (Selection.read s.toList).toOption
  let view ← match ← single? .view is with
    | some s => view? s
    | none => some .rendered
  let host ← match ← single? .host is with
    | some s => host? s
    | none => some .modern
  let config ← pathOnce? .config is
  let output ← pathOnce? .output is
  return ⟨input, selections, valuesOf .action is, view, host, config, output⟩

def actionsCommand? (is : List Item) : Option Command := do
  if !verboseOnce is then none
  let [] := positionals is | none
  let config ← pathOnce? .config is
  return .actions config

/-- Reads the arguments of a command, given its name. -/
def command? (name : String) (args : List String) : Option Command :=
  match name with
  | "apply" => (items? Setting.applySettings args).bind fun is => (applyCommand? is).map .apply
  | "actions" => (items? Setting.actionsSettings args).bind actionsCommand?
  | _ => none

/-- Reads a command line without the program's name. Only flags may stand before the command. -/
def readArguments? : List String → Option Command
  | [] => none
  | "-v" :: name :: args => command? name args
  | "--verbose" :: name :: args => command? name args
  | name :: args => command? name args

end RichText.Cli
