import RichText.Cli.Arguments
import RichText.Cli.Path
import RichText.Config
import RichText.Session

/-!
What a command does to the world around it: it reads what it needs, and then puts out at most one
text, to a file or to the standard output. A command that fails before it has its text puts out
nothing. A file is something else than the standard output.
-/

namespace RichText.Cli

/-! ### What a command reads -/

/-- What a command may ask for, and how a configuration file is read into nodes. The standard input
is a text, or the reason why there is none; a file that does not exist or is no text has no content. -/
structure Inputs where
  stdin : Except String Text
  read : String → Option Text
  defaultConfig : Option ConfigFile
  nodes? : Text → Option (List Kdl.Node)

/-- What a path given for an input stands for. -/
inductive Origin where
  | stdin
  | file (path : String)
  deriving DecidableEq, Repr

/-- A path that is the same as a lone dash stands for the standard input. -/
def Origin.ofPath (path : String) : Origin :=
  if components path = components "-" then stdin else file path

/-- What a command reads, in order. -/
def Command.origins : Command → List Origin
  | .apply c => c.config.toList.map .file ++ [.ofPath c.input]
  | .actions config => config.toList.map .file

inductive Failure where
  | config (e : ConfigError)
  | action (e : ActionError)
  | stdin (why : String)
  | unreadable (path : String)
  | manySelections
  /-- The file for the output could not be opened or not be written. -/
  | unwritable (why : String)
  /-- The standard output could not be written. -/
  | unprintable (why : String)
  deriving DecidableEq, Repr

def Failure.message : Failure → String
  | .config e => e.diagnostic.message
  | .action e => e.diagnostic.message
  | .stdin why => why
  | .unreadable path => "could not read " ++ path
  | .manySelections => "the markup view supports a single --select range"
  | .unwritable why => why
  | .unprintable why => "failed printing to stdout: " ++ why

/-- The views of a document with selections in one of them. The source has one selection. -/
def openDocument (source : Text) (view : ViewKind) (host : Host) (selections : List Selection) :
    Except Failure Views :=
  match view, selections with
  | .rendered, [] => .ok (.ofCanvas (.ofMarkup source host))
  | .rendered, first :: rest =>
    let views := Views.ofCanvas (.ofMarkup source host)
    .ok (rest.foldl Views.addRange (views.selectRendered (some first)))
  | .markup, [] => .ok (.ofMarkup source host)
  | .markup, [sel] => .ok ((Views.ofMarkup source host).selectMarkup sel)
  | .markup, _ => .error .manySelections

/-- A file that is asked for has to be there; the default one need not. -/
def Inputs.loadConfig (i : Inputs) (path : Option String) : Except ConfigError Config :=
  match path with
  | some p => Config.load i.nodes? (some ⟨p, i.read p⟩)
  | none => Config.load i.nodes? i.defaultConfig

def Inputs.source (i : Inputs) (path : String) : Except Failure Text :=
  match Origin.ofPath path with
  | .stdin => i.stdin.mapError .stdin
  | .file path =>
    match i.read path with
    | some s => .ok s
    | none => .error (.unreadable path)

/-! ### What a command puts out -/

def openSession (i : Inputs) (c : ApplyCommand) : Except Failure Session := do
  let config ← (i.loadConfig c.config).mapError .config
  let source ← i.source c.input
  let views ← openDocument source c.view c.host c.selections
  let registry ← config.registry.mapError .action
  return ⟨registry, views⟩

/-- Runs the named actions in order, up to the first that is not known. -/
def runActions (s : Session) (names : List String) : Except Failure Session :=
  names.foldlM (fun s name => ((s.act name).map (·.1)).mapError .action) s

/-- A text for a file or for the standard output. -/
structure Output where
  file : Option String
  text : Text
  deriving DecidableEq, Repr

/-- A line of the standard output, or the whole of a file. -/
def ApplyCommand.destination (c : ApplyCommand) (text : Text) : Output :=
  match c.output with
  | none => ⟨none, text ++ ['\n']⟩
  | some path => ⟨some path, text⟩

def applyOutput (i : Inputs) (c : ApplyCommand) : Except Failure Output := do
  let s ← openSession i c
  let s ← runActions s c.actions
  return c.destination s.views.source.content

def actionsOutput (i : Inputs) (path : Option String) : Except Failure Output := do
  let config ← (i.loadConfig path).mapError .config
  let registry ← config.registry.mapError .action
  return ⟨none, registry.names.flatMap fun name => name.toList ++ ['\n']⟩

def output (i : Inputs) : Command → Except Failure Output
  | .apply c => applyOutput i c
  | .actions path => actionsOutput i path

/-! ### How a run ends -/

/-- What becomes of a text that is put out. -/
inductive Delivery where
  | whole
  /-- Nothing came of it: a file could not be opened, and is as it was. -/
  | refused (why : String)
  /-- The output broke off. A file has been emptied before, and has a beginning of the text. -/
  | broken (why : String)
  deriving DecidableEq, Repr

/-- How a run ends: with an exit status, a text on the standard output, one in a file, one of which
only a beginning got where it should, and the reason if the run failed. -/
structure Outcome where
  status : Nat
  stdout : Text := []
  written : Option (String × Text) := none
  brokenOff : Option Output := none
  failure : Option Failure := none
  deriving DecidableEq, Repr

/-- How a run ends that has got as far as to put a text out. Status 101 is that of a panic, which is
what a program does that cannot print. -/
def Output.outcome (o : Output) (d : Delivery) : Outcome :=
  match o.file, d with
  | none, .whole => ⟨0, o.text, none, none, none⟩
  | none, .refused why => ⟨101, [], none, none, some (.unprintable why)⟩
  | none, .broken why => ⟨101, [], none, some o, some (.unprintable why)⟩
  | some path, .whole => ⟨0, [], some (path, o.text), none, none⟩
  | some _, .refused why => ⟨1, [], none, none, some (.unwritable why)⟩
  | some _, .broken why => ⟨1, [], none, some o, some (.unwritable why)⟩

/-- Runs a command line, given how a text is put out. Status 2 tells of a line that is no command,
status 1 of a command that failed. -/
def runWith {m : Type → Type} [Monad m] (put : Output → m Delivery) (i : Inputs)
    (args : List String) : m Outcome :=
  match readArguments? args with
  | none => return ⟨2, [], none, none, none⟩
  | some command =>
    match output i command with
    | .error e => return ⟨1, [], none, none, some e⟩
    | .ok o => return o.outcome (← put o)

/-- Inputs, with what becomes of each text that is put out. -/
structure World extends Inputs where
  put : Output → Delivery

def run (w : World) (args : List String) : Outcome :=
  Id.run (runWith (fun o => pure (w.put o)) w.toInputs args)

end RichText.Cli
