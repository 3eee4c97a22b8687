import RichText.Cli.Run
import RichText.Kdl.Reader

/-!
The program. It reads what its command line needs, runs the command, and tells how that ended.
-/

namespace RichText.Cli

/-- The content of a file, if it can be read and is text. -/
def fileText (path : String) : IO (Option Text) := do
  try
    return some (← IO.FS.readFile path).toList
  catch _ => return none

def stdinText : IO (Except String Text) := do
  try
    return .ok (← (← IO.getStdin).readToEnd).toList
  catch e => return .error (toString e)

/-- The directory for configuration files: an absolute path in `XDG_CONFIG_HOME`, or `.config`
below the home directory. -/
def configDirectory : IO (Option String) := do
  match ← IO.getEnv "XDG_CONFIG_HOME" with
  | some dir => if dir.startsWith "/" then return some dir
  | none => pure ()
  return (← IO.getEnv "HOME").map fun home => home ++ "/.config"

def defaultConfigFile : IO (Option ConfigFile) := do
  match ← configDirectory with
  | none => return none
  | some dir =>
    let path := dir ++ "/toolbox/config.kdl"
    try
      let _ ← IO.FS.Handle.mk path .read
      return some ⟨path, ← fileText path⟩
    catch _ => return none

/-- Reads what a command line asks for, and nothing else. -/
def readInputs (args : List String) : IO Inputs := do
  let origins := (readArguments? args).elim [] Command.origins
  let stdin ← if .stdin ∈ origins then stdinText else pure (.error "not read")
  let files ← origins.filterMapM fun
    | .stdin => return none
    | .file path => return some (path, ← fileText path)
  return {
    stdin := stdin
    read := fun path => (files.lookup path).join
    defaultConfig := ← defaultConfigFile
    nodes? := Kdl.read? }

/-- Writes a text through a handle or a stream. -/
def deliver (write : IO Unit) : IO Delivery := do
  try
    write
    return .whole
  catch e => return .broken (toString e)

/-- Puts a text out. A file is emptied when it is opened for that. -/
def put (o : Output) : IO Delivery := do
  let text := String.ofList o.text
  match o.file with
  | none =>
    let out ← IO.getStdout
    deliver do
      out.putStr text
      out.flush
  | some path =>
    try
      let handle ← IO.FS.Handle.mk path .write
      deliver do
        handle.putStr text
        handle.flush
    catch e => return .refused (toString e)

/-- Tells how a run ended; the answer is the exit status. -/
def report (o : Outcome) : IO UInt32 := do
  if let some e := o.failure then IO.eprintln ("Error: " ++ e.message)
  if o.status = 2 then IO.eprintln "usage: toolbox <apply INPUT | actions> [OPTIONS]"
  return o.status.toUInt32

end RichText.Cli

def main (args : List String) : IO UInt32 := do
  let inputs ← RichText.Cli.readInputs args
  RichText.Cli.report (← RichText.Cli.runWith RichText.Cli.put inputs args)
