import RichText.Cli.Run
import RichText.Kdl.Reader

/-!
A working directory that holds some files and no directories, as a world for commands. There is no
limit on the length of a name, and always room for a text.
-/

namespace RichText.Cli

structure Directory where
  files : List (String × Text)
  deriving DecidableEq, Repr

namespace Directory

/-- The name of a file of the directory, if a path leads to such a file. Empty parts and single dots
before the name do not matter, but a path that begins with a slash leads elsewhere. -/
def fileName? (path : String) : Option String :=
  match parts path.toList with
  | [] :: _ => none
  | ps =>
    match ps.dropWhile fun p => p = [] ∨ p = ['.'] with
    | [name] => if name = ['.', '.'] then none else some (String.ofList name)
    | _ => none

def read? (d : Directory) (path : String) : Option Text :=
  (fileName? path).bind fun name => (d.files.find? fun f => f.1 == name).map (·.2)

/-- The directory after a file has been written. -/
def write (d : Directory) (path : String) (text : Text) : Directory :=
  match fileName? path with
  | some name => ⟨(name, text) :: d.files.filter fun f => f.1 != name⟩
  | none => d

/-- A file of the directory can be written, and so can the standard output. -/
def put (o : Output) : Delivery :=
  match o.file with
  | none => .whole
  | some path => if (fileName? path).isSome then .whole else .refused "no file of the directory"

def world (d : Directory) (stdin : Text) (defaultConfig : Option ConfigFile) : World where
  stdin := .ok stdin
  read := d.read?
  defaultConfig := defaultConfig
  nodes? := Kdl.read?
  put := put

/-- The directory after a run. A file whose writing broke off counts as empty. -/
def after (d : Directory) (o : Outcome) : Directory :=
  match o.written, o.brokenOff with
  | some (path, text), _ => d.write path text
  | none, some ⟨some path, _⟩ => d.write path []
  | none, _ => d

end Directory

end RichText.Cli
