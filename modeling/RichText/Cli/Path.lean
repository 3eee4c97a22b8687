import RichText.Text.Ascii

/-!
Paths as rows of components. Two paths are the same just if their components are, whatever slashes
and single dots stand between these or behind them.
-/

namespace RichText.Cli

/-- The parts of a path between slashes. -/
def parts : Text → List Text
  | [] => [[]]
  | '/' :: s => [] :: parts s
  | c :: s =>
    match parts s with
    | [] => [[c]]
    | first :: rest => (c :: first) :: rest

inductive Component where
  /-- The slash that an absolute path begins with. -/
  | root
  /-- A single dot at the beginning. -/
  | here
  /-- Two dots. -/
  | up
  | name (s : Text)
  deriving DecidableEq, Repr

/-- The component that a part stands for, if it is not at the beginning or no single dot. -/
def Component.ofPart? (part : Text) : Option Component :=
  if part = [] ∨ part = ['.'] then none
  else if part = ['.', '.'] then some up
  else some (name part)

/-- An empty path has no components. -/
def components (path : String) : List Component :=
  match parts path.toList with
  | [[]] => []
  | [] :: rest => .root :: rest.filterMap Component.ofPart?
  | ['.'] :: rest => .here :: rest.filterMap Component.ofPart?
  | all => all.filterMap Component.ofPart?

end RichText.Cli
