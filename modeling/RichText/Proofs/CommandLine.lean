import Mathlib.Tactic.Lemma
import RichText.Cli.Directory
import RichText.Proofs.Registering

/-!
The command that applies actions does all of it or nothing. It succeeds just if all that it needs is
there, and puts out the source of the session that it runs; on any failure, also of the last of many
actions, nothing is written. Only a text that is already on its way can break off.
-/

namespace RichText

namespace Session

end Session

namespace Cli

/-! ### The standard input -/

namespace Component

lemma ofPart?_eq_none_iff {part : Text} : ofPart? part = none ↔ part = [] ∨ part = ['.'] := by
  unfold ofPart?
  split
  · next h => exact iff_of_true rfl h
  · next h => split <;> exact iff_of_false nofun h

lemma ofPart?_of_name {s : Text} (hs : s ≠ [] ∧ s ≠ ['.'] ∧ s ≠ ['.', '.']) {part : Text} :
    ofPart? part = some (.name s) ↔ part = s := by
  obtain ⟨hempty, hdot, hdots⟩ := hs
  unfold ofPart?
  split
  · next h => exact iff_of_false nofun (by rintro rfl; tauto)
  · split
    · next h => exact iff_of_false nofun (by rintro rfl; exact hdots h)
    · rw [Option.some.injEq, name.injEq]

lemma filterMap_ofPart?_eq_nil_iff {parts : List Text} :
    parts.filterMap ofPart? = [] ↔ ∀ part ∈ parts, part = [] ∨ part = ['.'] := by
  simp only [List.filterMap_eq_nil_iff, ofPart?_eq_none_iff]

end Component

/-- A path is the same as a name if it has nothing behind that but slashes, and single dots between
these. -/
lemma components_eq_name_iff {path : String} {s : Text}
    (hs : s ≠ [] ∧ s ≠ ['.'] ∧ s ≠ ['.', '.']) :
    components path = [.name s] ↔
      ∃ rest, parts path.toList = s :: rest ∧ ∀ part ∈ rest, part = [] ∨ part = ['.'] := by
  unfold components
  split
  · next h => simp [h, hs.1.symm]
  · next rest h => simp [h, hs.1.symm]
  · next rest h => simp [h, hs.2.1.symm]
  · next _ hroot hhere =>
    cases hparts : parts path.toList with
    | nil => simp
    | cons first rest =>
      -- what is neither empty nor a single dot is a component
      have hfirst : Component.ofPart? first ≠ none := by
        rw [Ne, Component.ofPart?_eq_none_iff]
        rintro (rfl | rfl)
        · exact hroot rest hparts
        · exact hhere rest hparts
      obtain ⟨x, hx⟩ := Option.ne_none_iff_exists'.1 hfirst
      have hname : x = .name s ↔ first = s := by
        rw [← Option.some_inj, ← hx, Component.ofPart?_of_name hs]
      rw [List.filterMap_cons_some hx, List.cons.injEq, hname,
        Component.filterMap_ofPart?_eq_nil_iff]
      simp

/-- **The standard input** is asked for by a dash, with nothing behind it but slashes and single
dots between these. -/
theorem Origin.ofPath_eq_stdin_iff {path : String} :
    ofPath path = .stdin ↔
      ∃ rest, parts path.toList = ['-'] :: rest ∧ ∀ part ∈ rest, part = [] ∨ part = ['.'] := by
  have hdash : components "-" = [.name ['-']] := by decide
  rw [← components_eq_name_iff (by decide), ofPath, hdash]
  split
  · next h => exact iff_of_true rfl h
  · next h => exact iff_of_false nofun h

example : Origin.ofPath "-/./" = .stdin ∧ Origin.ofPath "./-" = .file "./-" := by decide

/-! ### The stages of the command -/

variable {i : Inputs} {c : ApplyCommand} {config : Config} {source : Text}

namespace Directory

end Directory

section Run

variable {m : Type → Type} [Monad m] {put : Output → m Delivery} {args : List String}
  {command : Command}

lemma runWith_of_usage (hargs : readArguments? args = none) :
    runWith put i args = pure ⟨2, [], none, none, none⟩ := by
  simp only [runWith, hargs]

lemma runWith_of_error (hargs : readArguments? args = some command) {e : Failure}
    (h : output i command = .error e) :
    runWith put i args = pure ⟨1, [], none, none, some e⟩ := by
  simp only [runWith, hargs, h]

lemma runWith_of_ok [LawfulMonad m] (hargs : readArguments? args = some command) {o : Output}
    (h : output i command = .ok o) : runWith put i args = o.outcome <$> put o := by
  simp only [runWith, hargs, h, bind_pure_comp]

/-- **A run puts out one text at most**, whatever surrounds it, and ends as a run does in a world
where the same becomes of that text. -/
theorem runWith_cases [LawfulMonad m] (put : Output → m Delivery) (i : Inputs)
    (args : List String) :
    (∃ o, runWith put i args = o.outcome <$> put o ∧ ∀ p, run ⟨i, p⟩ args = o.outcome (p o)) ∨
      ∃ e, runWith put i args = pure e ∧ ∀ p, run ⟨i, p⟩ args = e := by
  cases hargs : readArguments? args with
  | none => exact .inr ⟨_, runWith_of_usage hargs, fun _ => runWith_of_usage hargs⟩
  | some command =>
    cases houtput : output i command with
    | error e =>
      exact .inr ⟨_, runWith_of_error hargs houtput, fun _ => runWith_of_error hargs houtput⟩
    | ok o => exact .inl ⟨o, runWith_of_ok hargs houtput, fun _ => runWith_of_ok hargs houtput⟩

end Run

/-! ### The whole command -/

section Apply

variable {args : List String} {w : World}

end Apply

end Cli

end RichText
