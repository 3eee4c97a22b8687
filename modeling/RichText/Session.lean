import RichText.Registry
import RichText.Views

/-!
An editing session: a registry of actions and a document in two views. A session takes one step at
a time, and each step has an answer.
-/

namespace RichText

structure Session where
  registry : Registry
  views : Views
  deriving DecidableEq, Repr

namespace Session

inductive Step where
  | selectRendered (sel : Option Selection)
  | addRange (sel : Selection)
  | selectMarkup (sel : Selection)
  | typeRendered (s : Text)
  | typeMarkup (s : Text)
  | setMarkup (s : Text)
  | refreshSource
  | refreshCanvas
  | refresh
  /-- Runs a transform that need not belong to an action. -/
  | apply (t : Transform)
  | act (name : String)
  | register (a : Action)
  deriving DecidableEq, Repr

inductive Answer where
  | done
  /-- Whether there was something to act on. -/
  | applied (b : Bool)
  | failed (e : ActionError)
  deriving DecidableEq, Repr

def apply (s : Session) (t : Transform) : Session × Bool :=
  let r := s.views.apply t s.registry.policy
  ({ s with views := r.1 }, r.2)

/-- Runs the action of that name. -/
def act (s : Session) (name : String) : Except ActionError (Session × Bool) :=
  match s.registry.find? name with
  | some a => .ok (s.apply a.transform)
  | none => .error (s.registry.unknown name)

def register (s : Session) (a : Action) : Except ActionError Session :=
  (s.registry.register a).map fun r => { s with registry := r }

/-- A step that changes the views and nothing else. -/
def withViews (s : Session) (d : Views) : Session × Answer := ({ s with views := d }, .done)

/-- A step that fails leaves the session as it is. -/
def step (s : Session) : Step → Session × Answer
  | .selectRendered sel => s.withViews (s.views.selectRendered sel)
  | .addRange sel => s.withViews (s.views.addRange sel)
  | .selectMarkup sel => s.withViews (s.views.selectMarkup sel)
  | .typeRendered t => s.withViews (s.views.typeRendered t)
  | .typeMarkup t => s.withViews (s.views.typeMarkup t)
  | .setMarkup t => s.withViews (s.views.setMarkup t)
  | .refreshSource => s.withViews s.views.refreshSource
  | .refreshCanvas => s.withViews s.views.refreshCanvas
  | .refresh => s.withViews s.views.refresh
  | .apply t => ((s.apply t).1, .applied (s.apply t).2)
  | .act name =>
    match s.act name with
    | .ok (next, b) => (next, .applied b)
    | .error e => (s, .failed e)
  | .register a =>
    match s.register a with
    | .ok next => (next, .done)
    | .error e => (s, .failed e)

theorem step_act (s : Session) (name : String) :
    s.step (.act name) =
      match s.registry.find? name with
      | some a => ((s.apply a.transform).1, .applied (s.apply a.transform).2)
      | none => (s, .failed (s.registry.unknown name)) := by
  simp only [step, act]
  cases s.registry.find? name <;> rfl

@[simp] theorem views_step_register (s : Session) (a : Action) :
    (s.step (.register a)).1.views = s.views := by
  simp only [step, register]
  cases s.registry.register a <;> rfl

def run (s : Session) (steps : List Step) : Session :=
  steps.foldl (fun s step => (s.step step).1) s

@[simp] theorem run_nil (s : Session) : s.run [] = s := rfl
@[simp] theorem run_cons (s : Session) (step : Step) (steps : List Step) :
    s.run (step :: steps) = (s.step step).1.run steps := rfl
theorem run_append (s : Session) (a b : List Step) : s.run (a ++ b) = (s.run a).run b := by
  simp [run, List.foldl_append]

/-- What each step of a run keeps, the run keeps. -/
theorem run_induction {P : Session → Prop} {steps : List Step}
    (hstep : ∀ s, ∀ step ∈ steps, P s → P (s.step step).1) {s : Session} (h : P s) :
    P (s.run steps) := by
  induction steps generalizing s with
  | nil => exact h
  | cons step steps ih =>
    obtain ⟨hfirst, hrest⟩ := List.forall_mem_cons.1 fun step hmem s => hstep s step hmem
    exact ih (fun s step hmem => hrest step hmem s) (hfirst s h)

end Session

end RichText
