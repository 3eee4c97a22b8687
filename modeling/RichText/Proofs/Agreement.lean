import Mathlib.Tactic.Lemma
import RichText.Proofs.Edits
import RichText.Registry.Standard
import RichText.Session

/-!
The two views stay in step: after each step of a session the canvas shows what reading the source
gives. The steps that change the canvas write the source anew, and that is read back because the
canvas never leaves the readable documents.
-/

namespace RichText

namespace Views

/-- The canvas shows what the source says. -/
def InStep (d : Views) : Prop := d.canvas.nodes = parse d.source.content

/-- How a session begins: with markup, or with a canvas that shows a readable document. -/
inductive Opened : Views → Prop
  | markup (s : Text) (host : Host) : Opened (.ofMarkup s host)
  | canvas (v : Canvas) (h : Readable v.nodes) : Opened (.ofCanvas v)

variable {d : Views}

lemma InStep.readable (h : d.InStep) : Readable d.canvas.nodes := by
  rw [h]
  exact readable_parse _

/-- Views in step agree; agreeing compares their markup only. -/
lemma InStep.agree (h : d.InStep) : d.agree = true := by
  rw [Views.agree, Canvas.markup, h]
  exact beq_self_eq_true _

lemma inStep_refreshSource (h : Readable d.canvas.nodes) : d.refreshSource.InStep :=
  h.parse_markup.symm

lemma inStep_refreshCanvas (d : Views) : d.refreshCanvas.InStep :=
  normalize_of_isNormal (isNormal_parse d.source.content)

lemma InStep.nodes_refreshCanvas (h : d.InStep) :
    d.refreshCanvas.canvas.nodes = d.canvas.nodes :=
  (inStep_refreshCanvas d).trans h.symm

lemma inStep_refresh (h : Readable d.canvas.nodes) : d.refresh.InStep := by
  rw [refresh]
  split
  · exact inStep_refreshSource h
  · exact inStep_refreshCanvas d

lemma Opened.inStep (h : Opened d) : d.InStep := by
  cases h with
  | markup s host => exact normalize_of_isNormal (isNormal_parse s)
  | canvas v h => exact h.parse_markup.symm

/-! ### Steps -/

lemma InStep.typeRendered (h : d.InStep) (s : Text) : (d.typeRendered s).InStep := by
  refine inStep_refreshSource ?_
  rw [nodes_typed]
  exact Canvas.readable_edit h.readable _

lemma InStep.apply (h : d.InStep) (t : Transform) (policy : Policy) :
    (d.apply t policy).1.InStep := by
  rw [Views.apply]
  split
  · -- the transform leaves a readable canvas, from which the source is written
    refine inStep_refresh ?_
    exact Transform.run_induction (P := fun v : Canvas => Readable v.nodes)
      (fun v e hv => Canvas.readable_edit hv e) h.readable t policy
  · exact inStep_refresh h.readable

end Views

namespace Session

/-- Each step keeps the views in step, also one that fails. -/
lemma inStep_step {s : Session} (h : s.views.InStep) (step : Step) :
    (s.step step).1.views.InStep := by
  cases step with
  | selectRendered sel => exact h
  | addRange sel => exact h
  | selectMarkup sel => exact h
  | typeRendered t => exact h.typeRendered t
  | typeMarkup t => exact Views.inStep_refreshCanvas _
  | setMarkup t => exact Views.inStep_refreshCanvas _
  | refreshSource => exact Views.inStep_refreshSource h.readable
  | refreshCanvas => exact Views.inStep_refreshCanvas _
  | refresh => exact Views.inStep_refresh h.readable
  | apply t => exact h.apply t s.registry.policy
  | act name =>
    rw [step_act]
    split
    · next a _ => exact h.apply a.transform s.registry.policy
    · exact h
  | register a =>
    rw [views_step_register]
    exact h

lemma inStep_run {s : Session} (h : s.views.InStep) (steps : List Step) :
    (s.run steps).views.InStep :=
  run_induction (P := fun s => s.views.InStep) (fun _ step _ hs => inStep_step hs step) h

/-- **After every step of a session**, with any registry and host, the canvas shows what reading the
source gives, and so the views agree. -/
theorem canvas_eq_parse_source {d : Views} (h : d.Opened) (r : Registry) (steps : List Step) :
    ((⟨r, d⟩ : Session).run steps).views.canvas.nodes =
        parse ((⟨r, d⟩ : Session).run steps).views.source.content ∧
      ((⟨r, d⟩ : Session).run steps).views.agree = true := by
  have hrun := inStep_run (s := ⟨r, d⟩) h.inStep steps
  exact ⟨hrun, hrun.agree⟩

/-- On a host that pastes markup, text is made bold; the source escapes what the canvas shows. -/
theorem canvas_eq_parse_source_bold :
    (Views.ofCanvas (.ofMarkup "a &lt; b".toList .legacy)).Opened ∧
      let s : Session := ⟨⟨Standard.actions {}, .escaped⟩,
        .ofCanvas (.ofMarkup "a &lt; b".toList .legacy)⟩
      let views := (s.run [.selectRendered (some ⟨2, 3⟩), .act "makeTextBold"]).views
      views.source.content = "a <b>&lt;</b> b".toList ∧
        views.canvas.nodes = parse views.source.content ∧ views.agree = true := by
  have h : (Views.ofCanvas (.ofMarkup "a &lt; b".toList .legacy)).Opened :=
    .canvas _ ⟨isNormal_normalize _, wellFormed_normalize (wellFormed_parse _)⟩
  exact ⟨h, by decide +kernel, canvas_eq_parse_source h _ _⟩

end Session

end RichText
