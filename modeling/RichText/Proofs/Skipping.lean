import Mathlib.Tactic.Lemma
import RichText.Proofs.Agreement
import RichText.Proofs.Clamping

/-!
Skipped actions. An action without anything to act on leaves the active view as it is, but the other
view is made anew all the same. So a skipped action changes something just when the other view did
not show what is made of the active one: a source in a spelling of its own, or a canvas that reading
its markup does not give back.
-/

namespace RichText

/-! ### The selection of a source -/

namespace Source

/-- The selection is in the text. -/
def Inside (v : Source) : Prop := v.selection.stop ≤ v.length

variable {v : Source}

lemma inside_ofText (s : Text) : (ofText s).Inside := Nat.zero_le s.length

lemma inside_setContent (v : Source) (s : Text) : (v.setContent s).Inside :=
  v.selection.clamp_stop_le s.length

lemma inside_select (v : Source) (sel : Selection) : (v.select sel).Inside :=
  sel.clamp_stop_le v.length

lemma Inside.splice (h : v.Inside) (s : Text) : (v.splice s).Inside := by
  have hstart : v.selection.start ≤ v.content.length := Nat.le_trans v.selection.start_le_stop h
  have hle := v.selection.start_le_stop
  have hlen : v.selection.start + s.length ≤
      (Chars.replace v.content v.selection.start v.selection.stop s).length := by
    rw [Chars.replace_eq]
    simp only [List.length_append, List.length_take]
    omega
  exact Nat.le_trans (Nat.le_of_eq (Selection.stop_caret _)) hlen

lemma Inside.edit (h : v.Inside) (e : Edit) : (v.edit e).Inside := by
  cases e with
  | replace i => exact h.splice i.markup
  | unformat =>
    rw [Source.edit]
    split
    · exact h
    · exact h.splice _

/-- Writing the content that a source has already leaves the selection too. -/
lemma Inside.setContent_content (h : v.Inside) : v.setContent v.content = v := by
  have hclamp : v.selection.clamp v.content.length = v.selection := Selection.clamp_of_stop_le h
  rw [setContent, hclamp]

end Source

/-! ### Making the other view anew -/

namespace Views

/-- How a session begins: with markup, or with a canvas that shows any document at all. -/
inductive Begun : Views → Prop
  | markup (s : Text) (host : Host) : Begun (.ofMarkup s host)
  | canvas (v : Canvas) : Begun (.ofCanvas v)

variable {d : Views}

lemma Begun.inside (h : Begun d) : d.source.Inside := by
  cases h <;> exact Source.inside_ofText _

lemma inside_refresh (h : d.source.Inside) : d.refresh.source.Inside := by
  rw [refresh]
  split
  · exact Source.inside_setContent _ _
  · exact h

/-- The source stays just if it is the active view or what the canvas is written as. -/
lemma source_refresh_eq_iff (h : d.source.Inside) :
    d.refresh.source = d.source ↔
      d.active = .markup ∨ d.source.content = d.canvas.markup := by
  cases hd : d.active with
  | rendered =>
    simp only [refresh, hd, refreshSource, reduceCtorEq, false_or]
    refine ⟨fun heq => (congrArg Source.content heq).symm, fun heq => ?_⟩
    rw [← heq, h.setContent_content]
  | markup => simp only [refresh, hd, refreshCanvas, true_or]

/-- The canvas is written the same just if it is the active view or the views agree. -/
lemma markup_refresh_eq_iff :
    d.refresh.canvas.markup = d.canvas.markup ↔ d.active = .rendered ∨ d.agree = true := by
  cases hd : d.active with
  | rendered => simp only [refresh, hd, refreshSource, true_or]
  | markup =>
    have hread : d.refreshCanvas.canvas.nodes = parse d.source.content := inStep_refreshCanvas d
    simp only [refresh, hd, reduceCtorEq, false_or, agree, beq_iff_eq]
    rw [Canvas.markup, hread]
    exact eq_comm

lemma InStep.nodes_refresh (h : d.InStep) : d.refresh.canvas.nodes = d.canvas.nodes := by
  rw [refresh]
  split
  · rfl
  · exact h.nodes_refreshCanvas

lemma apply_of_skipped {t : Transform} {policy : Policy} (h : (d.apply t policy).2 = false) :
    (d.apply t policy).1 = d.refresh := by
  obtain ⟨v, source, active⟩ := d
  cases active with
  | rendered =>
    have hsame : (t.run policy v).1 = v := Transform.run_of_skipped h
    simp only [apply, hsame]
  | markup =>
    have hsame : (t.run policy source).1 = source := Transform.run_of_skipped h
    simp only [apply, hsame]

lemma inside_apply (h : d.source.Inside) (t : Transform) (policy : Policy) :
    (d.apply t policy).1.source.Inside := by
  obtain ⟨v, source, active⟩ := d
  cases active with
  | rendered => exact inside_refresh (d := ⟨_, source, .rendered⟩) h
  | markup =>
    exact inside_refresh (d := ⟨v, _, .markup⟩)
      (Transform.run_induction (P := Source.Inside) (fun _ e hv => hv.edit e) h t policy)

end Views

namespace Session

lemma inside_step {s : Session} (h : s.views.source.Inside) (step : Step) :
    (s.step step).1.views.source.Inside := by
  cases step with
  | selectRendered sel => exact h
  | addRange sel => exact h
  | selectMarkup sel => exact Source.inside_select _ sel
  | typeRendered t => exact Source.inside_setContent _ _
  | typeMarkup t => exact h.edit _
  | setMarkup t => exact Source.inside_setContent _ t
  | refreshSource => exact Source.inside_setContent _ _
  | refreshCanvas => exact h
  | refresh => exact Views.inside_refresh h
  | apply t => exact Views.inside_apply h t s.registry.policy
  | act name =>
    rw [step_act]
    split
    · next a _ => exact Views.inside_apply h a.transform s.registry.policy
    · exact h
  | register a =>
    rw [views_step_register]
    exact h

lemma inside_run {s : Session} (h : s.views.source.Inside) (steps : List Step) :
    (s.run steps).views.source.Inside :=
  run_induction (P := fun s => s.views.source.Inside) (fun _ step _ hs => inside_step hs step) h

/-- **A skipped action makes the other view anew** and does nothing else. After any steps it leaves
the markup of the canvas just if the canvas is active or the views agree, as they always do when a
session was opened with markup or with a readable document; and it leaves the source, its selection
included, just if the source is active or is what the canvas is written as. -/
theorem act_skipped {d : Views} (h : d.Begun) (r : Registry) (steps : List Step) {name : String}
    {next : Session} (hact : ((⟨r, d⟩ : Session).run steps).act name = .ok (next, false)) :
    let s := (⟨r, d⟩ : Session).run steps
    next = { s with views := s.views.refresh } ∧
      (next.views.canvas.markup = s.views.canvas.markup ↔
        s.views.active = .rendered ∨ s.views.agree = true) ∧
      (next.views.source = s.views.source ↔
        s.views.active = .markup ∨ s.views.source.content = s.views.canvas.markup) ∧
      (d.Opened → next.views.canvas.nodes = s.views.canvas.nodes) := by
  intro s
  have hnext : next = { s with views := s.views.refresh } := by
    rw [act] at hact
    split at hact
    · next a _ =>
      obtain ⟨hnext, hskipped⟩ := Prod.mk.inj (Except.ok.inj hact)
      rw [← hnext]
      exact congrArg (Session.mk s.registry) (Views.apply_of_skipped hskipped)
    · cases hact
  subst hnext
  refine ⟨rfl, Views.markup_refresh_eq_iff,
    Views.source_refresh_eq_iff (inside_run h.inside steps), fun hopened => ?_⟩
  have hstep : s.views.InStep := inStep_run (s := ⟨r, d⟩) hopened.inStep steps
  exact hstep.nodes_refresh

/-- A skipped action may change either view: a source that leaves a tag open is written anew, and a
canvas with a name that markup cannot have is read anew. -/
theorem skipped_act_changes :
    let r : Registry := ⟨Standard.actions {}, .verbatim⟩
    let s := (⟨r, .ofMarkup "<b>x".toList .modern⟩ : Session).run [.selectRendered none]
    let t := (⟨r, .ofCanvas (.ofNodes [.element ⟨"a b".toList, []⟩ []] .modern)⟩ : Session).run
      [.selectMarkup ⟨0, 0⟩]
    s.views.source.content = "<b>x".toList ∧
      (s.act "makeTextBold").toOption.map (fun a => (a.1.views.source.content, a.2)) =
        some ("<b>x</b>".toList, false) ∧
      t.views.canvas.markup = "<a b></a b>".toList ∧
      (t.act "makeTextBold").toOption.map (fun a => (a.1.views.canvas.markup, a.2)) =
        some ("<a b=\"\"></a>".toList, false) := by
  decide +kernel

/-- A word is typed in the source and nothing is selected in it: a skipped action changes nothing. -/
theorem act_skipped_typed :
    let r : Registry := ⟨Standard.actions {}, .verbatim⟩
    let d : Views := .ofMarkup "<b>x".toList .legacy
    let steps : List Step := [.selectMarkup ⟨4, 4⟩, .typeMarkup "y".toList]
    let s := (⟨r, d⟩ : Session).run steps
    let next : Session := { s with views := s.views.refresh }
    d.Begun ∧ d.Opened ∧ s.act "makeTextBold" = .ok (next, false) ∧
      s.views.source = ⟨"<b>xy".toList, .caret 5⟩ ∧ next.views.source = s.views.source ∧
      next.views.canvas.nodes = s.views.canvas.nodes := by
  intro r d steps s next
  have hbegun : d.Begun := .markup _ _
  have hopened : d.Opened := .markup _ _
  have happly : s.apply (.wrap "b".toList) = (next, false) := by decide +kernel
  have hact : s.act "makeTextBold" = .ok (next, false) := congrArg Except.ok happly
  obtain ⟨-, -, hsource, hcanvas⟩ := act_skipped hbegun r steps hact
  exact ⟨hbegun, hopened, hact, by decide +kernel, hsource.2 (.inl rfl), hcanvas hopened⟩

end Session

end RichText
