import Mathlib.Tactic.Lemma
import RichText.Proofs.Edits
import RichText.Proofs.Offsets
import RichText.Proofs.StandardActions
import RichText.Session

/-!
The two selection interfaces give the same documents. They make nodes in different ways and leave
other ranges behind, so two sessions are compared in all but the ranges, which count again only
right after a selection has been made in both.
-/

namespace RichText

namespace Canvas

/-- Two canvases show the same document, one on each kind of host. -/
structure Alike (v w : Canvas) : Prop where
  nodes : v.nodes = w.nodes
  modern : v.host = .modern
  legacy : w.host = .legacy

/-- They also have the same selection, of one range at most. -/
structure Focused (v w : Canvas) : Prop extends Alike v w where
  ranges : v.ranges = w.ranges
  single : v.ranges.length ≤ 1

variable {v w : Canvas}

lemma length_ranges_select (v : Canvas) (sel : Option Selection) :
    (v.select sel).ranges.length ≤ 1 := by
  cases sel with
  | none => exact Nat.zero_le 1
  | some s => exact Nat.le_refl 1

lemma Alike.select (h : Alike v w) (sel : Option Selection) :
    Focused (v.select sel) (w.select sel) where
  nodes := h.nodes
  modern := h.modern
  legacy := h.legacy
  ranges := by simp only [Canvas.select, length, text, h.nodes]
  single := length_ranges_select v sel

lemma Focused.primary? (h : Focused v w) : v.primary? = w.primary? :=
  congrArg List.head? h.ranges

lemma Focused.selectedText (h : Focused v w) : v.selectedText = w.selectedText := by
  have htext : v.textIn = w.textIn := by
    funext sel
    rw [textIn, textIn, h.nodes]
  rw [Canvas.selectedText, Canvas.selectedText, readPrimary, readPrimary, h.modern, h.legacy,
    h.primary?, htext]
  cases w.primary? <;> rfl

lemma Alike.edit_eq (h : Alike v w) (e : Edit) :
    v.edit e = v.editRange e ∧ w.edit e = w.editTextRange e := by
  rw [edit, edit, h.modern, h.legacy]
  exact ⟨rfl, rfl⟩

lemma Alike.edit (h : Alike v w) {e : Edit} (hn : (v.edit e).nodes = (w.edit e).nodes) :
    Alike (v.edit e) (w.edit e) where
  nodes := hn
  modern := (host_edit v e).trans h.modern
  legacy := (host_edit w e).trans h.legacy

/-- **An insertion** that both interfaces make the same nodes of leads to the same document. -/
lemma Focused.replace (h : Focused v w) {i : Insertion} (hi : i.Plain) :
    Alike (v.edit (.replace i)) (w.edit (.replace i)) := by
  refine h.toAlike.edit ?_
  obtain ⟨hv, hw⟩ := h.toAlike.edit_eq (.replace i)
  rw [hv, hw]
  simp only [editRange, editTextRange, h.primary?, Insertion.built?_eq_pasted hi]
  cases w.primary? with
  | none => exact h.nodes
  | some sel => simp only [nodes_replaceSelecting, nodes_replaceLeaving, h.nodes]

/-- Without text in it, what is put in is not selected afterwards through either interface. -/
lemma Focused.replace_charless (h : Focused v w) {i : Insertion} (hi : i.Plain)
    (hchars : charsOf (tokens i.pasted) = []) :
    Focused (v.edit (.replace i)) (w.edit (.replace i)) := by
  refine ⟨h.replace hi, ?_, ?_⟩
  all_goals
    obtain ⟨hv, hw⟩ := h.toAlike.edit_eq (.replace i)
    rw [hv]
  · rw [hw]
    simp only [editRange, editTextRange, h.primary?, Insertion.built?_eq_pasted hi]
    cases w.primary? with
    | none => exact h.ranges
    | some sel =>
      simp only [replaceSelecting, replaceLeaving, select, length, text, nodes_replaceRange,
        h.nodes, start_replaceSelected, stop_replaceSelected, hchars]
      rfl
  · simp only [editRange]
    split
    · exact length_ranges_select _ _
    · exact h.single

/-- Of at most one range, both interfaces take the formatting away. -/
lemma Focused.unformat (h : Focused v w) : Alike (v.edit .unformat) (w.edit .unformat) := by
  refine h.toAlike.edit ?_
  obtain ⟨hv, hw⟩ := h.toAlike.edit_eq .unformat
  have hsel := h.primary?
  rw [hv, hw]
  rw [Canvas.primary?] at hsel
  rcases hranges : v.ranges with _ | ⟨sel, _ | ⟨other, sels⟩⟩
  · rw [hranges] at hsel
    simp only [editRange, editTextRange, unformatRanges, hranges, ← hsel]
    exact h.nodes
  · rw [hranges] at hsel
    simp only [editRange, editTextRange, unformatRanges, hranges, ← hsel, List.head?_cons,
      List.foldl_cons, List.foldl_nil, unformatRange]
    split
    · exact h.nodes
    · simp only [nodes_replaceRange, nodes_replaceLeaving, textIn, h.nodes]
  · have hlen := h.single
    rw [hranges] at hlen
    simp at hlen

end Canvas

/-! ### Transforms -/

/-- What is put into markup has no tags, because they are escaped or because there are none. -/
lemma Policy.lt_notMem_content {policy : Policy} {text : Text}
    (h : policy = .escaped ∨ '<' ∉ text) : '<' ∉ policy.content text := by
  cases policy with
  | escaped => exact lt_notMem_escapeText text
  | verbatim => exact h.resolve_left nofun

namespace Canvas

variable {v w : Canvas}

/-- The edits of a transform are made on alike selections, each but the last leaving such. -/
lemma Focused.edits {content : Text} (hlt : '<' ∉ content) {t : Transform} (ht : t.Plain)
    (h : Focused v w) :
    Alike ((t.edits content).foldl Surface.edit v) ((t.edits content).foldl Surface.edit w) := by
  induction t generalizing v w with
  | wrap name => exact h.replace ⟨ht.1, ht.2, hlt⟩
  | enclose opening closing => exact h.replace trivial
  | lineBreak => exact h.replace trivial
  | breakThen next ih =>
    exact ih ht (h.replace_charless trivial (by rw [Insertion.pasted_lineBreak]; rfl))
  | delete => exact h.replace trivial
  | unformat => exact h.unformat

/-- **A transform** of the same selection leads to the same document and answer, if what it puts
into markup cannot be taken for a tag. -/
theorem Focused.run (h : Focused v w) {t : Transform} (ht : t.Plain) {policy : Policy}
    (hlt : '<' ∉ policy.content v.selectedText) :
    Alike (t.run policy v).1 (t.run policy w).1 ∧ (t.run policy v).2 = (t.run policy w).2 := by
  have htext : Surface.selectedText w = v.selectedText := h.selectedText.symm
  have hself : Surface.selectedText v = v.selectedText := rfl
  simp only [Transform.run, htext, hself]
  split
  · exact ⟨h.toAlike, rfl⟩
  · exact ⟨h.edits hlt ht, rfl⟩

end Canvas

/-! ### Views -/

namespace Views

/-- Two pairs of views show the same, their canvases on the two kinds of host. -/
structure Alike (d e : Views) : Prop where
  canvas : d.canvas.Alike e.canvas
  source : d.source = e.source
  active : d.active = e.active

variable {d e : Views}

lemma Alike.refreshSource (h : Alike d e) : Alike d.refreshSource e.refreshSource where
  canvas := h.canvas
  source := by simp only [Views.refreshSource, Canvas.markup, h.source, h.canvas.nodes]
  active := h.active

lemma Alike.refreshCanvas (h : Alike d e) : Alike d.refreshCanvas e.refreshCanvas where
  canvas :=
    { nodes := by simp only [Views.refreshCanvas, Canvas.setNodes, h.source]
      modern := h.canvas.modern
      legacy := h.canvas.legacy }
  source := h.source
  active := h.active

lemma Alike.refresh (h : Alike d e) : Alike d.refresh e.refresh := by
  rw [Views.refresh, Views.refresh, ← h.active]
  cases d.active with
  | rendered => exact h.refreshSource
  | markup => exact h.refreshCanvas

/-- What is done to the source does not know the host. -/
lemma Alike.withSource (h : Alike d e) (f : Source → Source) :
    Alike { d with source := f d.source, active := .markup }
      { e with source := f e.source, active := .markup } :=
  ⟨h.canvas, congrArg f h.source, rfl⟩

/-- Typing puts a text in, of which both interfaces make the same node. -/
lemma Alike.typeRendered (h : Alike d e) (hf : d.canvas.Focused e.canvas) (s : Text) :
    Alike (d.typeRendered s) (e.typeRendered s) := by
  have hedit : (d.canvas.edit (.replace (.text s))).Alike (e.canvas.edit (.replace (.text s))) :=
    hf.replace trivial
  have hcanvas : (typed d.canvas s).Alike (typed e.canvas s) :=
    { nodes := by rw [nodes_typed, nodes_typed, hedit.nodes]
      modern := by rw [host_typed, hedit.modern]
      legacy := by rw [host_typed, hedit.legacy] }
  have hviews : Alike { d with canvas := typed d.canvas s, active := .rendered }
      { e with canvas := typed e.canvas s, active := .rendered } := ⟨hcanvas, h.source, rfl⟩
  exact hviews.refreshSource

/-- In the source a transform does not know the host; in the canvas it needs alike selections. -/
lemma Alike.apply (h : Alike d e) {t : Transform} (ht : t.Plain) {policy : Policy}
    (hcanvas : d.active = .rendered → d.canvas.Focused e.canvas ∧
      '<' ∉ policy.content d.canvas.selectedText) :
    Alike (d.apply t policy).1 (e.apply t policy).1 ∧
      (d.apply t policy).2 = (e.apply t policy).2 := by
  obtain ⟨v, source, active⟩ := d
  obtain ⟨w, source', active'⟩ := e
  obtain rfl : source = source' := h.source
  obtain rfl : active = active' := h.active
  cases active with
  | rendered =>
    obtain ⟨hf, hlt⟩ := hcanvas rfl
    obtain ⟨halike, hanswer⟩ := hf.run ht hlt
    have hviews : Alike ⟨(t.run policy v).1, source, .rendered⟩
        ⟨(t.run policy w).1, source, .rendered⟩ := ⟨halike, rfl, rfl⟩
    exact ⟨hviews.refresh, hanswer⟩
  | markup =>
    have hviews : Alike ⟨v, (t.run policy source).1, .markup⟩
        ⟨w, (t.run policy source).1, .markup⟩ := ⟨h.canvas, rfl, rfl⟩
    exact ⟨hviews.refresh, rfl⟩

end Views

/-! ### Runs -/

namespace Session

/-- What is seen of a session: all but its host and the ranges of its canvas. -/
structure Shown where
  nodes : List Node
  source : Source
  active : ViewKind
  deriving DecidableEq, Repr

def shown (s : Session) : Shown := ⟨s.views.canvas.nodes, s.views.source, s.views.active⟩

/-- What is seen after each step of a run, with its answer. -/
def trace (s : Session) : List Step → List (Shown × Answer)
  | [] => []
  | step :: steps => ((s.step step).1.shown, (s.step step).2) :: trace (s.step step).1 steps

def Step.selects : Step → Bool
  | .selectRendered _ => true
  | _ => false

/-- A step that does not depend on the host: typing in the canvas and acting on it follow a
selection there at once, which is said by `fresh`, and acting does not take text for markup. -/
def HostFree (s : Session) (fresh : Bool) : Step → Prop
  | .typeRendered _ => fresh = true
  | .act _ => s.views.active = .rendered →
      fresh = true ∧ (s.registry.policy = .escaped ∨ '<' ∉ s.views.canvas.selectedText)
  | .addRange _ | .apply _ | .register _ => False
  | _ => True

/-- Each step of a run is such, in the session that the steps before it lead to. -/
def RunsHostFree (s : Session) (fresh : Bool) : List Step → Prop
  | [] => True
  | step :: steps => s.HostFree fresh step ∧ RunsHostFree (s.step step).1 step.selects steps

/-- Two sessions differ in their hosts only, and in ranges unless a selection was just made. -/
structure Alike (fresh : Bool) (s t : Session) : Prop where
  registry : s.registry = t.registry
  plain : ∀ a ∈ s.registry.actions, a.transform.Plain
  views : s.views.Alike t.views
  focused : fresh = true → s.views.canvas.Focused t.views.canvas

variable {fresh : Bool} {s t : Session}

lemma Alike.shown_eq (h : Alike fresh s t) : s.shown = t.shown := by
  rw [shown, shown, h.views.canvas.nodes, h.views.source, h.views.active]

lemma Alike.withViews (h : Alike fresh s t) {d e : Views} (hviews : d.Alike e) :
    Alike false { s with views := d } { t with views := e } :=
  ⟨h.registry, h.plain, hviews, nofun⟩

lemma Alike.act (h : Alike fresh s t) {name : String} (hstep : s.HostFree fresh (.act name)) :
    Alike false (s.step (.act name)).1 (t.step (.act name)).1 ∧
      (s.step (.act name)).2 = (t.step (.act name)).2 := by
  obtain ⟨r, d⟩ := s
  obtain ⟨r', e⟩ := t
  obtain rfl : r = r' := h.registry
  rw [step_act, step_act]
  cases hfind : r.find? name with
  | none => exact ⟨⟨rfl, h.plain, h.views, nofun⟩, rfl⟩
  | some a =>
    have hplain := h.plain a (List.mem_of_find?_eq_some hfind)
    have happly := h.views.apply hplain fun hactive =>
      ⟨h.focused (hstep hactive).1, Policy.lt_notMem_content (hstep hactive).2⟩
    exact ⟨h.withViews happly.1, congrArg Answer.applied happly.2⟩

/-- One step keeps two sessions alike and answers the same. -/
lemma Alike.step (h : Alike fresh s t) {step : Step} (hstep : s.HostFree fresh step) :
    Alike step.selects (s.step step).1 (t.step step).1 ∧ (s.step step).2 = (t.step step).2 := by
  cases step with
  | selectRendered sel =>
    have hsel := h.views.canvas.select sel
    exact ⟨⟨h.registry, h.plain, ⟨hsel.toAlike, h.views.source, rfl⟩, fun _ => hsel⟩, rfl⟩
  | addRange sel => exact hstep.elim
  | selectMarkup sel =>
    exact ⟨h.withViews (h.views.withSource fun source => source.select sel), rfl⟩
  | typeRendered text =>
    exact ⟨h.withViews (h.views.typeRendered (h.focused hstep) text), rfl⟩
  | typeMarkup text =>
    have hviews := h.views.withSource fun source => source.edit (.replace (.text text))
    exact ⟨h.withViews hviews.refreshCanvas, rfl⟩
  | setMarkup text =>
    have hviews := h.views.withSource fun source => source.setContent text
    exact ⟨h.withViews hviews.refreshCanvas, rfl⟩
  | refreshSource => exact ⟨h.withViews h.views.refreshSource, rfl⟩
  | refreshCanvas => exact ⟨h.withViews h.views.refreshCanvas, rfl⟩
  | refresh => exact ⟨h.withViews h.views.refresh, rfl⟩
  | apply transform => exact hstep.elim
  | act name => exact h.act hstep
  | register a => exact hstep.elim

lemma Alike.trace_eq {steps : List Step} (h : Alike fresh s t)
    (hsteps : s.RunsHostFree fresh steps) : s.trace steps = t.trace steps := by
  induction steps generalizing fresh s t with
  | nil => rfl
  | cons step steps ih =>
    obtain ⟨hstep, hrest⟩ := hsteps
    obtain ⟨hnext, hanswer⟩ := h.step hstep
    rw [trace, trace, hnext.shown_eq, hanswer, ih hnext hrest]

/-- **A session does not depend on its host**: begun with the same markup and the standard actions,
the same steps show and answer the same through either interface. -/
theorem trace_modern_eq_trace_legacy {settings : Settings} {r : Registry}
    (hr : Registry.ofSettings settings [] = .ok r) {m : Text} {start : Host → Views}
    (hstart : start = Views.ofMarkup m ∨ start = fun host => .ofCanvas (.ofMarkup m host))
    {steps : List Step} (hsteps : (⟨r, start .modern⟩ : Session).RunsHostFree false steps) :
    (⟨r, start .modern⟩ : Session).trace steps = (⟨r, start .legacy⟩ : Session).trace steps := by
  obtain rfl : ⟨Standard.actions settings, settings.policy⟩ = r := Except.ok.inj hr
  have hcanvas : (Canvas.ofMarkup m .modern).Alike (Canvas.ofMarkup m .legacy) := ⟨rfl, rfl, rfl⟩
  have hviews : (start .modern).Alike (start .legacy) := by
    rcases hstart with rfl | rfl
    · exact ⟨hcanvas, rfl, rfl⟩
    · exact ⟨hcanvas, rfl, rfl⟩
  have halike : Alike false ⟨⟨Standard.actions settings, settings.policy⟩, start .modern⟩
      ⟨⟨Standard.actions settings, settings.policy⟩, start .legacy⟩ :=
    ⟨rfl, fun _ => Transform.plain_of_mem_actions, hviews, nofun⟩
  exact halike.trace_eq hsteps

/-- A word becomes a quote, which is two insertions, another one bold in the source, and then the
bold word is typed over by nothing. -/
theorem trace_modern_eq_trace_legacy_quote :
    let r : Registry := ⟨Standard.actions {}, .verbatim⟩
    let start : Host → Views := Views.ofMarkup "one <i>two</i>".toList
    let steps : List Step := [.selectRendered (some ⟨4, 7⟩), .act "makeTextQuote",
      .selectMarkup ⟨0, 3⟩, .act "makeTextBold", .selectRendered (some ⟨0, 3⟩), .typeRendered []]
    Registry.ofSettings {} [] = .ok r ∧ (⟨r, start .modern⟩ : Session).RunsHostFree false steps ∧
      (⟨r, start .modern⟩ : Session).trace steps = (⟨r, start .legacy⟩ : Session).trace steps ∧
      ((⟨r, start .legacy⟩ : Session).run (steps.take 4)).views.source.content =
        "<b>one</b> <i><br><blockquote>two</blockquote></i>".toList ∧
      ((⟨r, start .legacy⟩ : Session).run steps).views.source.content =
        "<b></b> <i><br><blockquote>two</blockquote></i>".toList := by
  intro r start steps
  have hr : Registry.ofSettings {} [] = .ok r := rfl
  have hsteps : (⟨r, start .modern⟩ : Session).RunsHostFree false steps :=
    ⟨trivial, fun _ => ⟨rfl, .inr (by decide +kernel)⟩, trivial, nofun, trivial, rfl, trivial⟩
  exact ⟨hr, hsteps, trace_modern_eq_trace_legacy hr (.inl rfl) hsteps, by decide +kernel,
    by decide +kernel⟩

end Session

end RichText
