import Mathlib.Data.List.Forall2
import Mathlib.Tactic.Lemma
import RichText.Proofs.Edits
import RichText.Proofs.Letters
import RichText.Proofs.Registering
import RichText.Proofs.StandardActions
import RichText.Session

/-!
Text never becomes structure. When text is escaped, a session in the canvas does not look at letters:
the same steps on a document with other letters lead to the same document with other letters, give
the same answers and select the same ranges. So tags and offsets depend on the lengths of texts only.
-/

namespace RichText

variable {f : Char → Char}

/-- Gives one letter for all. -/
def blank : Char → Char := fun _ => ' '

namespace Canvas

/-- The canvas with other letters in its document. -/
def mapText (f : Char → Char) (v : Canvas) : Canvas := { v with nodes := RichText.mapText f v.nodes }

@[simp] lemma nodes_mapText (v : Canvas) : (v.mapText f).nodes = RichText.mapText f v.nodes := rfl

@[simp] lemma ranges_mapText (v : Canvas) : (v.mapText f).ranges = v.ranges := rfl

@[simp] lemma host_mapText (v : Canvas) : (v.mapText f).host = v.host := rfl

@[simp] lemma primary?_mapText (v : Canvas) : (v.mapText f).primary? = v.primary? := rfl

@[simp] lemma length_mapText (v : Canvas) : (v.mapText f).length = v.length := by
  rw [length, length, text, text, nodes_mapText, plainText_mapText, List.length_map]

lemma select_mapText (v : Canvas) (sel : Option Selection) :
    (v.mapText f).select sel = (v.select sel).mapText f := by
  rw [select, length_mapText]
  rfl

lemma addRange_mapText (v : Canvas) (sel : Selection) :
    (v.mapText f).addRange sel = (v.addRange sel).mapText f := by
  rw [addRange, length_mapText]
  rfl

lemma textIn_mapText (v : Canvas) (sel : Selection) :
    (v.mapText f).textIn sel = (v.textIn sel).map f := by
  simp only [textIn, nodes_mapText, tokens_mapText, span_map, Span.text_map]

lemma selectedText_mapText (v : Canvas) : (v.mapText f).selectedText = v.selectedText.map f := by
  rw [selectedText, selectedText, readPrimary, readPrimary, host_mapText, primary?_mapText]
  cases v.host.interface <;> cases v.primary? <;> first | rfl | exact textIn_mapText v _

/-- All letters are alike in the outline of a canvas. -/
def outline (v : Canvas) : Canvas := v.mapText blank

/-! ### Edits -/

lemma replaceRange_mapText (v : Canvas) (sel : Selection) (reach : Reach) (new : List Node) :
    (v.mapText f).replaceRange sel reach (RichText.mapText f new) =
      (v.replaceRange sel reach new).mapText f := by
  rw [replaceRange, nodes_mapText, replaceSelected_mapText]
  rfl

lemma replaceSelecting_mapText (v : Canvas) (sel : Selection) (reach : Reach) (new : List Node) :
    (v.mapText f).replaceSelecting sel reach (RichText.mapText f new) =
      (v.replaceSelecting sel reach new).mapText f := by
  rw [replaceSelecting, replaceRange_mapText, select_mapText, nodes_mapText,
    replaceSelected_mapText]
  rfl

lemma replaceLeaving_mapText (v : Canvas) (sel : Selection) (reach : Reach) (new : List Node) :
    (v.mapText f).replaceLeaving sel reach (RichText.mapText f new) =
      (v.replaceLeaving sel reach new).mapText f := by
  rw [replaceLeaving, replaceRange_mapText, select_mapText, nodes_mapText,
    replaceSelected_mapText]
  rfl

lemma unformatRange_mapText (v : Canvas) (sel : Selection) :
    (v.mapText f).unformatRange sel = (v.unformatRange sel).mapText f := by
  rw [unformatRange, unformatRange, textIn_mapText]
  split
  · rfl
  · exact replaceRange_mapText v sel .outer [.text (v.textIn sel)]

lemma unformatRanges_mapText (v : Canvas) :
    (v.mapText f).unformatRanges = v.unformatRanges.mapText f := by
  have hfold (sels : List Selection) : ∀ w : Canvas,
      sels.foldl unformatRange (w.mapText f) = (sels.foldl unformatRange w).mapText f := by
    induction sels with
    | nil => exact fun w => rfl
    | cons sel sels ih =>
      intro w
      rw [List.foldl_cons, unformatRange_mapText, ih, List.foldl_cons]
  simp only [unformatRanges, ranges_mapText, hfold, length_mapText]
  rfl

lemma edit_unformat_mapText (v : Canvas) :
    (v.mapText f).edit .unformat = (v.edit .unformat).mapText f := by
  rw [edit, edit, host_mapText]
  cases v.host.interface with
  | range => exact unformatRanges_mapText v
  | textRange =>
    simp only [editTextRange, primary?_mapText, textIn_mapText]
    cases v.primary? with
    | none => rfl
    | some sel =>
      dsimp only
      split
      · rfl
      · exact replaceLeaving_mapText v sel .outer [.text (v.textIn sel)]
  | unavailable => rfl

/-- **Insertions** whose nodes differ in their letters lead to canvases that do. -/
theorem edit_replace_mapText {i j : Insertion} (hi : i.Plain) (hj : j.Plain)
    (h : j.pasted = RichText.mapText f i.pasted) (v : Canvas) :
    (v.mapText f).edit (.replace j) = (v.edit (.replace i)).mapText f := by
  have hsel' : (v.mapText f).primary? = v.primary? := primary?_mapText v
  cases hsel : v.primary? with
  | none => rw [edit_replace_of_none hsel, edit_replace_of_none (hsel'.trans hsel)]
  | some sel =>
    cases hhost : v.host.interface with
    | range =>
      rw [edit_replace_range hhost hsel hi,
        edit_replace_range (v := v.mapText f) hhost (hsel'.trans hsel) hj, h,
        replaceSelecting_mapText]
    | textRange =>
      rw [edit_replace_textRange hhost hsel,
        edit_replace_textRange (v := v.mapText f) hhost (hsel'.trans hsel), h,
        replaceLeaving_mapText]
    | unavailable => rw [edit, edit, host_mapText, hhost]

end Canvas

/-! ### Transforms -/

lemma mapText_around (tag : Tag) (s : Text) :
    mapText f (tag.around s) = tag.around (s.map f) := by
  rw [Tag.around, Tag.around]
  split <;> rfl

/-- Edits that differ in letters only. -/
inductive Edit.Mapped (f : Char → Char) : Edit → Edit → Prop
  | replace {i j : Insertion} (hi : i.Plain) (hj : j.Plain)
    (h : j.pasted = mapText f i.pasted) : Mapped f (.replace i) (.replace j)
  | unformat : Mapped f .unformat .unformat

lemma Edit.Mapped.edit {e e' : Edit} (h : Edit.Mapped f e e') (v : Canvas) :
    (v.mapText f).edit e' = (v.edit e).mapText f := by
  cases h with
  | replace hi hj h => exact Canvas.edit_replace_mapText hi hj h v
  | unformat => exact Canvas.edit_unformat_mapText v

lemma Edit.Mapped.edits {es es' : List Edit} (h : List.Forall₂ (Edit.Mapped f) es es')
    (v : Canvas) :
    es'.foldl Surface.edit (v.mapText f) = (es.foldl Surface.edit v).mapText f := by
  induction h generalizing v with
  | nil => rfl
  | cons he hes ih =>
    have hedit : Surface.edit (v.mapText f) _ = _ := he.edit v
    rw [List.foldl_cons, hedit, ih, List.foldl_cons]
    rfl

namespace Transform

lemma Surrounds.mapped {t : Transform} (h : t.Surrounds) (s : Text) :
    List.Forall₂ (Edit.Mapped f) (t.edits (escapeText s)) (t.edits (escapeText (s.map f))) := by
  obtain ⟨tag, put, hput⟩ := h.edits
  obtain ⟨hedits, hplain, hpasted⟩ := hput s
  obtain ⟨hedits', hplain', hpasted'⟩ := hput (s.map f)
  rw [hedits, hedits']
  refine .cons (.replace hplain hplain' ?_) .nil
  rw [hpasted, hpasted', ← mapText_around, normalize_mapText]

/-- A standard transform puts the same tags around any text, which stays a text. -/
lemma Regular.mapped {t : Transform} (h : t.Regular) (s : Text) :
    List.Forall₂ (Edit.Mapped f) (t.edits (escapeText s)) (t.edits (escapeText (s.map f))) := by
  have hbreak : Edit.Mapped f (.replace .lineBreak) (.replace .lineBreak) :=
    .replace trivial trivial (by rw [Insertion.pasted_lineBreak]; rfl)
  have hdelete : Edit.Mapped f (.replace .nothing) (.replace .nothing) :=
    .replace trivial trivial (by rw [Insertion.pasted_nothing]; rfl)
  cases h with
  | surrounds h => exact h.mapped s
  | breakThen h => exact .cons hbreak (h.mapped s)
  | lineBreak => exact .cons hbreak .nil
  | delete => exact .cons hdelete .nil
  | unformat => exact .cons .unformat .nil

/-- **A standard transform** of escaped text commutes with changing letters. -/
theorem Regular.run_mapText {t : Transform} (h : t.Regular) (v : Canvas) :
    t.run .escaped (v.mapText f) = ((t.run .escaped v).1.mapText f, (t.run .escaped v).2) := by
  have hselected : Surface.selectedText (v.mapText f) = (Surface.selectedText v).map f :=
    Canvas.selectedText_mapText v
  simp only [Transform.run, hselected, List.isEmpty_map]
  split
  · rfl
  · exact congrArg (·, true) (Edit.Mapped.edits (h.mapped _) v)

end Transform

/-! ### Runs -/

lemma Views.typed_mapText (v : Canvas) (s : Text) :
    typed (v.mapText f) (s.map f) = (typed v s).mapText f := by
  have htext : Edit.Mapped f (.replace (.text s)) (.replace (.text (s.map f))) :=
    .replace trivial trivial rfl
  simp only [typed, htext.edit v, Canvas.primary?_mapText]
  split
  · exact Canvas.select_mapText _ _
  · rfl

namespace Session

/-- The answers of a run. -/
def answers (s : Session) : List Step → List Answer
  | [] => []
  | step :: steps => (s.step step).2 :: answers (s.step step).1 steps

/-- The step with other letters typed. -/
def Step.mapText (f : Char → Char) : Step → Step
  | .typeRendered s => .typeRendered (s.map f)
  | step => step

def Step.outline (step : Step) : Step := step.mapText blank

/-- Selecting, typing and acting in the canvas. -/
def Step.InCanvas : Step → Prop
  | .selectRendered _ | .addRange _ | .typeRendered _ | .act _ => True
  | _ => False

/-- Two sessions with the standard actions whose canvases, the active views, differ in letters. -/
structure Mapped (settings : Settings) (f : Char → Char) (s t : Session) : Prop where
  registry : s.registry = ⟨Standard.actions settings, .escaped⟩
  registry' : t.registry = s.registry
  active : s.views.active = .rendered
  active' : t.views.active = .rendered
  canvas : t.views.canvas = s.views.canvas.mapText f

variable {settings : Settings} {s t : Session}

lemma Mapped.act (hlink : '"' ∉ settings.linkTarget) (himage : '"' ∉ settings.imageSource)
    (h : Mapped settings f s t) (name : String) :
    Mapped settings f (s.step (.act name)).1 (t.step (.act name)).1 ∧
      (t.step (.act name)).2 = (s.step (.act name)).2 := by
  rw [step_act, step_act, h.registry']
  cases hfind : s.registry.find? name with
  | none => exact ⟨h, rfl⟩
  | some a =>
    have hmem : a ∈ Standard.actions settings := by
      rw [h.registry] at hfind
      exact (Registry.mem_of_find?_eq_some hfind).1
    have hrun := (regular_of_mem_actions hlink himage hmem).run_mapText (f := f) s.views.canvas
    rw [← h.canvas] at hrun
    have hpolicy : s.registry.policy = .escaped := congrArg Registry.policy h.registry
    simp only [Session.apply, h.registry', hpolicy]
    refine ⟨⟨h.registry, rfl, ?_, ?_, ?_⟩, ?_⟩
    · exact (Views.active_apply _ _ _).trans h.active
    · exact (Views.active_apply _ _ _).trans h.active'
    · rw [Views.canvas_apply_rendered h.active', Views.canvas_apply_rendered h.active, hrun]
    · rw [Views.answer_apply_rendered h.active', Views.answer_apply_rendered h.active, hrun]

lemma Mapped.step (hlink : '"' ∉ settings.linkTarget) (himage : '"' ∉ settings.imageSource)
    (h : Mapped settings f s t) {step : Step} (hstep : step.InCanvas) :
    Mapped settings f (s.step step).1 (t.step (step.mapText f)).1 ∧
      (t.step (step.mapText f)).2 = (s.step step).2 := by
  cases step with
  | selectRendered sel =>
    refine ⟨⟨h.registry, h.registry', rfl, rfl, ?_⟩, rfl⟩
    exact (congrArg (Canvas.select · sel) h.canvas).trans (Canvas.select_mapText _ sel)
  | addRange sel =>
    refine ⟨⟨h.registry, h.registry', rfl, rfl, ?_⟩, rfl⟩
    exact (congrArg (Canvas.addRange · sel) h.canvas).trans (Canvas.addRange_mapText _ sel)
  | typeRendered text =>
    refine ⟨⟨h.registry, h.registry', rfl, rfl, ?_⟩, rfl⟩
    exact (congrArg (Views.typed · (text.map f)) h.canvas).trans (Views.typed_mapText _ text)
  | act name => exact h.act hlink himage name
  | _ => exact hstep.elim

lemma Mapped.run (hlink : '"' ∉ settings.linkTarget) (himage : '"' ∉ settings.imageSource)
    (h : Mapped settings f s t) {steps : List Step} (hsteps : ∀ step ∈ steps, step.InCanvas) :
    Mapped settings f (s.run steps) (t.run (steps.map (Step.mapText f))) ∧
      t.answers (steps.map (Step.mapText f)) = s.answers steps := by
  induction steps generalizing s t with
  | nil => exact ⟨h, rfl⟩
  | cons step steps ih =>
    obtain ⟨hstep, hrest⟩ := List.forall_mem_cons.1 hsteps
    obtain ⟨hnext, hanswer⟩ := h.step hlink himage hstep
    obtain ⟨hrun, hanswers⟩ := ih hnext hrest
    refine ⟨hrun, ?_⟩
    rw [List.map_cons, answers, answers, hanswer, hanswers]

lemma inCanvas_mapText (f : Char → Char) (step : Step) :
    (step.mapText f).InCanvas ↔ step.InCanvas := by
  cases step <;> exact Iff.rfl

/-- **Text never becomes structure.** With the standard actions, of escaped text, letters may be
changed before a run in the canvas or after it, and the answers are the same. So a run from canvases
of one outline, with texts of the same lengths typed, leads to canvases of one outline, which have
the same tags and ranges. -/
theorem canvas_run_mapText {settings : Settings} {r : Registry}
    (hr : Registry.ofSettings settings [] = .ok r) (hpolicy : settings.policy = .escaped)
    (hlink : '"' ∉ settings.linkTarget) (himage : '"' ∉ settings.imageSource) {d e : Views}
    (hd : d.active = .rendered) (he : e.active = .rendered) {steps : List Step}
    (hsteps : ∀ step ∈ steps, step.InCanvas) :
    (∀ f : Char → Char, e.canvas = d.canvas.mapText f →
      ((⟨r, e⟩ : Session).run (steps.map (Step.mapText f))).views.canvas =
          ((⟨r, d⟩ : Session).run steps).views.canvas.mapText f ∧
        (⟨r, e⟩ : Session).answers (steps.map (Step.mapText f)) =
          (⟨r, d⟩ : Session).answers steps) ∧
    (∀ others : List Step, e.canvas.outline = d.canvas.outline →
      others.map Step.outline = steps.map Step.outline →
      ((⟨r, e⟩ : Session).run others).views.canvas.outline =
          ((⟨r, d⟩ : Session).run steps).views.canvas.outline ∧
        (⟨r, e⟩ : Session).answers others = (⟨r, d⟩ : Session).answers steps) := by
  obtain rfl : ⟨Standard.actions settings, settings.policy⟩ = r := Except.ok.inj hr
  rw [hpolicy]
  refine ⟨fun f hcanvas => ?_, fun others houtline hothers => ?_⟩
  · have hmapped : Mapped settings f ⟨⟨Standard.actions settings, .escaped⟩, d⟩
        ⟨⟨Standard.actions settings, .escaped⟩, e⟩ := ⟨rfl, rfl, hd, he, hcanvas⟩
    obtain ⟨hrun, hanswers⟩ := hmapped.run hlink himage hsteps
    exact ⟨hrun.canvas, hanswers⟩
  · -- both runs are compared with one from the outline
    let outlined : Session := ⟨⟨Standard.actions settings, .escaped⟩,
      { d with canvas := d.canvas.outline }⟩
    have hfrom : Mapped settings blank ⟨⟨Standard.actions settings, .escaped⟩, d⟩ outlined :=
      ⟨rfl, rfl, hd, hd, rfl⟩
    have hfrom' : Mapped settings blank ⟨⟨Standard.actions settings, .escaped⟩, e⟩ outlined :=
      ⟨rfl, rfl, he, hd, houtline.symm⟩
    have hsteps' : ∀ step ∈ others, step.InCanvas := by
      intro step hstep
      have hmem : step.outline ∈ others.map Step.outline := List.mem_map_of_mem hstep
      rw [hothers] at hmem
      obtain ⟨other, hother, heq⟩ := List.mem_map.1 hmem
      have hblank : other.outline.InCanvas := (inCanvas_mapText blank other).2 (hsteps other hother)
      rw [heq] at hblank
      exact (inCanvas_mapText blank step).1 hblank
    obtain ⟨hrun, hanswers⟩ := hfrom.run hlink himage hsteps
    obtain ⟨hrun', hanswers'⟩ := hfrom'.run hlink himage hsteps'
    have hsame : others.map (Step.mapText blank) = steps.map (Step.mapText blank) := hothers
    rw [hsame] at hrun' hanswers'
    exact ⟨hrun'.canvas.symm.trans hrun.canvas, hanswers'.symm.trans hanswers⟩

/-- On a host that pastes markup, letters become the characters that markup is made of. A quote is
made and a text typed over a part of it; what looks like markup stays text. -/
theorem canvas_run_mapText_quote :
    let f : Char → Char := fun c => if c = 'a' then '<' else if c = 'b' then '&' else '>'
    let d : Views := .ofCanvas (.ofMarkup "<i>ab</i>c".toList .legacy)
    let e : Views := .ofCanvas (d.canvas.mapText f)
    let steps (typed : String) : List Step := [.selectRendered (some ⟨3, 1⟩), .act "makeTextQuote",
      .selectRendered (some ⟨0, 2⟩), .typeRendered typed.toList]
    let s : Session := ⟨⟨Standard.actions { policy := .escaped }, .escaped⟩, d⟩
    let t : Session := ⟨⟨Standard.actions { policy := .escaped }, .escaped⟩, e⟩
    (∀ step ∈ steps "ca", step.InCanvas) ∧ e.canvas.outline = d.canvas.outline ∧
      (s.run (steps "ca")).views.canvas.markup = "<i></i>ca<blockquote>c</blockquote>".toList ∧
      (t.run (steps "><")).views.canvas.markup =
        "<i></i>&gt;&lt;<blockquote>&gt;</blockquote>".toList ∧
      (t.run (steps "><")).views.canvas = (s.run (steps "ca")).views.canvas.mapText f ∧
      (t.run (steps "&b")).views.canvas.outline = (s.run (steps "ca")).views.canvas.outline ∧
      t.answers (steps "&b") = s.answers (steps "ca") := by
  intro f d e steps s t
  have hsteps : ∀ step ∈ steps "ca", step.InCanvas := by simp [steps, Step.InCanvas]
  have houtline : e.canvas.outline = d.canvas.outline := by decide +kernel
  have hlink : '"' ∉ ({ policy := .escaped } : Settings).linkTarget := by decide +kernel
  have himage : '"' ∉ ({ policy := .escaped } : Settings).imageSource := by decide +kernel
  obtain ⟨hletters, hlengths⟩ := canvas_run_mapText (d := d) (e := e) rfl rfl hlink himage rfl rfl
    hsteps
  exact ⟨hsteps, houtline, by decide +kernel, by decide +kernel, (hletters f rfl).1,
    hlengths (steps "&b") houtline rfl⟩

end Session

end RichText
