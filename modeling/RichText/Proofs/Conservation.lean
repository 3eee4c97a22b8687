import Mathlib.Tactic.Lemma
import RichText.Proofs.Agreement
import RichText.Proofs.Edits
import RichText.Proofs.Offsets
import RichText.Proofs.Registering
import RichText.Proofs.StandardActions
import RichText.Session

/-!
Formatting keeps the text. Each edit takes the selected text out and puts something in where it
began; an action that formats puts the same text back there, in one edit, in two with a break
before, or once for each range. So the text of the canvas stays through any run of such actions.
-/

namespace RichText

namespace Canvas

variable {v : Canvas}

/-! ### What is selected -/

lemma length_charsOf_tokens (h : VoidsEmpty v.nodes) :
    (charsOf (tokens v.nodes)).length = v.length := by
  rw [charsOf_tokens h, length, text]

lemma textIn_eq (h : VoidsEmpty v.nodes) (sel : Selection) :
    v.textIn sel = (v.text.take sel.stop).drop sel.start := by
  rw [textIn, text_span, charsOf_tokens h, text]

/-- The bounds of a selection may be moved into the text. -/
lemma textIn_eq_slice (h : VoidsEmpty v.nodes) (sel : Selection) :
    v.textIn sel = (v.text.take (min sel.stop v.length)).drop (min sel.start v.length) := by
  have hle := List.length_take_le' (min sel.stop v.length) v.text
  rw [textIn_eq h, List.take_eq_take_min]
  rw [length] at hle ⊢
  exact List.drop_eq_drop_iff.2 (by omega)

/-- **Replacing a range** cuts its text out and puts that of the new nodes in there, however far the
span reaches; the offsets that are given back are those around it. Of the selection only its bounds
matter, and of these no more than is in the text. -/
theorem splice_replaceRange (h : VoidsEmpty v.nodes) {new : List Node} (hnew : VoidsEmpty new)
    (sel : Selection) (reach : Reach) :
    let start := min sel.start v.length
    let stop := min sel.stop v.length
    let r := replaceSelected v.nodes sel reach new
    v.textIn sel = (v.text.take stop).drop start ∧
      (v.replaceRange sel reach new).text =
        v.text.take start ++ plainText new ++ v.text.drop stop ∧
      r.start = start ∧ r.stop = start + (plainText new).length := by
  intro start stop r
  have htext := plainText_replaceSelected h hnew sel reach
  refine ⟨textIn_eq_slice h sel, ?_, offsets_replaceSelected h hnew sel reach⟩
  rw [text, nodes_replaceRange, htext, List.take_eq_take_min, List.drop_eq_drop_min]
  rfl

/-- A selection from behind the text back into an element, of which a part stays: the new nodes
stand behind it. -/
theorem splice_replaceRange_backward :
    let v := ofMarkup "<p>a<b>bc</b></p><br>d".toList .modern
    let sel : Selection := ⟨18446744073709551615, 2⟩
    let new := parse "<i>x</i>yz<!--c-->".toList
    let start := min sel.start v.length
    let stop := min sel.stop v.length
    let r := replaceSelected v.nodes sel .inner new
    v.text = "abcd".toList ∧ start = 2 ∧ stop = 4 ∧ plainText new = "xyz".toList ∧
      (v.replaceRange sel .inner new).markup =
        "<p>a<b>b</b></p><i>x</i>yz<!--c-->".toList ∧
      v.textIn sel = (v.text.take stop).drop start ∧
      (v.replaceRange sel .inner new).text =
        v.text.take start ++ plainText new ++ v.text.drop stop ∧
      r.start = start ∧ r.stop = start + (plainText new).length := by
  intro v sel new start stop r
  have hwf : WellFormed v.nodes := wellFormed_normalize (wellFormed_parse _)
  exact ⟨by decide +kernel, by decide +kernel, by decide +kernel, by decide +kernel,
    by decide +kernel,
    splice_replaceRange hwf.voidsEmpty (wellFormed_parse _).voidsEmpty sel .inner⟩

/-- A selected text is that of the primary range, on a host that lets it be edited. -/
lemma exists_primary_of_selectedText (h : v.selectedText ≠ []) :
    v.host.interface ≠ .unavailable ∧
      ∃ sel, v.primary? = some sel ∧ v.selectedText = v.textIn sel := by
  rw [selectedText, readPrimary] at h ⊢
  cases hi : v.host.interface <;> cases hsel : v.primary? <;> simp_all

/-! ### Edits -/

lemma voidsEmpty_edit (h : VoidsEmpty v.nodes) (e : Edit) : VoidsEmpty (v.edit e).nodes :=
  edit_induction (P := fun w => VoidsEmpty w.nodes)
    (fun _ sel reach _ hnew hw => voidsEmpty_replaceSelected hw hnew.voidsEmpty sel reach)
    (fun _ _ hw => hw) h e

/-- **An insertion** takes the selected text out and puts its own in there. -/
theorem text_edit_replace (h : VoidsEmpty v.nodes) (hhost : v.host.interface ≠ .unavailable)
    {sel : Selection} (hsel : v.primary? = some sel) {i : Insertion} (hi : i.Plain) :
    (v.edit (.replace i)).text =
      v.text.take sel.start ++ plainText i.pasted ++ v.text.drop sel.stop := by
  rw [text, nodes_edit_replace hhost hsel hi]
  exact plainText_replaceSelected h i.wellFormed_pasted.voidsEmpty sel .inner

/-- The range interface selects the text of what it put in. -/
lemma ranges_replaceSelecting (h : VoidsEmpty v.nodes) {new : List Node} (hnew : VoidsEmpty new)
    (sel : Selection) (reach : Reach) :
    (v.replaceSelecting sel reach new).ranges =
      [⟨min sel.start v.length, min sel.start v.length + (plainText new).length⟩] := by
  obtain ⟨hstart, hstop⟩ := offsets_replaceSelected h hnew sel reach
  have hle := stop_replaceSelected_le h hnew sel reach
  rw [replaceSelecting, hstart, hstop]
  refine congrArg (fun s => [s]) (Selection.clamp_of_stop_le ?_)
  simp only [Selection.stop, length, text, nodes_replaceRange]
  omega

/-- The text range interface leaves a caret behind it. -/
lemma ranges_replaceLeaving (h : VoidsEmpty v.nodes) {new : List Node} (hnew : VoidsEmpty new)
    (sel : Selection) (reach : Reach) :
    (v.replaceLeaving sel reach new).ranges =
      [.caret (min sel.start v.length + (plainText new).length)] := by
  have hstop := (offsets_replaceSelected h hnew sel reach).2
  have hle := stop_replaceSelected_le h hnew sel reach
  rw [replaceLeaving, hstop]
  refine congrArg (fun s => [s]) (Selection.clamp_of_stop_le ?_)
  simp only [Selection.stop_caret, length, text, nodes_replaceRange]
  omega

/-- Behind an insertion without text stands a caret, where the selection began. -/
lemma primary?_edit_replace (h : VoidsEmpty v.nodes) (hhost : v.host.interface ≠ .unavailable)
    {sel : Selection} (hsel : v.primary? = some sel) {i : Insertion} (hi : i.Plain)
    (htext : plainText i.pasted = []) :
    (v.edit (.replace i)).primary? = some (.caret (min sel.start v.text.length)) := by
  have hnew := i.wellFormed_pasted.voidsEmpty
  cases hi' : v.host.interface with
  | range =>
    rw [edit_replace_range hi' hsel hi, primary?, ranges_replaceSelecting h hnew, htext]
    rfl
  | textRange =>
    rw [edit_replace_textRange hi' hsel, primary?, ranges_replaceLeaving h hnew, htext]
    rfl
  | unavailable => exact absurd hi' hhost

lemma primary?_edit_break (h : VoidsEmpty v.nodes) (hhost : v.host.interface ≠ .unavailable)
    {sel : Selection} (hsel : v.primary? = some sel) :
    (v.edit (.replace .lineBreak)).primary? = some (.caret (min sel.start v.text.length)) := by
  have hplain : Insertion.lineBreak.Plain := trivial
  exact primary?_edit_replace h hhost hsel hplain Insertion.plainText_pasted_lineBreak

lemma voidsEmpty_unformatRange (h : VoidsEmpty v.nodes) (sel : Selection) :
    VoidsEmpty (v.unformatRange sel).nodes := by
  rw [unformatRange]
  split
  · exact h
  · exact voidsEmpty_replaceSelected h (wellFormed_textNode _).voidsEmpty sel .outer

/-- Making a range plain text puts its text back. -/
lemma text_unformatRange (h : VoidsEmpty v.nodes) (sel : Selection) :
    (v.unformatRange sel).text = v.text := by
  rw [unformatRange]
  split
  · rfl
  · have htext := plainText_replaceSelected h (wellFormed_textNode (v.textIn sel)).voidsEmpty sel
      .outer
    rw [plainText_text, plainText_nil, List.append_nil, textIn_eq h, text] at htext
    rw [text, nodes_replaceRange, textIn_eq h, text, htext]
    exact take_append_slice_append_drop sel.start_le_stop v.text

lemma text_edit_unformat (h : VoidsEmpty v.nodes) : (v.edit .unformat).text = v.text := by
  have hfold (sels : List Selection) :
      ∀ w : Canvas, VoidsEmpty w.nodes → (sels.foldl unformatRange w).text = w.text := by
    induction sels with
    | nil => exact fun w hw => rfl
    | cons sel sels ih =>
      intro w hw
      rw [List.foldl_cons, ih _ (voidsEmpty_unformatRange hw sel), text_unformatRange hw]
  cases hi : v.host.interface with
  | range =>
    rw [edit, hi]
    exact hfold v.ranges v h
  | textRange =>
    simp only [edit, hi, editTextRange]
    cases v.primary? with
    | none => rfl
    | some sel =>
      -- the text range interface leaves the nodes that the range interface does
      refine Eq.trans ?_ (text_unformatRange h sel)
      simp only [unformatRange]
      split <;> rfl
  | unavailable => rw [edit, hi]

end Canvas

/-! ### Transforms -/

/-- A transform that formats: unlike breaking the line and deleting, it loses no text. -/
inductive Transform.Formats : Transform → Prop
  | surrounds {t : Transform} (h : t.Surrounds) : Formats t
  | breakThen {next : Transform} (h : next.Surrounds) : Formats (.breakThen next)
  | unformat : Formats .unformat

lemma formats_of_mem_actions {settings : Settings} (hlink : '"' ∉ settings.linkTarget)
    (himage : '"' ∉ settings.imageSource) {a : Action} (h : a ∈ Standard.actions settings)
    (hname : a.name ≠ "makeNewLine" ∧ a.name ≠ "deleteText") : a.transform.Formats := by
  obtain ⟨-, hbreak, hdelete⟩ := transform_of_mem_actions h
  have hregular := regular_of_mem_actions hlink himage h
  generalize a.transform = t at hbreak hdelete hregular
  cases hregular with
  | surrounds ht => exact .surrounds ht
  | breakThen ht => exact .breakThen ht
  | lineBreak => exact absurd (hbreak rfl) hname.1
  | delete => exact absurd (hdelete rfl) hname.2
  | unformat => exact .unformat

namespace Canvas

variable {v : Canvas}

/-- Text that is put back between tags stands where the selected text was. -/
lemma text_edits_surrounds (h : VoidsEmpty v.nodes) (hhost : v.host.interface ≠ .unavailable)
    {sel : Selection} (hsel : v.primary? = some sel) {t : Transform} (ht : t.Surrounds) (s : Text) :
    ((t.edits (escapeText s)).foldl Surface.edit v).text =
      v.text.take sel.start ++ s ++ v.text.drop sel.stop := by
  obtain ⟨tag, put, hput⟩ := ht.edits
  obtain ⟨hedits, hplain, hpasted⟩ := hput s
  have htext : plainText (put s).pasted = s := by
    rw [hpasted, plainText_normalize, plainText_around]
  have hedit := text_edit_replace h hhost hsel hplain
  rw [htext] at hedit
  rw [hedits]
  exact hedit

/-- Behind a break it stands there as well: the break takes the selected text out and leaves a caret
in its place. -/
lemma text_edits_breakThen (h : VoidsEmpty v.nodes) (hhost : v.host.interface ≠ .unavailable)
    {sel : Selection} (hsel : v.primary? = some sel) {t : Transform} (ht : t.Surrounds) (s : Text) :
    (((Transform.breakThen t).edits (escapeText s)).foldl Surface.edit v).text =
      v.text.take sel.start ++ s ++ v.text.drop sel.stop := by
  have hbreak := @text_edit_replace v h hhost sel hsel .lineBreak trivial
  have hcaret := primary?_edit_break h hhost hsel
  rw [Insertion.plainText_pasted_lineBreak, List.append_nil] at hbreak
  have hbehind := text_edits_surrounds (voidsEmpty_edit h _) (by rwa [host_edit]) hcaret ht s
  have hlen : (v.text.take sel.start).length = min sel.start v.text.length := List.length_take
  rw [Selection.start_caret, Selection.stop_caret, hbreak, ← hlen, List.take_left,
    List.drop_left] at hbehind
  exact hbehind

/-- What puts the selected text back where it was keeps the text. -/
lemma text_run_of_edits (h : VoidsEmpty v.nodes) {t : Transform} (hneeds : t.needsText = true)
    (hedits : ∀ {sel : Selection}, v.host.interface ≠ .unavailable → v.primary? = some sel →
      ∀ s, ((t.edits (escapeText s)).foldl Surface.edit v).text =
        v.text.take sel.start ++ s ++ v.text.drop sel.stop) :
    (t.run .escaped v).1.text = v.text := by
  by_cases hne : v.selectedText = []
  · rw [Transform.run_of_not_selected hne hneeds]
  · obtain ⟨hhost, sel, hsel, htext⟩ := exists_primary_of_selectedText hne
    rw [Transform.run_of_selected rfl hne]
    refine (hedits hhost hsel v.selectedText).trans ?_
    rw [htext, textIn_eq h]
    exact take_append_slice_append_drop sel.start_le_stop v.text

/-- **A transform that formats keeps the text**, whichever ranges are selected on whichever host. -/
theorem text_run (h : VoidsEmpty v.nodes) {t : Transform} (ht : t.Formats) :
    (t.run .escaped v).1.text = v.text := by
  cases ht with
  | surrounds ht =>
    exact text_run_of_edits h ht.needsText fun hhost hsel => text_edits_surrounds h hhost hsel ht
  | breakThen ht =>
    exact text_run_of_edits h rfl fun hhost hsel => text_edits_breakThen h hhost hsel ht
  | unformat =>
    simp only [Transform.run, Transform.needsText, Bool.and_false]
    exact text_edit_unformat h

end Canvas

/-! ### Views -/

namespace Source

variable {v : Source}

lemma selectedText_of_isCaret (h : v.selection.isCaret = true) : v.selectedText = [] := by
  rw [selectedText, Selection.isCaret_iff.1 h, Chars.slice?]
  split
  · rw [Option.getD_some, List.drop_eq_nil_of_le (List.length_take_le _ _)]
  · rfl

/-- At a caret there is nothing to format. -/
lemma run_of_isCaret (h : v.selection.isCaret = true) {t : Transform} (ht : t.Formats)
    (policy : Policy) : (t.run policy v).1 = v := by
  have hnone : Surface.selectedText v = [] := selectedText_of_isCaret h
  cases ht with
  | surrounds ht => rw [Transform.run_of_not_selected hnone ht.needsText]
  | breakThen ht => rw [Transform.run_of_not_selected hnone rfl]
  | unformat =>
    simp only [Transform.run, Transform.needsText, Bool.and_false]
    exact if_pos h

end Source

namespace Views

/-- What formatting keeps: the text of a canvas without anything in void elements. Either the canvas
is active, or it shows a source in which nothing is selected. -/
structure Keeps (text : Text) (d : Views) : Prop where
  voids : VoidsEmpty d.canvas.nodes
  text : d.canvas.text = text
  place : d.active = .rendered ∨ d.InStep ∧ d.source.selection.isCaret = true

variable {text : Text} {d : Views}

lemma Keeps.apply (h : d.Keeps text) {t : Transform} (ht : t.Formats) :
    (d.apply t .escaped).1.Keeps text := by
  by_cases hd : d.active = .rendered
  · refine ⟨?_, ?_, .inl ((active_apply d t _).trans hd)⟩
    · rw [canvas_apply_rendered hd]
      exact Transform.run_induction (P := fun v : Canvas => VoidsEmpty v.nodes)
        (fun v e hv => Canvas.voidsEmpty_edit hv e) h.voids t _
    · rw [canvas_apply_rendered hd, Canvas.text_run h.voids ht, h.text]
  · obtain ⟨hstep, hcaret⟩ := h.place.resolve_left hd
    -- the source stays as it is, and the canvas is made anew from it
    have hsame : (d.apply t .escaped).1 = d.refreshCanvas := by
      obtain ⟨v, source, active⟩ := d
      cases active with
      | rendered => exact absurd rfl hd
      | markup =>
        have hsource : (t.run .escaped source).1 = source := Source.run_of_isCaret hcaret ht _
        simp only [Views.apply, hsource]
        rfl
    have hnodes := hstep.nodes_refreshCanvas
    rw [hsame]
    exact ⟨hnodes ▸ h.voids, (congrArg plainText hnodes).trans h.text,
      .inr ⟨inStep_refreshCanvas d, hcaret⟩⟩

end Views

/-! ### Runs -/

namespace Session

/-- Selecting in the canvas, and acting by a name that is not of an action that changes the text. -/
def Step.Formats : Step → Prop
  | .selectRendered _ | .addRange _ => True
  | .act name => name ≠ "makeNewLine" ∧ name ≠ "deleteText"
  | _ => False

variable {settings : Settings}

lemma keeps_step (hlink : '"' ∉ settings.linkTarget) (himage : '"' ∉ settings.imageSource)
    {s : Session} (hr : s.registry = ⟨Standard.actions settings, .escaped⟩) {text : Text}
    (h : s.views.Keeps text) {step : Step} (hstep : step.Formats) :
    (s.step step).1.registry = s.registry ∧ (s.step step).1.views.Keeps text := by
  cases step with
  | selectRendered sel => exact ⟨rfl, h.voids, h.text, .inl rfl⟩
  | addRange sel => exact ⟨rfl, h.voids, h.text, .inl rfl⟩
  | act name =>
    rw [step_act]
    split
    · next a ha =>
      obtain ⟨hmem, rfl⟩ := Registry.mem_of_find?_eq_some ha
      rw [hr] at hmem
      refine ⟨rfl, ?_⟩
      rw [Session.apply, hr]
      exact h.apply (formats_of_mem_actions hlink himage hmem hstep)
    · exact ⟨rfl, h⟩
  | _ => exact hstep.elim

lemma keeps_run (hlink : '"' ∉ settings.linkTarget) (himage : '"' ∉ settings.imageSource)
    {s : Session} (hr : s.registry = ⟨Standard.actions settings, .escaped⟩) {text : Text}
    (h : s.views.Keeps text) {steps : List Step} (hsteps : ∀ step ∈ steps, step.Formats) :
    (s.run steps).views.Keeps text := by
  refine (run_induction (P := fun s => s.registry = ⟨Standard.actions settings, .escaped⟩ ∧
    s.views.Keeps text) (fun s step hmem hs => ?_) ⟨hr, h⟩).2
  obtain ⟨hregistry, hkeeps⟩ := keeps_step hlink himage hs.1 hs.2 (hsteps step hmem)
  exact ⟨hregistry.trans hs.1, hkeeps⟩

/-- **Formatting keeps the text**: when text is escaped, no selections in the canvas and no standard
actions but those that break the line and delete lose, double or move any of it. -/
theorem text_run_of_formats {r : Registry} (hr : Registry.ofSettings settings [] = .ok r)
    (hpolicy : settings.policy = .escaped) (hlink : '"' ∉ settings.linkTarget)
    (himage : '"' ∉ settings.imageSource) {d : Views}
    (hd : d.active = .rendered ∨ ∃ m host, d = .ofMarkup m host)
    (hvoids : VoidsEmpty d.canvas.nodes) {steps : List Step}
    (hsteps : ∀ step ∈ steps, step.Formats) :
    ((⟨r, d⟩ : Session).run steps).views.canvas.text = d.canvas.text := by
  obtain rfl : ⟨Standard.actions settings, settings.policy⟩ = r := Except.ok.inj hr
  have hplace : d.active = .rendered ∨ d.InStep ∧ d.source.selection.isCaret = true := by
    rcases hd with hd | ⟨m, host, rfl⟩
    · exact .inl hd
    · exact .inr ⟨(Views.Opened.markup m host).inStep, rfl⟩
  exact (keeps_run hlink himage (by rw [hpolicy]) ⟨hvoids, rfl, hplace⟩ hsteps).text

/-- A quote, which is two edits, is made of a backward selection; then two ranges that overlap, one
of them past the end, are made plain text. -/
theorem text_run_of_formats_quote :
    let d : Views := .ofCanvas (.ofMarkup "<h1>a<b>b&lt;</b></h1>d".toList .modern)
    let quote : List Step := [.selectRendered (some ⟨3, 1⟩), .act "makeTextQuote"]
    let steps : List Step := quote ++ [.addRange ⟨9, 0⟩, .act "removeTextTags"]
    let s : Session := ⟨⟨Standard.actions {policy := .escaped}, .escaped⟩, d⟩
    VoidsEmpty d.canvas.nodes ∧ (∀ step ∈ steps, step.Formats) ∧
      (s.run quote).views.canvas.markup =
        "<h1>a<b><br><blockquote>b&lt;</blockquote></b></h1>d".toList ∧
      (s.run steps).views.canvas.markup = "ab&lt;d".toList ∧
      (s.run steps).views.canvas.text = d.canvas.text := by
  intro d quote steps s
  have hvoids : VoidsEmpty d.canvas.nodes :=
    (wellFormed_normalize (wellFormed_parse _)).voidsEmpty
  have hsteps : ∀ step ∈ steps, step.Formats := by
    simp [steps, quote, Step.Formats]
  have hlink : '"' ∉ ({ policy := .escaped } : Settings).linkTarget := by decide +kernel
  have himage : '"' ∉ ({ policy := .escaped } : Settings).imageSource := by decide +kernel
  exact ⟨hvoids, hsteps, by decide +kernel, by decide +kernel,
    text_run_of_formats rfl rfl hlink himage (.inl rfl) hvoids hsteps⟩

end Session

end RichText
