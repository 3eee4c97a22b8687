import Mathlib.Tactic.Lemma
import RichText.Proofs.Conservation
import RichText.Proofs.Skipping

/-!
Selections stay in the text. Whatever is done to a canvas or to a source, by itself or in a session,
the ends of every selection are offsets of the text that is there then; and what an insertion puts
in is what is selected afterwards, or what the caret stands behind.
-/

namespace RichText

namespace Canvas

/-- Every range is in the text, with both of its ends. -/
def Inside (v : Canvas) : Prop := ∀ sel ∈ v.ranges, sel.anchor ≤ v.length ∧ sel.focus ≤ v.length

/-- What can be done to a canvas that is in no session. -/
inductive Step where
  | select (sel : Option Selection)
  | addRange (sel : Selection)
  | setNodes (ns : List Node)
  | setMarkup (s : Text)
  | edit (e : Edit)
  | transform (t : Transform) (policy : Policy)

def step (v : Canvas) : Step → Canvas
  | .select sel => v.select sel
  | .addRange sel => v.addRange sel
  | .setNodes ns => v.setNodes ns
  | .setMarkup s => v.setNodes (parse s)
  | .edit e => v.edit e
  | .transform t policy => (t.run policy v).1

def run (v : Canvas) (steps : List Step) : Canvas := steps.foldl step v

@[simp] lemma run_nil (v : Canvas) : v.run [] = v := rfl
@[simp] lemma run_cons (v : Canvas) (s : Step) (steps : List Step) :
    v.run (s :: steps) = (v.step s).run steps := rfl
lemma run_append (v : Canvas) (a b : List Step) : v.run (a ++ b) = (v.run a).run b :=
  List.foldl_append

variable {v : Canvas}

/-! ### Ranges in the text -/

lemma anchor_clamp_le (sel : Selection) (limit : Nat) :
    (sel.clamp limit).anchor ≤ limit ∧ (sel.clamp limit).focus ≤ limit :=
  ⟨Nat.min_le_right _ _, Nat.min_le_right _ _⟩

lemma inside_of_ranges_eq_nil (h : v.ranges = []) : v.Inside := by
  intro sel hsel
  rw [h] at hsel
  cases hsel

lemma inside_select (v : Canvas) (sel : Option Selection) : (v.select sel).Inside := by
  intro s hs
  obtain ⟨t, -, rfl⟩ := Option.map_eq_some_iff.1 (Option.mem_toList.1 hs)
  exact anchor_clamp_le t v.length

lemma Inside.addRange (h : v.Inside) (sel : Selection) : (v.addRange sel).Inside := by
  intro s hs
  rcases List.mem_append.1 hs with hs | hs
  · exact h s hs
  · obtain rfl := List.mem_singleton.1 hs
    exact anchor_clamp_le sel v.length

lemma inside_setNodes (v : Canvas) (ns : List Node) : (v.setNodes ns).Inside :=
  inside_of_ranges_eq_nil rfl

/-- An edit that changes the document moves the ranges into the new text. -/
lemma Inside.edit (h : v.Inside) (e : Edit) : (v.edit e).Inside := by
  rw [Canvas.edit]
  split
  · cases e with
    | unformat =>
      intro s hs
      obtain ⟨sel, -, rfl⟩ := List.mem_map.1 hs
      exact anchor_clamp_le sel _
    | replace i =>
      rw [editRange]
      split
      · exact inside_select _ _
      · exact h
  · unfold editTextRange
    split
    · exact h
    · exact inside_select _ _
    · split
      · exact h
      · exact inside_select _ _
  · exact h

lemma Inside.transform (h : v.Inside) (t : Transform) (policy : Policy) :
    (t.run policy v).1.Inside :=
  Transform.run_induction (P := Canvas.Inside) (fun _ e hw => hw.edit e) h t policy

lemma Inside.step (h : v.Inside) (s : Step) : (v.step s).Inside := by
  cases s with
  | select sel => exact inside_select v sel
  | addRange sel => exact h.addRange sel
  | setNodes ns => exact inside_setNodes v ns
  | setMarkup s => exact inside_setNodes v (parse s)
  | edit e => exact h.edit e
  | transform t policy => exact h.transform t policy

lemma Inside.run (h : v.Inside) (steps : List Step) : (v.run steps).Inside := by
  induction steps generalizing v with
  | nil => exact h
  | cons s steps ih => exact ih (h.step s)

lemma inside_ofNodes (ns : List Node) (host : Host) : (ofNodes ns host).Inside :=
  inside_of_ranges_eq_nil rfl

/-! ### What is selected after an insertion -/

/-- What is put in is selected through the range interface. -/
lemma selected_edit_range (h : VoidsEmpty v.nodes) {sel : Selection} (hsel : v.primary? = some sel)
    (hhost : v.host.interface = .range) {i : Insertion} {new : List Node}
    (hnew : i.built? = some new) :
    (v.edit (.replace i)).ranges =
        [⟨min sel.start v.length, min sel.start v.length + (plainText new).length⟩] ∧
      (v.edit (.replace i)).selectedText = plainText new := by
  have hvoids := (Insertion.wellFormed_built? hnew).voidsEmpty
  have hedit : v.edit (.replace i) = v.replaceSelecting sel .inner new := by
    simp only [Canvas.edit, hhost, editRange, hsel, hnew]
  have hranges := ranges_replaceSelecting h hvoids sel .inner
  have hwvoids : VoidsEmpty (v.replaceSelecting sel .inner new).nodes :=
    voidsEmpty_replaceSelected h hvoids sel .inner
  have hwhost : (v.replaceSelecting sel .inner new).host.interface ≠ .unavailable :=
    fun hnone => by cases hhost.symm.trans hnone
  have hprimary := congrArg List.head? hranges
  refine ⟨hedit ▸ hranges, ?_⟩
  rw [hedit, selectedText, readPrimary_eq hwhost hprimary, textIn_eq hwvoids, Selection.start,
    Selection.stop,
    Nat.min_eq_left (Nat.le_add_right _ _), Nat.max_eq_right (Nat.le_add_right _ _)]
  exact take_drop_replaceSelected h hvoids sel .inner

/-- Through the text range interface the caret stands behind it. -/
lemma selected_edit_textRange (h : VoidsEmpty v.nodes) {sel : Selection}
    (hsel : v.primary? = some sel) (hhost : v.host.interface = .textRange) (i : Insertion) :
    (v.edit (.replace i)).ranges =
        [.caret (min sel.start v.length + (plainText i.pasted).length)] ∧
      ((v.edit (.replace i)).text.take
        (min sel.start v.length + (plainText i.pasted).length)).drop (min sel.start v.length) =
          plainText i.pasted := by
  have hvoids := i.wellFormed_pasted.voidsEmpty
  rw [edit_replace_textRange hhost hsel]
  exact ⟨ranges_replaceLeaving h hvoids sel .inner, take_drop_replaceSelected h hvoids sel .inner⟩

end Canvas

/-- Elements can be made of the name that an insertion gives. -/
def Insertion.Named : Insertion → Prop
  | .element name _ => isElementName name = true
  | _ => True

lemma Insertion.Named.exists_built? {i : Insertion} (h : i.Named) : ∃ new, i.built? = some new := by
  cases i with
  | element name content =>
    have hname : isElementName name = true := h
    exact ⟨_, by rw [built?, wrapper?, if_pos hname]; rfl⟩
  | _ => exact ⟨_, rfl⟩

/-! ### Sources -/

namespace Source

/-- What can be done to a source that is in no session. -/
inductive Step where
  | select (sel : Selection)
  | setContent (s : Text)
  | edit (e : Edit)
  | transform (t : Transform) (policy : Policy)

def step (v : Source) : Step → Source
  | .select sel => v.select sel
  | .setContent s => v.setContent s
  | .edit e => v.edit e
  | .transform t policy => (t.run policy v).1

def run (v : Source) (steps : List Step) : Source := steps.foldl step v

@[simp] lemma run_nil (v : Source) : v.run [] = v := rfl
@[simp] lemma run_cons (v : Source) (s : Step) (steps : List Step) :
    v.run (s :: steps) = (v.step s).run steps := rfl

variable {v : Source}

lemma Inside.step (h : v.Inside) (s : Step) : (v.step s).Inside := by
  cases s with
  | select sel => exact inside_select v sel
  | setContent s => exact inside_setContent v s
  | edit e => exact h.edit e
  | transform t policy =>
    exact Transform.run_induction (P := Inside) (fun _ e hw => hw.edit e) h t policy

lemma Inside.run (h : v.Inside) (steps : List Step) : (v.run steps).Inside := by
  induction steps generalizing v with
  | nil => exact h
  | cons s steps ih => exact ih (h.step s)

end Source

/-! ### Sessions -/

/-- How a session starts: with markup, or with a canvas to which anything was done before. -/
inductive Views.Started : Views → Prop
  | markup (s : Text) (host : Host) : Started (.ofMarkup s host)
  | canvas (ns : List Node) (host : Host) (steps : List Canvas.Step) :
    Started (.ofCanvas ((Canvas.ofNodes ns host).run steps))

namespace Views

variable {d : Views}

/-- The ranges of the canvas and the selection of the source are in their texts. -/
structure Inside (d : Views) : Prop where
  canvas : d.canvas.Inside
  source : d.source.Inside

lemma Started.inside (h : Started d) : d.Inside := by
  cases h with
  | markup s host => exact ⟨Canvas.inside_ofNodes _ host, Source.inside_ofText s⟩
  | canvas ns host steps =>
    exact ⟨(Canvas.inside_ofNodes ns host).run steps, Source.inside_ofText _⟩

lemma inside_typed {v : Canvas} (h : v.Inside) (s : Text) : (typed v s).Inside := by
  rw [typed]
  split
  · exact Canvas.inside_select _ _
  · exact h.edit _

lemma inside_canvas_refresh (h : d.canvas.Inside) : d.refresh.canvas.Inside := by
  rw [refresh]
  split
  · exact h
  · exact Canvas.inside_setNodes _ _

lemma inside_canvas_apply (h : d.canvas.Inside) (t : Transform) (policy : Policy) :
    (d.apply t policy).1.canvas.Inside := by
  rw [apply]
  split
  · exact inside_canvas_refresh (h.transform t policy)
  · exact inside_canvas_refresh h

end Views

namespace Session

lemma inside_canvas_step {s : Session} (h : s.views.canvas.Inside) (step : Step) :
    (s.step step).1.views.canvas.Inside := by
  cases step with
  | selectRendered sel => exact Canvas.inside_select _ sel
  | addRange sel => exact h.addRange sel
  | selectMarkup sel => exact h
  | typeRendered t => exact Views.inside_typed h t
  | typeMarkup t => exact Canvas.inside_setNodes _ _
  | setMarkup t => exact Canvas.inside_setNodes _ _
  | refreshSource => exact h
  | refreshCanvas => exact Canvas.inside_setNodes _ _
  | refresh => exact Views.inside_canvas_refresh h
  | apply t => exact Views.inside_canvas_apply h t s.registry.policy
  | act name =>
    rw [step_act]
    split
    · next a _ => exact Views.inside_canvas_apply h a.transform s.registry.policy
    · exact h
  | register a =>
    rw [views_step_register]
    exact h

lemma inside_canvas_run {s : Session} (h : s.views.canvas.Inside) (steps : List Step) :
    (s.run steps).views.canvas.Inside :=
  run_induction (P := fun s => s.views.canvas.Inside)
    (fun _ step _ hs => inside_canvas_step hs step) h

end Session

/-- **Selections stay in the text**: after any steps every range of a canvas and the selection of a
source are in it, by themselves and in a session. On an insertion into a document with nothing in
void elements, the range interface selects what it put in, and the text range interface leaves a
caret behind it. -/
theorem selections_inside :
    (∀ ns host (steps : List Canvas.Step), ((Canvas.ofNodes ns host).run steps).Inside) ∧
    (∀ s (steps : List Source.Step), ((Source.ofText s).run steps).Inside) ∧
    (∀ r d (steps : List Session.Step), Views.Started d →
      ((⟨r, d⟩ : Session).run steps).views.Inside) ∧
    ∀ (v : Canvas) (sel : Selection) (i : Insertion), VoidsEmpty v.nodes → v.primary? = some sel →
      let w := v.edit (.replace i)
      let start := min sel.start v.length
      (v.host.interface = .range → i.Named → ∃ new, i.built? = some new ∧
        w.ranges = [⟨start, start + (plainText new).length⟩] ∧ w.selectedText = plainText new) ∧
      (v.host.interface = .textRange →
        w.ranges = [.caret (start + (plainText i.pasted).length)] ∧
        (w.text.take (start + (plainText i.pasted).length)).drop start = plainText i.pasted) := by
  refine ⟨fun ns host steps => (Canvas.inside_ofNodes ns host).run steps,
    fun s steps => (Source.inside_ofText s).run steps, fun r d steps hd => ?_,
    fun v sel i h hsel => ⟨fun hhost hname => ?_, fun hhost => ?_⟩⟩
  · exact ⟨Session.inside_canvas_run (s := ⟨r, d⟩) hd.inside.canvas steps,
      Session.inside_run (s := ⟨r, d⟩) hd.inside.source steps⟩
  · obtain ⟨new, hnew⟩ := hname.exists_built?
    exact ⟨new, hnew, Canvas.selected_edit_range h hsel hhost hnew⟩
  · exact Canvas.selected_edit_textRange h hsel hhost i

/-- A selection past the end is moved into the text; an element is made of half of it, and markup is
pasted over the other half on another host. -/
theorem selections_inside_wrap :
    let m := "a<br>bc".toList
    let v := (Canvas.ofMarkup m .modern).run [.select (some ⟨9, 1⟩)]
    let w := (Canvas.ofMarkup m .legacy).run [.addRange ⟨1, 9⟩, .addRange ⟨0, 9⟩]
    let d : Views := .ofCanvas w
    let r : Registry := ⟨Standard.actions {}, .verbatim⟩
    let i : Insertion := .element "B".toList "x<i>y</i>".toList
    v.ranges = [⟨3, 1⟩] ∧ w.ranges = [⟨1, 3⟩, ⟨0, 3⟩] ∧ v.Inside ∧
      ((⟨r, d⟩ : Session).run [.selectMarkup ⟨8, 2⟩, .act "deleteText"]).views.Inside ∧
      (v.edit (.replace i)).markup = "a<br><b>x<i>y</i></b>".toList ∧
      (v.edit (.replace i)).ranges = [⟨1, 3⟩] ∧
      (v.edit (.replace i)).selectedText = "xy".toList ∧
      (w.edit (.replace i)).ranges = [.caret 3] := by
  intro m v w d r i
  obtain ⟨hcanvas, -, hsession, hinsert⟩ := selections_inside
  have hvoids (host : Host) : VoidsEmpty (Canvas.ofMarkup m host).nodes :=
    (wellFormed_normalize (wellFormed_parse _)).voidsEmpty
  obtain ⟨new, hnew, hranges, htext⟩ :=
    (hinsert v ⟨3, 1⟩ i (hvoids .modern) (by decide +kernel)).1 rfl rfl
  have hcaret := (hinsert w ⟨1, 3⟩ i (hvoids .legacy) (by decide +kernel)).2 rfl
  have hplain : plainText new = "xy".toList := by
    obtain rfl := Option.some.inj hnew
    decide +kernel
  rw [hplain] at hranges htext
  refine ⟨by decide +kernel, by decide +kernel, hcanvas _ .modern _,
    hsession r d _ (.canvas _ .legacy _), by decide +kernel, ?_, htext, ?_⟩
  · exact hranges.trans (by decide +kernel)
  · exact hcaret.1.trans (by decide +kernel)

end RichText
