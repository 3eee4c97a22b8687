import Mathlib.Tactic.Lemma
import RichText.Action
import RichText.Canvas
import RichText.Proofs.Insertions
import RichText.Proofs.Tokens
import RichText.Views

/-!
What edits of a canvas keep: a document that reading markup can give becomes another such document,
whatever is put in, through either interface of the host.
-/

namespace RichText

lemma Readable.replaceSelected {ns new : List Node} (h : Readable ns) (hnew : WellFormed new)
    (sel : Selection) (reach : Reach) : Readable (replaceSelected ns sel reach new).nodes :=
  ⟨isNormal_replaceSelected ns new sel reach,
    wellFormed_replaceSelected h.wellFormed hnew sel reach⟩

/-! ### Edits of a canvas -/

namespace Canvas

@[simp] lemma nodes_replaceRange (v : Canvas) (sel : Selection) (reach : Reach) (new : List Node) :
    (v.replaceRange sel reach new).nodes = (replaceSelected v.nodes sel reach new).nodes := rfl

@[simp] lemma nodes_replaceSelecting (v : Canvas) (sel : Selection) (reach : Reach)
    (new : List Node) :
    (v.replaceSelecting sel reach new).nodes = (replaceSelected v.nodes sel reach new).nodes := rfl

@[simp] lemma nodes_replaceLeaving (v : Canvas) (sel : Selection) (reach : Reach)
    (new : List Node) :
    (v.replaceLeaving sel reach new).nodes = (replaceSelected v.nodes sel reach new).nodes := rfl

variable {v : Canvas}

/-- What replacing ranges by well-formed nodes and selecting others keep, an edit keeps. -/
theorem edit_induction {P : Canvas → Prop}
    (replace : ∀ w sel reach new, WellFormed new → P w → P (w.replaceRange sel reach new))
    (ranges : ∀ w sels, P w → P { w with ranges := sels }) (h : P v) (e : Edit) :
    P (v.edit e) := by
  have hunformat (sel : Selection) (w : Canvas) (hw : P w) : P (w.unformatRange sel) := by
    rw [unformatRange]
    split
    · exact hw
    · exact replace w sel .outer _ (wellFormed_textNode _) hw
  have hfold (sels : List Selection) : ∀ w, P w → P (sels.foldl unformatRange w) := by
    induction sels with
    | nil => exact fun w hw => hw
    | cons sel sels ih => exact fun w hw => ih _ (hunformat sel w hw)
  unfold edit
  split
  · unfold editRange
    split
    · exact ranges _ _ (hfold v.ranges v h)
    · split
      · next i sel new _ hnew =>
        exact ranges _ _ (replace v sel .inner new (Insertion.wellFormed_built? hnew) h)
      · exact h
  · unfold editTextRange
    split
    · exact h
    · next sel i _ => exact ranges _ _ (replace v sel .inner _ i.wellFormed_pasted h)
    · next sel _ =>
      split
      · exact h
      · exact ranges _ _ (replace v sel .outer _ (wellFormed_textNode _) h)
  · exact h

/-- **An edit** of a readable document gives a readable one. -/
theorem readable_edit (h : Readable v.nodes) (e : Edit) : Readable (v.edit e).nodes :=
  edit_induction (P := fun w => Readable w.nodes)
    (fun _ sel reach _ hnew hw => hw.replaceSelected hnew sel reach) (fun _ _ hw => hw) h e

@[simp] lemma host_edit (v : Canvas) (e : Edit) : (v.edit e).host = v.host :=
  edit_induction (P := fun w => w.host = v.host) (fun _ _ _ _ _ hw => hw) (fun _ _ hw => hw) rfl e

lemma readPrimary_eq {sel : Selection} (hhost : v.host.interface ≠ .unavailable)
    (hsel : v.primary? = some sel) (read : Selection → Text) : v.readPrimary read = read sel := by
  rw [readPrimary, hsel]
  cases hi : v.host.interface with
  | range => rfl
  | textRange => rfl
  | unavailable => exact absurd hi hhost

lemma edit_replace_range {sel : Selection} (hhost : v.host.interface = .range)
    (hsel : v.primary? = some sel) {i : Insertion} (hi : i.Plain) :
    v.edit (.replace i) = v.replaceSelecting sel .inner i.pasted := by
  simp only [edit, hhost, editRange, hsel, Insertion.built?_eq_pasted hi]

lemma edit_replace_textRange {sel : Selection} (hhost : v.host.interface = .textRange)
    (hsel : v.primary? = some sel) (i : Insertion) :
    v.edit (.replace i) = v.replaceLeaving sel .inner i.pasted := by
  simp only [edit, hhost, editTextRange, hsel]

lemma edit_replace_of_none (h : v.primary? = none) (i : Insertion) : v.edit (.replace i) = v := by
  rw [edit]
  split
  · simp only [editRange, h]
  · simp only [editTextRange, h]
  · rfl

/-- **Either interface** puts the same nodes in place of the primary range. -/
theorem nodes_edit_replace {sel : Selection} (hhost : v.host.interface ≠ .unavailable)
    (hsel : v.primary? = some sel) {i : Insertion} (hi : i.Plain) :
    (v.edit (.replace i)).nodes = (replaceSelected v.nodes sel .inner i.pasted).nodes := by
  cases hi' : v.host.interface with
  | range => rw [edit_replace_range hi' hsel hi, nodes_replaceSelecting]
  | textRange => rw [edit_replace_textRange hi' hsel, nodes_replaceLeaving]
  | unavailable => exact absurd hi' hhost

end Canvas

/-! ### Transforms -/

/-- What each edit of a surface keeps, a transform keeps. -/
lemma Transform.run_induction {σ : Type} [Surface σ] {P : σ → Prop}
    (hedit : ∀ s e, P s → P (Surface.edit s e)) {s : σ} (h : P s) (t : Transform)
    (policy : Policy) : P (t.run policy s).1 := by
  have hfold (es : List Edit) : ∀ s, P s → P (es.foldl Surface.edit s) := by
    induction es with
    | nil => exact fun s hs => hs
    | cons e es ih => exact fun s hs => ih _ (hedit s e hs)
  unfold Transform.run
  dsimp only
  split
  · exact h
  · exact hfold _ s h

/-- A transform of a selected text makes its edits. -/
lemma Transform.run_of_selected {σ : Type} [Surface σ] {s : σ} {text : Text}
    (hs : Surface.selectedText s = text) (hne : text ≠ []) (t : Transform) (policy : Policy) :
    t.run policy s = ((t.edits (policy.content text)).foldl Surface.edit s, true) := by
  have hempty : text.isEmpty = false := by simpa using hne
  simp only [Transform.run, hs, hempty, Bool.false_and]
  rfl

lemma Transform.run_of_not_selected {σ : Type} [Surface σ] {s : σ}
    (hs : Surface.selectedText s = []) {t : Transform} (ht : t.needsText = true)
    (policy : Policy) : t.run policy s = (s, false) := by
  simp only [Transform.run, hs, ht]
  rfl

lemma Transform.run_of_skipped {σ : Type} [Surface σ] {s : σ} {t : Transform} {policy : Policy}
    (h : (t.run policy s).2 = false) : (t.run policy s).1 = s := by
  simp only [Transform.run] at h ⊢
  split at h
  · next hskip => rw [if_pos hskip]
  · cases h

namespace Views

@[simp] lemma active_refresh (d : Views) : d.refresh.active = d.active := by
  rw [refresh]
  split <;> rfl

@[simp] lemma active_apply (d : Views) (t : Transform) (policy : Policy) :
    (d.apply t policy).1.active = d.active := by
  rw [apply]
  split <;> exact active_refresh _

variable {d : Views}

lemma canvas_apply_rendered (hd : d.active = .rendered) (t : Transform) (policy : Policy) :
    (d.apply t policy).1.canvas = (t.run policy d.canvas).1 := by
  obtain ⟨v, source, active⟩ := d
  obtain rfl : active = .rendered := hd
  rfl

/-- The source is written anew from the canvas. -/
lemma content_apply_rendered (hd : d.active = .rendered) (t : Transform) (policy : Policy) :
    (d.apply t policy).1.source.content = (t.run policy d.canvas).1.markup := by
  obtain ⟨v, source, active⟩ := d
  obtain rfl : active = .rendered := hd
  rfl

lemma answer_apply_rendered (hd : d.active = .rendered) (t : Transform) (policy : Policy) :
    (d.apply t policy).2 = (t.run policy d.canvas).2 := by
  rw [apply, hd]

end Views

end RichText
