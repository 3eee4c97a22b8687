import Mathlib.Tactic.Lemma
import RichText.Proofs.Edits
import RichText.Source

/-!
Transforms of the source. Each edit of a transform takes the place of what is selected and leaves a
caret behind it, where the next one goes on; so all of them together write one text over the
selected one, and nothing else of the source changes.
-/

namespace RichText

/-! ### What is written -/

namespace Transform

/-- What a transform writes at a caret. There is no formatting to take away there. -/
def written (content : Text) : Transform → Text
  | wrap name => enclosed name name content
  | enclose opening closing => enclosed opening closing content
  | lineBreak => "<br>".toList
  | breakThen next => "<br>".toList ++ written content next
  | delete | unformat => []

/-- What a transform writes over a selected text. -/
def rewritten (policy : Policy) (selected : Text) : Transform → Text
  | unformat => escapeText (plainText (parse selected))
  | t => t.written (policy.content selected)

lemma rewritten_of_ne {t : Transform} (ht : t ≠ .unformat) (policy : Policy) (selected : Text) :
    t.rewritten policy selected = t.written (policy.content selected) := by
  cases t with
  | unformat => exact absurd rfl ht
  | _ => rfl

end Transform

/-! ### The selected text -/

/-- In either direction, the selection covers a text between two others. -/
structure Source.Covers (v : Source) (before selected after : Text) : Prop where
  content : v.content = before ++ selected ++ after
  selection : v.selection.ordered = ⟨before.length, before.length + selected.length⟩

namespace Source

variable {v : Source} {before selected after : Text}

lemma Covers.start (h : v.Covers before selected after) : v.selection.start = before.length :=
  (Selection.mk.inj h.selection).1

lemma Covers.stop (h : v.Covers before selected after) :
    v.selection.stop = before.length + selected.length :=
  (Selection.mk.inj h.selection).2

lemma covers_caret (before after : Text) :
    Covers ⟨before ++ after, .caret before.length⟩ before [] after := by
  refine ⟨by rw [List.append_nil], ?_⟩
  simp only [Selection.ordered, Selection.start_caret, Selection.stop_caret]
  rfl

lemma Covers.selectedText (h : v.Covers before selected after) : v.selectedText = selected := by
  rw [Source.selectedText, h.content, h.start, h.stop, Chars.slice?_append]
  rfl

lemma Covers.splice (h : v.Covers before selected after) (s : Text) :
    v.splice s = ⟨before ++ s ++ after, .caret (before.length + s.length)⟩ := by
  rw [Source.splice, h.content, h.start, h.stop, Chars.replace_append]

/-- A source without a selected text is known by what is before and after its caret. -/
lemma Covers.eq_of_nil (h : v.Covers before [] after) :
    v = ⟨before ++ after, .caret before.length⟩ := by
  obtain ⟨content, anchor, focus⟩ := v
  obtain ⟨hcontent, hselection⟩ := h
  simp only [Selection.ordered, Selection.start, Selection.stop, List.length_nil, Nat.add_zero,
    Selection.mk.injEq] at hselection
  obtain rfl : anchor = before.length := by omega
  obtain rfl : focus = before.length := by omega
  rw [List.append_nil] at hcontent
  exact congrArg (fun s => (⟨s, _⟩ : Source)) hcontent

/-! ### Transforms -/

/-- The edits of a transform write one after the other: the selected text gives way to the first of
them, and each leaves a caret for the next. -/
lemma Covers.edits (h : v.Covers before selected after) (content : Text) {t : Transform}
    (ht : t = .unformat → selected = []) :
    (t.edits content).foldl Surface.edit v =
      ⟨before ++ t.written content ++ after,
        .caret (before.length + (t.written content).length)⟩ := by
  induction t generalizing v before selected with
  | breakThen next ih =>
    have hbreak : Surface.edit v (.replace .lineBreak) =
        ⟨before ++ "<br>".toList ++ after, .caret (before ++ "<br>".toList).length⟩ := by
      rw [List.length_append]
      exact h.splice _
    rw [Transform.edits, List.foldl_cons, hbreak, ih (covers_caret _ _) fun _ => rfl,
      Transform.written, List.length_append, List.length_append, List.append_assoc before,
      Nat.add_assoc]
  | unformat =>
    obtain rfl := ht rfl
    have hcaret : v.selection.isCaret = true := Selection.isCaret_iff.2 (h.start.trans h.stop.symm)
    rw [Transform.written, List.append_nil]
    exact (if_pos hcaret).trans h.eq_of_nil
  | _ => exact h.splice _

/-- A transform that has something to act on writes its text over the selected one. -/
lemma Covers.edits_rewritten (h : v.Covers before selected after) {t : Transform}
    (ht : t = .unformat → selected ≠ []) (policy : Policy) :
    (t.edits (policy.content selected)).foldl Surface.edit v =
      ⟨before ++ t.rewritten policy selected ++ after,
        .caret (before.length + (t.rewritten policy selected).length)⟩ := by
  by_cases hplain : t = .unformat
  · subst hplain
    have hcaret : ¬v.selection.isCaret = true := fun hc => by
      have hlen := Selection.isCaret_iff.1 hc
      rw [h.start, h.stop, Nat.left_eq_add, List.length_eq_zero_iff] at hlen
      exact ht rfl hlen
    have htext : v.unformatted = Transform.unformat.rewritten policy selected := by
      rw [unformatted, h.selectedText]
      rfl
    have hedit : Surface.edit v .unformat = v.splice v.unformatted := if_neg hcaret
    rw [Transform.edits, List.foldl_cons, List.foldl_nil, hedit, htext, h.splice]
  · rw [h.edits _ fun h => absurd h hplain, Transform.rewritten_of_ne hplain]

/-- **A transform of the source is one splice**: it writes its text over the selected one and leaves
a caret behind that. At a caret there is nothing to do for a transform that needs a text, and taking
away formatting changes nothing. -/
theorem run_eq_splice (h : v.Covers before selected after) (t : Transform) (policy : Policy) :
    t.run policy v =
      if selected = [] ∧ t.needsText = true then (v, false)
      else if selected = [] ∧ t = .unformat then (v, true)
      else (⟨before ++ t.rewritten policy selected ++ after,
        .caret (before.length + (t.rewritten policy selected).length)⟩, true) := by
  have hselected : Surface.selectedText v = selected := h.selectedText
  split
  · next hskip =>
    obtain ⟨rfl, hneeds⟩ := hskip
    exact Transform.run_of_not_selected hselected hneeds policy
  · next hacts =>
    have hrun : t.run policy v =
        ((t.edits (policy.content selected)).foldl Surface.edit v, true) := by
      have hskip : ¬(selected.isEmpty && t.needsText) = true := by simpa using hacts
      simp only [Transform.run, hselected, if_neg hskip]
    rw [hrun]
    split
    · next hplain =>
      obtain ⟨rfl, rfl⟩ := hplain
      rw [h.edits _ fun _ => rfl, h.eq_of_nil, Transform.written, List.append_nil]
      rfl
    · next hplain =>
      rw [h.edits_rewritten (fun ht hnil => hplain ⟨hnil, ht⟩)]

/-- Over a backward selection of markup two breaks are written, and the escaped markup in bold. -/
theorem run_eq_splice_breaks :
    let v : Source := ⟨"a<b>x&amp;</b>".toList, ⟨10, 4⟩⟩
    let bold := Transform.breakThen (.breakThen (.wrap "b".toList))
    v.Covers "a<b>".toList "x&amp;".toList "</b>".toList ∧
      bold.run .escaped v =
        (⟨"a<b><br><br><b>x&amp;amp;</b></b>".toList, .caret 29⟩, true) := by
  intro v bold
  have h : v.Covers "a<b>".toList "x&amp;".toList "</b>".toList := ⟨rfl, rfl⟩
  exact ⟨h, (run_eq_splice h bold .escaped).trans (by decide +kernel)⟩

/-- Behind a break there is nothing left to take the formatting of. -/
example :
    let v : Source := ⟨"a<i>x&amp;</i>".toList, ⟨1, 14⟩⟩
    (Transform.unformat.run .escaped v).1.content = "ax&amp;".toList ∧
      ((Transform.breakThen .unformat).run .escaped v).1.content = "a<br>".toList := by
  decide +kernel

end Source

end RichText
