import Mathlib.Tactic.Lemma
import RichText.Markup.Tree
import RichText.Markup.WellFormed
import RichText.Proofs.StartTag

/-!
Building a document from events. `Builds es ns` says that the events add the nodes to whatever is
being built, which is how the events of a part of a document are told from those around it. What
well-formed events build is well-formed.
-/

namespace RichText

namespace Unfinished

/-- Only elements that have an end tag are open. -/
def Proper (u : Unfinished) : Prop := ∀ level ∈ u.around, level.1.isVoid = false

def addAll (u : Unfinished) (ns : List Node) : Unfinished := { u with nodes := u.nodes ++ ns }

@[simp] lemma addAll_nil (u : Unfinished) : u.addAll [] = u := by simp [addAll]
@[simp] lemma addAll_addAll (u : Unfinished) (ms ns : List Node) :
    (u.addAll ms).addAll ns = u.addAll (ms ++ ns) := by simp [addAll]

lemma Proper.addAll {u : Unfinished} (h : u.Proper) (ns : List Node) : (u.addAll ns).Proper := h

lemma Proper.enter {u : Unfinished} (h : u.Proper) {tag : Tag} (htag : tag.isVoid = false) :
    (u.enter tag).Proper := by
  intro level hlevel
  rcases List.mem_cons.1 hlevel with rfl | hlevel
  · exact htag
  · exact h level hlevel

/-- The end tag of the innermost element closes that element. -/
lemma leave_enter_addAll (u : Unfinished) (tag : Tag) (ns : List Node) :
    ((u.enter tag).addAll ns).leave tag.name = u.addAll [.element tag ns] := by
  simp [leave, enter, addAll, leaveFrom]

/-- No element is open that an end tag of a void name could close. -/
lemma leave_of_isVoidName {u : Unfinished} (h : u.Proper) {name : Text}
    (hname : isVoidName name = true) : u.leave name = u := by
  rw [leave, if_neg]
  intro hopen
  obtain ⟨level, hlevel, heq⟩ := List.any_eq_true.1 hopen
  have hproper : isVoidName level.1.name = false := h level hlevel
  rw [eq_of_beq heq, hname] at hproper
  cases hproper

end Unfinished

open Unfinished

/-! ### The events of a part -/

def Builds (es : List Event) (ns : List Node) : Prop :=
  ∀ u : Unfinished, u.Proper → es.foldl Unfinished.step u = u.addAll ns

namespace Builds

variable {es fs : List Event} {ms ns : List Node}

lemma nil : Builds [] [] := fun u _ => (addAll_nil u).symm

lemma text (s : Text) : Builds [.text s] [.text s] := fun _ _ => rfl

lemma comment (s : Text) : Builds [.comment s] [.comment s] := fun _ _ => rfl

lemma void {tag : Tag} (h : tag.isVoid = true) : Builds [.start tag] [.element tag []] := by
  intro u _
  simp [Unfinished.step, h, add, addAll]

lemma strayStop {name : Text} (h : isVoidName name = true) : Builds [.stop name] [] := by
  intro u hu
  rw [addAll_nil]
  exact leave_of_isVoidName hu h

lemma append (h : Builds es ms) (h' : Builds fs ns) : Builds (es ++ fs) (ms ++ ns) := by
  intro u hu
  rw [List.foldl_append, h u hu, h' _ (hu.addAll ms), addAll_addAll]

lemma element {tag : Tag} (htag : tag.isVoid = false) (h : Builds es ns) :
    Builds (.start tag :: (es ++ [.stop tag.name])) [.element tag ns] := by
  intro u hu
  have hstart : u.step (.start tag) = u.enter tag := by simp [Unfinished.step, htag]
  rw [List.foldl_cons, hstart, List.foldl_append, h _ (hu.enter htag)]
  exact leave_enter_addAll u tag ns

/-- Events by themselves make the document that they add anywhere. -/
theorem ofEvents_eq (h : Builds es ns) : ofEvents es = ns := by
  rw [ofEvents, h {} (by simp [Proper])]
  rfl

end Builds

/-! ### Well-formed events -/

def Event.WellFormed : Event → Prop
  | .text _ => True
  | .comment s => ¬"-->".toList <:+: s
  | .start tag => tag.WellFormed
  | .stop _ => True

namespace Unfinished

/-- What is finished is well-formed, and so are the tags of the open elements. -/
structure WellFormed (u : Unfinished) : Prop where
  nodes : RichText.WellFormed u.nodes
  tags : ∀ level ∈ u.around, level.1.WellFormed ∧ level.1.isVoid = false
  befores : ∀ level ∈ u.around, RichText.WellFormed level.2

lemma WellFormed.add {u : Unfinished} (h : u.WellFormed) {n : Node} (hn : n.WellFormed) :
    (u.add n).WellFormed :=
  ⟨wellFormed_append.2 ⟨h.nodes, hn, trivial⟩, h.tags, h.befores⟩

lemma WellFormed.enter {u : Unfinished} (h : u.WellFormed) {tag : Tag} (htag : tag.WellFormed)
    (hvoid : tag.isVoid = false) : (u.enter tag).WellFormed := by
  refine ⟨trivial, fun level hlevel => ?_, fun level hlevel => ?_⟩
  · rcases List.mem_cons.1 hlevel with rfl | hlevel
    · exact ⟨htag, hvoid⟩
    · exact h.tags level hlevel
  · rcases List.mem_cons.1 hlevel with rfl | hlevel
    · exact h.nodes
    · exact h.befores level hlevel

/-- Closing the innermost element keeps what is finished well-formed. -/
lemma WellFormed.close {nodes before : List Node} {tag : Tag} {outer : List (Tag × List Node)}
    (h : WellFormed ⟨nodes, (tag, before) :: outer⟩) :
    WellFormed ⟨before ++ [.element tag nodes], outer⟩ := by
  obtain ⟨hnodes, htags, hbefores⟩ := h
  obtain ⟨htag, hvoid⟩ : tag.WellFormed ∧ tag.isVoid = false :=
    htags (tag, before) List.mem_cons_self
  have helement : (Node.element tag nodes).WellFormed :=
    ⟨htag, by simp [hvoid], hnodes⟩
  exact ⟨wellFormed_append.2 ⟨hbefores (tag, before) List.mem_cons_self, helement, trivial⟩,
    fun level hlevel => htags level (List.mem_cons_of_mem _ hlevel),
    fun level hlevel => hbefores level (List.mem_cons_of_mem _ hlevel)⟩

lemma WellFormed.leaveFrom {name : Text} {nodes : List Node} {around : List (Tag × List Node)}
    (h : WellFormed ⟨nodes, around⟩) : (leaveFrom name nodes around).WellFormed := by
  induction around generalizing nodes with
  | nil => exact h
  | cons level outer ih =>
    rw [Unfinished.leaveFrom]
    split
    · exact h.close
    · exact ih h.close

lemma WellFormed.step {u : Unfinished} (h : u.WellFormed) {e : Event} (he : e.WellFormed) :
    (u.step e).WellFormed := by
  cases e with
  | text s => exact h.add trivial
  | comment s => exact h.add he
  | start tag =>
    rw [Unfinished.step]
    split
    · exact h.add ⟨he, fun _ => rfl, trivial⟩
    · next hvoid => exact h.enter he (by simpa using hvoid)
  | stop name =>
    rw [Unfinished.step, leave]
    split
    · exact h.leaveFrom
    · exact h

lemma WellFormed.run {es : List Event} {u : Unfinished} (h : u.WellFormed)
    (hes : ∀ e ∈ es, e.WellFormed) : (es.foldl Unfinished.step u).WellFormed := by
  induction es generalizing u with
  | nil => exact h
  | cons e es ih =>
    exact ih (h.step (hes e List.mem_cons_self)) fun f hf => hes f (List.mem_cons_of_mem e hf)

lemma WellFormed.finish {u : Unfinished} (h : u.WellFormed) : RichText.WellFormed u.finish := by
  obtain ⟨nodes, around⟩ := u
  induction around generalizing nodes with
  | nil => exact h.nodes
  | cons level outer ih => exact ih _ h.close

end Unfinished

/-- **Well-formed events describe a well-formed document.** -/
theorem wellFormed_ofEvents {es : List Event} (h : ∀ e ∈ es, e.WellFormed) :
    WellFormed (ofEvents es) := by
  have hstart : Unfinished.WellFormed {} := ⟨trivial, by simp, by simp⟩
  exact (hstart.run h).finish

end RichText
