import Mathlib.Tactic.Lemma
import RichText.Markup.Tree
import RichText.Proofs.Normalize

/-!
How events nest. An element comes into the document only when it is closed, yet the nodes stand in
the order of the events that make them, and each is directly inside the innermost element that is
open there. The outline of a document says both, for nodes numbered in document order, and what is
known of it while a document is built is kept by every event.
-/

namespace RichText

/-! ### Outlines -/

/-- A node without what is inside it. -/
inductive Item where
  | text (s : Text)
  | comment (s : Text)
  | element (tag : Tag)
  deriving DecidableEq, Repr

/-- A node in document order, with the number of the element that it is directly inside. -/
structure Outlined where
  item : Item
  parent : Option Nat
  deriving DecidableEq, Repr

mutual

def Node.outlineFrom (parent : Option Nat) (n : Nat) : Node → List Outlined
  | .text s => [⟨.text s, parent⟩]
  | .comment s => [⟨.comment s, parent⟩]
  | .element tag inside => ⟨.element tag, parent⟩ :: outlineFrom (some n) (n + 1) inside

/-- The nodes of a list at any depth, numbered from `n` on. -/
def outlineFrom (parent : Option Nat) (n : Nat) : List Node → List Outlined
  | [] => []
  | m :: ms =>
    m.outlineFrom parent n ++ outlineFrom parent (n + (m.outlineFrom parent n).length) ms

end

/-- The nodes of a document in document order, numbered from zero. -/
def outline (ns : List Node) : List Outlined := outlineFrom none 0 ns

section

variable (parent : Option Nat) (n : Nat)

@[simp] lemma outlineFrom_nil : outlineFrom parent n [] = [] := rfl
@[simp] lemma outlineFrom_text (s : Text) (ns : List Node) :
    outlineFrom parent n (.text s :: ns) =
      ⟨.text s, parent⟩ :: outlineFrom parent (n + 1) ns := rfl
@[simp] lemma outlineFrom_comment (s : Text) (ns : List Node) :
    outlineFrom parent n (.comment s :: ns) =
      ⟨.comment s, parent⟩ :: outlineFrom parent (n + 1) ns := rfl
@[simp] lemma outlineFrom_element (tag : Tag) (inside ns : List Node) :
    outlineFrom parent n (.element tag inside :: ns) =
      ⟨.element tag, parent⟩ :: (outlineFrom (some n) (n + 1) inside ++
        outlineFrom parent (n + ((outlineFrom (some n) (n + 1) inside).length + 1)) ns) := rfl

end

lemma outlineFrom_append (parent : Option Nat) (n : Nat) (ms ns : List Node) :
    outlineFrom parent n (ms ++ ns) = outlineFrom parent n ms ++
      outlineFrom parent (n + (outlineFrom parent n ms).length) ns := by
  induction ms generalizing n with
  | nil => rfl
  | cons m ms ih => simp [outlineFrom, ih, Nat.add_assoc]

def Item.plainText : Item → Text
  | .text s => s
  | .comment _ | .element _ => []

@[simp] lemma Item.plainText_text (s : Text) : (Item.text s).plainText = s := rfl
@[simp] lemma Item.plainText_comment (s : Text) : (Item.comment s).plainText = [] := rfl
@[simp] lemma Item.plainText_element (tag : Tag) : (Item.element tag).plainText = [] := rfl

lemma plainText_outlineFrom (parent : Option Nat) (n : Nat) (ns : List Node) :
    (outlineFrom parent n ns).flatMap (fun e => e.item.plainText) = plainText ns := by
  induction ns using Node.induction generalizing parent n with
  | nil => rfl
  | text s ns ih => simp [ih]
  | comment s ns ih => simp [ih]
  | element tag inside ns ihin ih => simp [ihin, ih]

/-- The nodes of a list are inside one element, or inside each other. -/
lemma parent_of_mem_outlineFrom {parent : Option Nat} {n : Nat} {ns : List Node} {e : Outlined}
    (h : e ∈ outlineFrom parent n ns) : e.parent = parent ∨ ∃ k, n ≤ k ∧ e.parent = some k := by
  induction ns using Node.induction generalizing parent n with
  | nil => cases h
  | text s ns ih =>
    rcases List.mem_cons.1 h with rfl | h
    · exact .inl rfl
    · exact (ih h).imp_right fun ⟨k, hk, hp⟩ => ⟨k, Nat.le_of_succ_le hk, hp⟩
  | comment s ns ih =>
    rcases List.mem_cons.1 h with rfl | h
    · exact .inl rfl
    · exact (ih h).imp_right fun ⟨k, hk, hp⟩ => ⟨k, Nat.le_of_succ_le hk, hp⟩
  | element tag inside ns ihin ih =>
    rcases List.mem_cons.1 h with rfl | h
    · exact .inl rfl
    rcases List.mem_append.1 h with h | h
    · rcases ihin h with hp | ⟨k, hk, hp⟩
      · exact .inr ⟨n, Nat.le_refl n, hp⟩
      · exact .inr ⟨k, Nat.le_of_succ_le hk, hp⟩
    · exact (ih h).imp_right fun ⟨k, hk, hp⟩ =>
        ⟨k, Nat.le_trans (Nat.le_add_right _ _) hk, hp⟩

/-- What is inside an element ends where the next node of its own list begins. -/
lemma takeWhile_outlineFrom {parent : Option Nat} {n : Nat} (hparent : ∀ k ∈ parent, k < n)
    (inside : List Node) (m : Nat) (ns : List Node) :
    (outlineFrom (some n) (n + 1) inside ++ outlineFrom parent m ns).takeWhile
        (fun e => e.parent != parent) = outlineFrom (some n) (n + 1) inside := by
  have hinside : ∀ e ∈ outlineFrom (some n) (n + 1) inside, (e.parent != parent) = true := by
    intro e he
    rw [bne_iff_ne]
    rintro rfl
    rcases parent_of_mem_outlineFrom he with hp | ⟨k, hk, hp⟩
    · exact absurd (hparent n hp) (Nat.lt_irrefl n)
    · have := hparent k hp
      omega
  have hnext : (outlineFrom parent m ns).takeWhile (fun e => e.parent != parent) = [] := by
    match ns with
    | [] => rfl
    | .text s :: ns => exact List.takeWhile_cons_of_neg (by simp)
    | .comment s :: ns => exact List.takeWhile_cons_of_neg (by simp)
    | .element tag inside :: ns => exact List.takeWhile_cons_of_neg (by simp)
  rw [List.takeWhile_append_of_pos hinside, hnext, List.append_nil]

lemma eq_of_outlineFrom_eq {parent : Option Nat} {n : Nat} (hparent : ∀ k ∈ parent, k < n)
    {ms ns : List Node} (h : outlineFrom parent n ms = outlineFrom parent n ns) : ms = ns := by
  induction ms using Node.induction generalizing parent n ns with
  | nil =>
    match ns, h with
    | [], _ => rfl
    | .text _ :: _, h | .comment _ :: _, h | .element _ _ :: _, h => cases h
  | text s ms ih =>
    match ns, h with
    | .text t :: ns, h =>
      simp only [outlineFrom_text, List.cons.injEq, Outlined.mk.injEq, Item.text.injEq] at h
      rw [h.1.1, ih (fun k hk => Nat.lt_succ_of_lt (hparent k hk)) h.2]
    | [], h | .comment _ :: _, h | .element _ _ :: _, h => cases h
  | comment s ms ih =>
    match ns, h with
    | .comment t :: ns, h =>
      simp only [outlineFrom_comment, List.cons.injEq, Outlined.mk.injEq, Item.comment.injEq] at h
      rw [h.1.1, ih (fun k hk => Nat.lt_succ_of_lt (hparent k hk)) h.2]
    | [], h | .text _ :: _, h | .element _ _ :: _, h => cases h
  | element tag inside ms ihin ih =>
    match ns, h with
    | .element tag' inside' :: ns, h =>
      simp only [outlineFrom_element, List.cons.injEq, Outlined.mk.injEq, Item.element.injEq] at h
      obtain ⟨⟨rfl, -⟩, hrest⟩ := h
      have hinside := congrArg (List.takeWhile fun e => e.parent != parent) hrest
      rw [takeWhile_outlineFrom hparent, takeWhile_outlineFrom hparent] at hinside
      obtain rfl := ihin (fun k hk => Option.some.inj hk ▸ Nat.lt_succ_self n) hinside
      rw [ih (fun k hk => Nat.lt_add_right _ (hparent k hk)) (List.append_cancel_left hrest)]
    | [], h | .text _ :: _, h | .comment _ :: _, h => cases h

/-- **A document is known** by its outline. -/
theorem outline_injective : Function.Injective outline := by
  intro ms ns h
  exact eq_of_outlineFrom_eq (by simp) h

/-! ### The trail of events -/

/-- The node that an event makes; an end tag makes none. -/
def Event.item? : Event → Option Item
  | .text s => some (.text s)
  | .comment s => some (.comment s)
  | .start tag => some (.element tag)
  | .stop _ => none

/-- The nodes that events have made, in order, and the elements that are still open, from the
innermost out, each with its number and its name. -/
structure Trail where
  made : List Outlined := []
  opened : List (Nat × Text) := []
  deriving DecidableEq, Repr

namespace Trail

def innermost (t : Trail) : Option Nat := t.opened.head?.map Prod.fst

def add (t : Trail) (item : Item) : Trail := { t with made := t.made ++ [⟨item, t.innermost⟩] }

def enter (t : Trail) (tag : Tag) : Trail :=
  ⟨(t.add (.element tag)).made, (t.made.length, tag.name) :: t.opened⟩

/-- Closes the nearest element of that name and all that are open inside it. If none of that name is
open, nothing is closed. -/
def close (t : Trail) (name : Text) : Trail :=
  if t.opened.any fun e => e.2 == name then
    { t with opened := (t.opened.dropWhile fun e => e.2 != name).tail }
  else t

def step (t : Trail) : Event → Trail
  | .text s => t.add (.text s)
  | .comment s => t.add (.comment s)
  | .start tag => if tag.isVoid then t.add (.element tag) else t.enter tag
  | .stop name => t.close name

def ofEvents (es : List Event) : Trail := es.foldl step {}

@[simp] lemma made_close (t : Trail) (name : Text) : (t.close name).made = t.made := by
  rw [close]
  split <;> rfl

/-- An event makes at most one node, and it is the innermost open element that this is put in. -/
lemma made_step (t : Trail) (e : Event) :
    (t.step e).made = t.made ++ (e.item?.map fun item => ⟨item, t.innermost⟩).toList := by
  cases e with
  | start tag =>
    rw [step]
    split <;> rfl
  | stop name => simp [step, Event.item?]
  | _ => rfl

lemma made_foldl (t : Trail) (es : List Event) :
    ∃ more, (es.foldl step t).made = t.made ++ more ∧
      more.map Outlined.item = es.filterMap Event.item? := by
  induction es generalizing t with
  | nil => exact ⟨[], (List.append_nil _).symm, rfl⟩
  | cons e es ih =>
    obtain ⟨more, hmade, hitems⟩ := ih (t.step e)
    rw [made_step, List.append_assoc] at hmade
    refine ⟨_, hmade, ?_⟩
    cases h : e.item? <;> simp [h, hitems]

/-- Void elements are not opened. -/
lemma isVoidName_of_mem_foldl {t : Trail} (h : ∀ e ∈ t.opened, isVoidName e.2 = false)
    (es : List Event) : ∀ e ∈ (es.foldl step t).opened, isVoidName e.2 = false := by
  induction es generalizing t with
  | nil => exact h
  | cons e es ih =>
    refine ih ?_
    cases e with
    | start tag =>
      rw [step]
      split
      · exact h
      · next hvoid => exact List.forall_mem_cons.2 ⟨Bool.not_eq_true _ ▸ hvoid, h⟩
    | stop name =>
      rw [step, close]
      split
      · exact fun e he => h e ((List.dropWhile_sublist _).subset (List.mem_of_mem_tail he))
      · exact h
    | _ => exact h

/-- The trail with the nodes behind it, inside the innermost open element. -/
def addAll (t : Trail) (ns : List Node) : Trail :=
  { t with made := t.made ++ outlineFrom t.innermost t.made.length ns }

@[simp] lemma addAll_nil (t : Trail) : t.addAll [] = t := by simp [addAll]

lemma addAll_append (t : Trail) (ms ns : List Node) :
    t.addAll (ms ++ ns) = (t.addAll ms).addAll ns := by
  simp [addAll, outlineFrom_append, innermost]

/-- To add an element is to open it, to add what is inside, and to close it. -/
lemma addAll_element (t : Trail) (tag : Tag) (inside : List Node) :
    t.addAll [.element tag inside] = ⟨((t.enter tag).addAll inside).made, t.opened⟩ := by
  simp [addAll, enter, add, innermost]

end Trail

/-! ### Documents part way through -/

namespace Unfinished

/-- The trail of the open elements and of what is before each of them. -/
def trailAround : List (Tag × List Node) → Trail
  | [] => {}
  | (tag, before) :: outer => ((trailAround outer).addAll before).enter tag

/-- The trail that can be read off a document part way through. -/
def trail (u : Unfinished) : Trail := (trailAround u.around).addAll u.nodes

lemma trail_add (u : Unfinished) (n : Node) : (u.add n).trail = u.trail.addAll [n] :=
  Trail.addAll_append _ u.nodes [n]

lemma opened_trail (u : Unfinished) :
    u.trail.opened.map Prod.snd = u.around.map fun level => level.1.name := by
  obtain ⟨nodes, around⟩ := u
  show (trailAround around).opened.map Prod.snd = _
  induction around with
  | nil => rfl
  | cons level outer ih => exact congrArg (level.1.name :: ·) ih

lemma trail_close (nodes before : List Node) (tag : Tag) (outer : List (Tag × List Node)) :
    trail ⟨before ++ [.element tag nodes], outer⟩ =
      ⟨(trail ⟨nodes, (tag, before) :: outer⟩).made, (trailAround outer).opened⟩ := by
  rw [trail, Trail.addAll_append, Trail.addAll_element]
  rfl

lemma trail_leaveFrom (name : Text) (nodes : List Node) (around : List (Tag × List Node)) :
    (leaveFrom name nodes around).trail =
      { trail ⟨nodes, around⟩ with
        opened := ((trailAround around).opened.dropWhile fun e => e.2 != name).tail } := by
  induction around generalizing nodes with
  | nil => rfl
  | cons level outer ih =>
    obtain ⟨tag, before⟩ := level
    have hopened : (trailAround ((tag, before) :: outer)).opened =
        (((trailAround outer).addAll before).made.length, tag.name) :: (trailAround outer).opened :=
      rfl
    rw [leaveFrom, hopened]
    split
    · next hname => rw [trail_close, List.dropWhile_cons_of_neg (by simpa using hname)]; rfl
    · next hname => rw [ih, trail_close, List.dropWhile_cons_of_pos (by simpa using hname)]

lemma any_opened_trail (u : Unfinished) (name : Text) :
    (u.trail.opened.any fun e => e.2 == name) =
      u.around.any fun level => level.1.name == name := by
  have hnames := congrArg (List.any · (· == name)) (opened_trail u)
  simp only [List.any_map] at hnames
  exact hnames

/-- An end tag of a name that no open element has does nothing. -/
lemma leave_of_not_opened {u : Unfinished} {name : Text}
    (h : ∀ e ∈ u.trail.opened, e.2 ≠ name) : u.leave name = u := by
  rw [leave, if_neg]
  rw [← any_opened_trail, Bool.not_eq_true, List.any_eq_false]
  simpa using h

lemma trail_leave (u : Unfinished) (name : Text) :
    (u.leave name).trail = u.trail.close name := by
  rw [leave, Trail.close, any_opened_trail]
  split
  · exact trail_leaveFrom name u.nodes u.around
  · rfl

/-- **Every event** does to the trail what it does to the document. -/
lemma trail_step (u : Unfinished) (e : Event) : (u.step e).trail = u.trail.step e := by
  cases e with
  | text s => exact trail_add u _
  | comment s => exact trail_add u _
  | start tag =>
    rw [step, Trail.step]
    split
    · exact trail_add u _
    · exact Trail.addAll_nil _
  | stop name => exact trail_leave u name

lemma trail_foldl (u : Unfinished) (es : List Event) :
    (es.foldl step u).trail = es.foldl Trail.step u.trail := by
  induction es generalizing u with
  | nil => rfl
  | cons e es ih => rw [List.foldl_cons, List.foldl_cons, ih, trail_step]

/-- Closing what is open at the end makes no node either. -/
lemma outline_finish (u : Unfinished) : outline u.finish = u.trail.made := by
  obtain ⟨nodes, around⟩ := u
  induction around generalizing nodes with
  | nil => rfl
  | cons level outer ih =>
    obtain ⟨tag, before⟩ := level
    rw [finish, finishFrom]
    exact (ih _).trans (by rw [trail_close])

end Unfinished

/-! ### Documents -/

lemma outline_ofEvents (es : List Event) : outline (ofEvents es) = (Trail.ofEvents es).made := by
  rw [ofEvents, Unfinished.outline_finish, Unfinished.trail_foldl]
  rfl

lemma trail_foldl_step (es : List Event) :
    (es.foldl Unfinished.step {}).trail = Trail.ofEvents es :=
  Unfinished.trail_foldl {} es

lemma items_outline_ofEvents (es : List Event) :
    (outline (ofEvents es)).map Outlined.item = es.filterMap Event.item? := by
  obtain ⟨more, hmade, hitems⟩ := Trail.made_foldl {} es
  rw [outline_ofEvents, Trail.ofEvents, hmade]
  exact hitems

/-- The text of an event, decoded; tags and comments have none. -/
def Event.plainText : Event → Text
  | .text s => s
  | .comment _ | .start _ | .stop _ => []

lemma plainText_ofEvents (es : List Event) :
    plainText (ofEvents es) = es.flatMap Event.plainText := by
  have hevents :
      (es.filterMap Event.item?).flatMap Item.plainText = es.flatMap Event.plainText := by
    induction es with
    | nil => rfl
    | cons e es ih => cases e <;> simp [List.filterMap_cons, Event.item?, Event.plainText, ih]
  rw [← hevents, ← items_outline_ofEvents, List.flatMap_map]
  exact (plainText_outlineFrom none 0 (ofEvents es)).symm

/-- **Events nest by the nearest match.** The nodes of a document stand in the order of the events
that make them, and each is inside the innermost element that is open at its event. An end tag does
nothing if no element of its name is open, as is always so for the name of a void element. So the
text of markup is that of its text events. -/
theorem document_order_ofEvents :
    (∀ es : List Event,
      (outline (ofEvents es)).map Outlined.item = es.filterMap Event.item?) ∧
    (∀ before e after, ∃ more, outline (ofEvents (before ++ e :: after)) =
      outline (ofEvents before) ++
        (e.item?.map fun item => ⟨item, (Trail.ofEvents before).innermost⟩).toList ++ more) ∧
    (∀ before name after,
      (isVoidName name = true ∨ ∀ o ∈ (Trail.ofEvents before).opened, o.2 ≠ name) →
        ofEvents (before ++ .stop name :: after) = ofEvents (before ++ after)) ∧
    ∀ s : Text, plainText (parse s) = (Event.ofMarkup s).flatMap Event.plainText := by
  refine ⟨items_outline_ofEvents, fun before e after => ?_, fun before name after hname => ?_,
    fun s => ?_⟩
  · obtain ⟨more, hmade, -⟩ := Trail.made_foldl ((Trail.ofEvents before).step e) after
    refine ⟨more, ?_⟩
    rw [Trail.made_step] at hmade
    rw [outline_ofEvents, outline_ofEvents, Trail.ofEvents, List.foldl_append, List.foldl_cons]
    exact hmade
  · have hopened : ∀ o ∈ (before.foldl Unfinished.step {}).trail.opened, o.2 ≠ name := by
      rw [trail_foldl_step]
      rcases hname with hvoid | hname
      · rintro o ho rfl
        have hproper := Trail.isVoidName_of_mem_foldl (t := {}) (fun _ h => nomatch h) before o ho
        rw [hvoid] at hproper
        cases hproper
      · exact hname
    have hstop : (before.foldl Unfinished.step {}).step (.stop name) =
        before.foldl Unfinished.step {} :=
      Unfinished.leave_of_not_opened hopened
    rw [ofEvents, ofEvents, List.foldl_append, List.foldl_append, List.foldl_cons, hstop]
  · rw [parse, plainText_normalize, plainText_ofEvents]

/-- Tags that cross, a void element, and end tags of names that are not open. -/
theorem document_order_ofEvents_crossing :
    let tag (name : String) : Tag := ⟨name.toList, []⟩
    let before : List Event := [.start (tag "b"), .text ['x'], .start (tag "i"), .start (tag "br"),
      .comment ['c']]
    let after : List Event := [.stop ['b'], .text ['y'], .stop ['i'], .start (tag "b"), .text ['z']]
    (Trail.ofEvents before).opened = [(2, ['i']), (0, ['b'])] ∧
      outline (ofEvents (before ++ .stop "br".toList :: after)) =
        [⟨.element (tag "b"), none⟩, ⟨.text ['x'], some 0⟩, ⟨.element (tag "i"), some 0⟩,
          ⟨.element (tag "br"), some 2⟩, ⟨.comment ['c'], some 2⟩, ⟨.text ['y'], none⟩,
          ⟨.element (tag "b"), none⟩, ⟨.text ['z'], some 6⟩] ∧
      ofEvents (before ++ .stop "br".toList :: after) = ofEvents (before ++ after) ∧
      ofEvents (before ++ .stop ['p'] :: after) = ofEvents (before ++ after) := by
  intro tag before after
  obtain ⟨-, -, hstop, -⟩ := document_order_ofEvents
  exact ⟨by decide +kernel, by decide +kernel, hstop before _ after (.inl (by decide +kernel)),
    hstop before _ after (.inr (by decide +kernel))⟩

end RichText
