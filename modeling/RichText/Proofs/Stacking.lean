import Mathlib.Data.List.Forall2
import Mathlib.Tactic.Lemma
import RichText.Proofs.Conservation
import RichText.Proofs.Ranges
import RichText.Proofs.Splice
import RichText.Proofs.StandardActions

/-!
One element in the other. The range interface keeps the text that was put back selected, and the
inner span of that selection is the run of its characters: it is inside the element put there last.
So an element made next is made in that one, and a row of wraps is one replacement of the selection
by a text in all of them.
-/

namespace RichText

/-! ### Nested elements -/

/-- A text in elements that are one in the other, the first of them outermost. -/
def nested (tags : List Tag) (s : Text) : Node :=
  tags.foldr (fun tag n => .element tag [n]) (.text s)

@[simp] lemma nested_nil (s : Text) : nested [] s = .text s := rfl

@[simp] lemma nested_cons (tag : Tag) (tags : List Tag) (s : Text) :
    nested (tag :: tags) s = .element tag [nested tags s] := rfl

section Nested

variable {outer inner tags : List Tag} {tag : Tag} {s : Text}

@[simp] lemma plainText_nested (tags : List Tag) (s : Text) : plainText [nested tags s] = s := by
  induction tags with
  | nil => rw [nested_nil, plainText_text, plainText_nil, List.append_nil]
  | cons tag tags ih => rw [nested_cons, plainText_element, ih, plainText_nil, List.append_nil]

lemma charsOf_starts (tags : List Tag) : charsOf (tags.map .start) = [] := by
  induction tags with
  | nil => rfl
  | cons tag tags ih => exact ih

/-- **The row of nested elements**: start tags and as many end tags, around the row of what is in
the innermost of them. -/
lemma tokens_nested_append (houter : ∀ tag ∈ outer, tag.isVoid = false) (inner : List Tag)
    (s : Text) :
    tokens [nested (outer ++ inner) s] =
      outer.map .start ++ tokens [nested inner s] ++ List.replicate outer.length .stop := by
  induction outer with
  | nil => simp
  | cons tag outer ih =>
    obtain ⟨htag, htags⟩ := List.forall_mem_cons.1 houter
    rw [List.cons_append, nested_cons, tokens_cons,
      Node.tokens_element (Bool.eq_false_iff.1 htag), ih htags, tokens_nil, List.append_nil,
      List.length_cons, List.replicate_succ', List.map_cons]
    simp only [List.cons_append, List.append_assoc]

lemma voidsEmpty_nested (h : ∀ tag ∈ tags, tag.isVoid = false) : VoidsEmpty [nested tags s] := by
  induction tags with
  | nil => exact ⟨trivial, trivial⟩
  | cons tag tags ih =>
    obtain ⟨htag, htags⟩ := List.forall_mem_cons.1 h
    refine ⟨⟨fun hvoid => ?_, ih htags⟩, trivial⟩
    rw [htag] at hvoid
    cases hvoid

end Nested

/-! ### Transforms that make one element -/

/-- A transform puts any text back in one element of that tag. -/
def Transform.PutsIn (t : Transform) (tag : Tag) : Prop := tag.isVoid = false ∧ t.Puts tag

lemma Transform.putsIn_wrap {name : Text}
    (h : isElementName name = true ∧ isVoidName name = false) :
    (Transform.wrap name).PutsIn ⟨Ascii.lower name, []⟩ :=
  ⟨(isVoid_plainTag name).trans h.2, puts_wrap h.1 h.2⟩

/-- It is one insertion of that element. -/
lemma Transform.PutsIn.exists_insertion {t : Transform} {tag : Tag} (h : t.PutsIn tag) {s : Text}
    (hs : s ≠ []) : ∃ i : Insertion, t.edits (escapeText s) = [.replace i] ∧ i.Plain ∧
      i.pasted = [nested [tag] s] := by
  obtain ⟨hvoid, put, hput⟩ := h
  obtain ⟨hedits, hplain, hpasted⟩ := hput s
  have hnormal : IsNormal [nested [tag] s] :=
    ⟨⟨hs, fun hnext => Bool.false_ne_true hnext.2, trivial⟩, fun hnext =>
      Bool.false_ne_true hnext.1, trivial⟩
  have haround : tag.around s = [nested [tag] s] := by
    rw [Tag.around, hvoid]
    rfl
  exact ⟨put s, hedits, hplain, by rw [hpasted, haround, normalize_of_isNormal hnormal]⟩

namespace Canvas

/-! ### Putting in what was put in -/

/-- The canvas after a text in elements took the place of a selection. -/
def stack (v : Canvas) (sel : Selection) (tags : List Tag) (s : Text) : Canvas :=
  v.replaceSelecting sel .inner [nested tags s]

/-- The range of a text that took the place of a selection. -/
def placed (v : Canvas) (sel : Selection) (s : Text) : Selection :=
  ⟨min sel.start v.length, min sel.start v.length + s.length⟩

variable {v : Canvas} {sel : Selection} {outer inner tags : List Tag} {tag : Tag} {s : Text}
  {t : Transform}

@[simp] lemma start_placed (v : Canvas) (sel : Selection) (s : Text) :
    (v.placed sel s).start = min sel.start v.length :=
  Nat.min_eq_left (Nat.le_add_right _ _)

@[simp] lemma stop_placed (v : Canvas) (sel : Selection) (s : Text) :
    (v.placed sel s).stop = min sel.start v.length + s.length :=
  Nat.max_eq_right (Nat.le_add_right _ _)

@[simp] lemma nodes_stack (v : Canvas) (sel : Selection) (tags : List Tag) (s : Text) :
    (v.stack sel tags s).nodes = (replaceSelected v.nodes sel .inner [nested tags s]).nodes := rfl

lemma voidsEmpty_stack (h : VoidsEmpty v.nodes) (htags : ∀ tag ∈ tags, tag.isVoid = false)
    (sel : Selection) (s : Text) : VoidsEmpty (v.stack sel tags s).nodes :=
  voidsEmpty_replaceSelected h (voidsEmpty_nested htags) sel .inner

/-- The text in the elements stays selected. -/
lemma ranges_stack (h : VoidsEmpty v.nodes) (htags : ∀ tag ∈ tags, tag.isVoid = false)
    (sel : Selection) (s : Text) : (v.stack sel tags s).ranges = [v.placed sel s] := by
  rw [stack, ranges_replaceSelecting h (voidsEmpty_nested htags), plainText_nested, placed]

lemma primary?_stack (h : VoidsEmpty v.nodes) (htags : ∀ tag ∈ tags, tag.isVoid = false)
    (sel : Selection) (s : Text) : (v.stack sel tags s).primary? = some (v.placed sel s) := by
  rw [primary?, ranges_stack h htags]
  rfl

lemma start_le_length_stack (h : VoidsEmpty v.nodes) (htags : ∀ tag ∈ tags, tag.isVoid = false)
    (sel : Selection) (s : Text) : min sel.start v.length ≤ (v.stack sel tags s).length :=
  Nat.le_trans (Nat.le_add_right _ _)
    (stop_replaceSelected_le h (@voidsEmpty_nested tags s htags) sel .inner)

/-- **The row of stacked elements**: their tags stand around the characters of the text, and around
what is put in the innermost of them in its place. -/
lemma exists_tokens_stack (h : VoidsEmpty v.nodes) (houter : ∀ tag ∈ outer, tag.isVoid = false)
    (sel : Selection) (s : Text) :
    ∃ us ws, (v.placed sel s).start = (charsOf us).length ∧
      (v.placed sel s).stop = (charsOf us).length + s.length ∧
      tokens (v.stack sel outer s).nodes = us ++ s.map .char ++ ws ∧ ∀ inner : List Tag,
        (∀ tag ∈ inner, tag.isVoid = false) →
          tokens (v.stack sel (outer ++ inner) s).nodes = us ++ tokens [nested inner s] ++ ws := by
  let r := sel.span .inner (tokens v.nodes)
  let us := r.keptBefore (tokens v.nodes) ++ outer.map .start
  let ws := List.replicate outer.length .stop ++ r.keptAfter (tokens v.nodes)
  have hlen : (charsOf us).length = min sel.start v.length := by
    rw [charsOf_append, charsOf_starts, List.append_nil, charsOf_keptBefore, List.length_take,
      length_charsOf_tokens h]
  have hrow (inner : List Tag) (hinner : ∀ tag ∈ inner, tag.isVoid = false) :
      tokens (v.stack sel (outer ++ inner) s).nodes = us ++ tokens [nested inner s] ++ ws := by
    have hall : ∀ tag ∈ outer ++ inner, tag.isVoid = false :=
      List.forall_mem_append.2 ⟨houter, hinner⟩
    rw [nodes_stack, tokens_replaceSelected_of_voidsEmpty h (voidsEmpty_nested hall),
      tokens_nested_append houter]
    simp only [List.append_assoc, r, us, ws]
  have hchars := hrow [] (List.forall_mem_nil _)
  rw [List.append_nil, nested_nil, tokens_cons, tokens_nil, List.append_nil] at hchars
  refine ⟨us, ws, ?_, ?_, hchars, hrow⟩
  · rw [start_placed, hlen]
  · rw [stop_placed, hlen]

lemma textIn_stack (h : VoidsEmpty v.nodes) (hs : s ≠ [])
    (htags : ∀ tag ∈ tags, tag.isVoid = false) (sel : Selection) :
    (v.stack sel tags s).textIn (v.placed sel s) = s := by
  obtain ⟨us, ws, hstart, hstop, hchars, -⟩ := exists_tokens_stack h htags sel s
  rw [textIn, hchars]
  exact text_of_chars hs hstart hstop

/-- **What takes the place of the text** is put in the innermost of the elements. -/
theorem stack_stack (h : VoidsEmpty v.nodes) (hs : s ≠ [])
    (houter : ∀ tag ∈ outer, tag.isVoid = false) (hinner : ∀ tag ∈ inner, tag.isVoid = false)
    (sel : Selection) :
    (v.stack sel outer s).stack (v.placed sel s) inner s = v.stack sel (outer ++ inner) s := by
  have hall : ∀ tag ∈ outer ++ inner, tag.isVoid = false :=
    List.forall_mem_append.2 ⟨houter, hinner⟩
  have hnodes : ((v.stack sel outer s).stack (v.placed sel s) inner s).nodes =
      (v.stack sel (outer ++ inner) s).nodes := by
    obtain ⟨us, ws, hstart, hstop, hchars, hrow⟩ := exists_tokens_stack h houter sel s
    have hnormal : IsNormal (v.stack sel (outer ++ inner) s).nodes :=
      isNormal_replaceSelected _ _ _ _
    calc ((v.stack sel outer s).stack (v.placed sel s) inner s).nodes
        = ofTokens (us ++ tokens [nested inner s] ++ ws) :=
          nodes_replaceSelected_of_chars hs hchars hstart hstop [nested inner s]
      _ = ofTokens (tokens (v.stack sel (outer ++ inner) s).nodes) := by rw [hrow inner hinner]
      _ = (v.stack sel (outer ++ inner) s).nodes := by
          rw [ofTokens_tokens, normalize_of_isNormal hnormal]
  have hranges : ((v.stack sel outer s).stack (v.placed sel s) inner s).ranges =
      (v.stack sel (outer ++ inner) s).ranges := by
    rw [ranges_stack (voidsEmpty_stack h houter sel s) hinner, ranges_stack h hall, placed,
      start_placed, Nat.min_eq_left (start_le_length_stack h houter sel s), placed]
  exact congrArg₂ (fun nodes ranges => (⟨nodes, ranges, v.host⟩ : Canvas)) hnodes hranges

/-- In it the text is selected. -/
lemma selectedText_stack (h : VoidsEmpty v.nodes) (hhost : v.host.interface = .range) (hs : s ≠ [])
    (htags : ∀ tag ∈ tags, tag.isVoid = false) (sel : Selection) :
    (v.stack sel tags s).selectedText = s := by
  have hwhost : (v.stack sel tags s).host.interface ≠ .unavailable :=
    fun hnone => by cases hhost.symm.trans hnone
  rw [selectedText, readPrimary_eq hwhost (primary?_stack h htags sel s)]
  exact textIn_stack h hs htags sel

/-! ### Runs -/

/-- A transform puts the selected text in an element. -/
lemma run_putsIn (hhost : v.host.interface = .range) (hsel : v.primary? = some sel)
    (htext : v.selectedText = s) (hs : s ≠ []) (ht : t.PutsIn tag) :
    (t.run .escaped v).1 = v.stack sel [tag] s := by
  obtain ⟨i, hedits, hplain, hpasted⟩ := ht.exists_insertion hs
  have hedits' : t.edits (Policy.content .escaped s) = [.replace i] := hedits
  rw [Transform.run_of_selected htext hs, hedits', stack, ← hpasted]
  exact edit_replace_range hhost hsel hplain

/-- **One more transform** puts the text in one more element. -/
lemma run_putsIn_stack (h : VoidsEmpty v.nodes) (hhost : v.host.interface = .range) (hs : s ≠ [])
    (houter : ∀ tag ∈ outer, tag.isVoid = false) (ht : t.PutsIn tag) (sel : Selection) :
    (t.run .escaped (v.stack sel outer s)).1 = v.stack sel (outer ++ [tag]) s := by
  have hwhost : (v.stack sel outer s).host.interface = .range := hhost
  have hselected := selectedText_stack h hhost hs houter sel
  have hone : ∀ x ∈ [tag], x.isVoid = false := List.forall_mem_singleton.2 ht.1
  rw [run_putsIn hwhost (primary?_stack h houter sel s) hselected hs ht]
  exact stack_stack h hs houter hone sel

/-- More transforms put it in more elements. -/
lemma run_putsIn_all_stack (h : VoidsEmpty v.nodes) (hhost : v.host.interface = .range)
    (hs : s ≠ []) {transforms : List Transform}
    (hall : List.Forall₂ Transform.PutsIn transforms inner)
    (houter : ∀ tag ∈ outer, tag.isVoid = false) (sel : Selection) :
    (v.stack sel outer s).run (transforms.map fun t => .transform t .escaped) =
      v.stack sel (outer ++ inner) s := by
  induction hall generalizing outer with
  | nil =>
    rw [List.append_nil]
    rfl
  | @cons t tag ts inner ht _ ih =>
    have hmore : ∀ x ∈ outer ++ [tag], x.isVoid = false :=
      List.forall_mem_append.2 ⟨houter, List.forall_mem_singleton.2 ht.1⟩
    have hstep : (v.stack sel outer s).step (.transform t .escaped) =
        v.stack sel (outer ++ [tag]) s := run_putsIn_stack h hhost hs houter ht sel
    rw [List.map_cons, run_cons, hstep, ih hmore, List.append_assoc, List.singleton_append]

/-- **A row of transforms** puts the text in a row of elements. -/
theorem run_putsIn_all (h : VoidsEmpty v.nodes) (hhost : v.host.interface = .range)
    (hsel : v.primary? = some sel) (hne : v.selectedText ≠ []) {transforms : List Transform}
    (hall : List.Forall₂ Transform.PutsIn transforms tags) (htags : tags ≠ []) :
    v.run (transforms.map fun t => .transform t .escaped) = v.stack sel tags v.selectedText := by
  cases hall with
  | nil => exact absurd rfl htags
  | @cons t tag ts inner ht hin =>
    have hstep : v.step (.transform t .escaped) = v.stack sel [tag] v.selectedText :=
      run_putsIn hhost hsel rfl hne ht
    rw [List.map_cons, run_cons, hstep,
      run_putsIn_all_stack h hhost hne hin (List.forall_mem_singleton.2 ht.1),
      List.singleton_append]

/-- The selected text takes its own place. -/
lemma placed_textIn (h : VoidsEmpty v.nodes) (sel : Selection) :
    v.placed sel (v.textIn sel) = sel.ordered.clamp v.length := by
  have hlen : (v.textIn sel).length = min sel.stop v.length - min sel.start v.length := by
    rw [textIn_eq_slice h, List.length_drop, List.length_take, ← length]
    omega
  have hle := sel.start_le_stop
  simp only [placed, hlen, Selection.ordered, Selection.clamp, Selection.mk.injEq, true_and]
  omega

/-- **Wraps stack on the selection**: one after the other, without selecting again, they make the
document that one replacement of the selection makes, by its text in all of the elements. What is
selected is the same text in the same range, its smaller offset first; so it is after each of them,
as the first wraps of a row are a row of wraps. -/
theorem run_wraps (h : VoidsEmpty v.nodes) (hhost : v.host.interface = .range)
    (hsel : v.primary? = some sel) (hne : v.selectedText ≠ []) {names : List Text}
    (hnames : names ≠ [])
    (hvalid : ∀ name ∈ names, isElementName name = true ∧ isVoidName name = false) :
    let w := v.run (names.map fun name => .transform (.wrap name) .escaped)
    let tags := names.map fun name => ⟨Ascii.lower name, []⟩
    w.nodes = (replaceSelected v.nodes sel .inner [nested tags v.selectedText]).nodes ∧
      w.selectedText = v.selectedText ∧ w.ranges = [sel.ordered.clamp v.length] ∧
      (sel.stop ≤ v.length → w.ranges = [sel.ordered]) := by
  intro w tags
  have hall : List.Forall₂ Transform.PutsIn (names.map .wrap) tags := by
    rw [List.forall₂_map_left_iff, List.forall₂_map_right_iff, List.forall₂_same]
    exact fun name hname => Transform.putsIn_wrap (hvalid name hname)
  have htags : ∀ tag ∈ tags, tag.isVoid = false := by
    intro tag htag
    obtain ⟨name, hname, rfl⟩ := List.mem_map.1 htag
    exact (Transform.putsIn_wrap (hvalid name hname)).1
  have hw : w = v.stack sel tags v.selectedText := by
    have htags : tags ≠ [] := fun hnil => hnames (List.map_eq_nil_iff.1 hnil)
    have hrun := run_putsIn_all h hhost hsel hne hall htags
    rwa [List.map_map] at hrun
  have htext : v.selectedText = v.textIn sel :=
    readPrimary_eq (fun hnone => by cases hhost.symm.trans hnone) hsel _
  have hranges : w.ranges = [sel.ordered.clamp v.length] := by
    rw [hw, ranges_stack h htags, htext, placed_textIn h]
  refine ⟨by rw [hw, nodes_stack], by rw [hw, selectedText_stack h hhost hne htags], hranges,
    fun hle => ?_⟩
  have hordered : sel.ordered.stop = sel.stop := Nat.max_eq_right sel.start_le_stop
  rw [hranges, Selection.clamp_of_stop_le (hordered ▸ hle)]

/-- Three wraps of a selection from behind a paragraph back into an element of it. -/
theorem run_wraps_three :
    let v := (ofMarkup "<p>a<b>b<!--c-->c</b></p><br>d<i>e</i>".toList .modern).select (some ⟨4, 1⟩)
    let names := ["B".toList, "i".toList, "x-Note".toList]
    let w := v.run (names.map fun name => .transform (.wrap name) .escaped)
    v.selectedText = "bcd".toList ∧
      w.markup = "<p>a<b></b></p><b><i><x-note>bcd</x-note></i></b><i>e</i>".toList ∧
      w.nodes = (replaceSelected v.nodes ⟨4, 1⟩ .inner
        [nested (names.map fun name => ⟨Ascii.lower name, []⟩) v.selectedText]).nodes ∧
      w.selectedText = v.selectedText ∧
      w.ranges = [(Selection.mk 4 1).ordered.clamp v.length] ∧
      (Selection.stop ⟨4, 1⟩ ≤ v.length → w.ranges = [⟨1, 4⟩]) := by
  intro v names w
  have hwf : WellFormed v.nodes := wellFormed_normalize (wellFormed_parse _)
  exact ⟨by decide +kernel, by decide +kernel,
    run_wraps hwf.voidsEmpty rfl (by decide +kernel) (by decide +kernel) (by decide) (by decide)⟩

end Canvas

end RichText
