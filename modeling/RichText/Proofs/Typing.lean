import Mathlib.Tactic.Lemma
import RichText.Proofs.Breaking
import RichText.Views

/-!
Typing piece by piece. Of where a text was typed only an offset is kept, and the next text goes
where the caret of that offset stands: behind the leaves of its gap. Behind a caret there are none,
so from the second text on the pieces stand together; the first one goes in before the leaves that
follow a selection, and if there are none the pieces make one text.
-/

namespace RichText

open Boundary

/-! ### Behind a caret -/

lemma gap_drop {ts : List Token} {i : Nat} (hi : i ≤ (gap ts).length) :
    gap (ts.drop i) = (gap ts).drop i := by
  induction ts generalizing i with
  | nil => rw [List.drop_nil, gap_nil, List.drop_nil]
  | cons t ts ih =>
    cases i with
    | zero => rfl
    | succ i =>
      cases t with
      | char c => cases hi
      | _ => exact ih (Nat.le_of_succ_le_succ hi)

/-- Past their reach a gap has no leaves. -/
lemma any_isLeaf_gap_drop {ts : List Token} {i : Nat} (hreach : leafReach ts ≤ i)
    (hi : i ≤ (gap ts).length) : (gap (ts.drop i)).any Token.isLeaf = false := by
  let p : Token → Bool := fun t => !t.isLeaf
  have hsplit : gap ts =
      ((gap ts).reverse.dropWhile p).reverse ++ ((gap ts).reverse.takeWhile p).reverse := by
    rw [← List.reverse_append, List.takeWhile_append_dropWhile, List.reverse_reverse]
  have hlen : ((gap ts).reverse.dropWhile p).reverse.length ≤ i := by
    rw [List.length_reverse]
    exact hreach
  rw [gap_drop hi, hsplit, List.drop_append, List.drop_eq_nil_of_le hlen, List.nil_append]
  refine List.any_eq_false.2 fun t ht => ?_
  have hin := List.mem_reverse.1 (List.mem_of_mem_drop ht)
  have hp : p t = true := List.all_eq_true.1 List.all_takeWhile t hin
  simpa [p] using hp

/-- A caret behind a character stands behind the leaves that follow it; before all characters and
leaves it stands behind the gap. -/
lemma caret_append {us : List Token} (hus : gap us.reverse = []) (ws : List Token) :
    caret (charsOf us).length (us ++ ws) =
      us.length + if leafReach ws = 0 ∧ (charsOf us).length = 0 then (gap ws).length
        else leafReach ws := by
  have hfirst := first_append us ws
  rw [hus, List.length_nil, Nat.add_zero] at hfirst
  have hstop := Nat.max_eq_left (first_le_last (charsOf us).length (us ++ ws))
  have hgap := take_last us ws
  simp only [caret, hstop, hgap]
  rw [hfirst, List.drop_left, last_append, leafReach]
  split <;> rfl

/-- **Behind a caret** there are no leaves before the next character. -/
theorem any_isLeaf_gapAfter_caret {ts : List Token} {n : Nat} (hn : n ≤ (charsOf ts).length) :
    (gapAfter ts (caret n ts)).any Token.isLeaf = false := by
  obtain ⟨us, ws, rfl, rfl, hus⟩ := exists_append_of_le hn
  have hreach := leafReach_le ws
  rw [caret_append hus, gapAfter, List.drop_length_add_append]
  split
  · exact any_isLeaf_gap_drop hreach (Nat.le_refl _)
  · exact any_isLeaf_gap_drop (Nat.le_refl _) hreach

/-! ### Replacing a selection in two pieces -/

section Pieces

variable {ns : List Node} {sel : Selection} {a b : Text}

/-- A caret, or a selection without leaves between its last character and the next one, leaves no
leaves behind what takes its place. -/
lemma leafReach_keptAfter_span {ts : List Token} (h : sel.isCaret = true ∨
    (gapAfter ts (sel.span .inner ts).stop).any Token.isLeaf = false) :
    leafReach ((sel.span .inner ts).keptAfter ts) = 0 := by
  refine (leafReach_keptAfter _ ts).2 ?_
  rcases h with hcaret | hleaf
  · have hle : min sel.stop (charsOf ts).length ≤ min sel.start (charsOf ts).length :=
      Nat.le_of_eq (by rw [Selection.isCaret_iff.1 hcaret])
    rw [span_of_le .inner hle]
    exact any_isLeaf_gapAfter_caret (Nat.min_le_right _ _)
  · exact hleaf

/-- **A text in two pieces** takes the place of a selection as the whole text does. -/
theorem replaceSelected_append (h : VoidsEmpty ns) (ha : a ≠ [])
    (hleaf : leafReach ((sel.span .inner (tokens ns)).keptAfter (tokens ns)) = 0) (b : Text) :
    (replaceSelected (replaceSelected ns sel .inner [.text a]).nodes
        (.caret (min sel.start (plainText ns).length + a.length)) .inner [.text b]).nodes =
      (replaceSelected ns sel .inner [.text (a ++ b)]).nodes := by
  have hvoids (s : Text) : VoidsEmpty [.text s] := ⟨trivial, trivial⟩
  have hchars (s : Text) : tokens [.text s] = s.map .char := List.append_nil _
  have hrow (s : Text) := tokens_replaceSelected_of_voidsEmpty h (hvoids s) sel .inner
  simp only [hchars] at hrow
  have hbefore := charsOf_keptBefore sel .inner (tokens ns)
  generalize (sel.span .inner (tokens ns)).keptBefore (tokens ns) = us at *
  generalize (sel.span .inner (tokens ns)).keptAfter (tokens ns) = ws at *
  -- behind the first piece stands the caret
  have hlen : (charsOf (us ++ a.map Token.char)).length =
      min sel.start (plainText ns).length + a.length := by
    rw [charsOf_append, hbefore, charsOf_map_char, List.length_append, List.length_take,
      charsOf_tokens h]
  have hgap : gap (us ++ a.map Token.char).reverse = [] := by
    obtain ⟨s, c, rfl⟩ := (List.eq_nil_or_concat' a).resolve_left ha
    simp
  have hcaret : caret (charsOf (us ++ a.map Token.char)).length (us ++ a.map Token.char ++ ws) =
      (us ++ a.map Token.char).length := by
    have hpos : (charsOf (us ++ a.map Token.char)).length ≠ 0 := by
      have := List.length_pos_iff.2 ha
      omega
    rw [caret_append hgap, if_neg fun hzero => hpos hzero.2, hleaf, Nat.add_zero]
  refine eq_of_tokens_eq (isNormal_replaceSelected _ _ _ _) (isNormal_replaceSelected _ _ _ _) ?_
  have hle : (charsOf (us ++ a.map Token.char)).length ≤
      (charsOf (tokens (replaceSelected ns sel .inner [.text a]).nodes)).length := by
    rw [hrow, charsOf_append (us ++ a.map Token.char), List.length_append]
    exact Nat.le_add_right _ _
  have htwice := tokens_replaceSelected_caret
    (voidsEmpty_replaceSelected h (hvoids a) sel .inner) (hvoids b) hle .inner
  rw [← hlen, htwice, hrow, hrow, hcaret, insertNodes, List.take_left, List.drop_left, hchars,
    List.map_append]
  simp only [List.append_assoc]

end Pieces

/-! ### Typing in a canvas -/

namespace Views

variable {v : Canvas} {sel : Selection} {a b : Text}

/-- A canvas in which text was typed, with a caret behind it. -/
def afterTyped (v : Canvas) (sel : Selection) (s : Text) : Canvas :=
  ⟨(replaceSelected v.nodes sel .inner [.text s]).nodes,
    [.caret (min sel.start v.length + s.length)], v.host⟩

/-- **Typing** does the same through either interface. -/
lemma typed_eq (h : VoidsEmpty v.nodes) (hhost : v.host.interface ≠ .unavailable)
    (hsel : v.primary? = some sel) (s : Text) : typed v s = afterTyped v sel s := by
  have hvoids : VoidsEmpty [.text s] := ⟨trivial, trivial⟩
  have hplain : plainText [.text s] = s := List.append_nil s
  have hle := stop_replaceSelected_le h hvoids sel .inner
  rw [hplain] at hle
  have hclamp : (Selection.caret (min sel.start v.length + s.length)).clamp
      (plainText (replaceSelected v.nodes sel .inner [.text s]).nodes).length =
        .caret (min sel.start v.length + s.length) :=
    Selection.clamp_of_stop_le ((Selection.stop_caret _).trans_le hle)
  -- whichever range is left, its end is where the caret goes
  have htyped {w : Canvas} {last : Selection} (hedit : v.edit (.replace (.text s)) = w)
      (hnodes : w.nodes = (replaceSelected v.nodes sel .inner [.text s]).nodes)
      (hranges : w.ranges = [last]) (hlast : last.stop = min sel.start v.length + s.length) :
      typed v s = afterTyped v sel s := by
    have hwhost : w.host = v.host := hedit ▸ Canvas.host_edit v _
    have hlen : w.length =
        (plainText (replaceSelected v.nodes sel .inner [.text s]).nodes).length := by
      rw [Canvas.length, Canvas.text, hnodes]
    simp only [typed, hedit, Canvas.primary?, hranges, List.head?_cons, hlast, Canvas.select,
      Option.map_some, Option.toList_some, hlen, hclamp, hnodes, hwhost, afterTyped]
  have hinsert : Insertion.Plain (.text s) := trivial
  cases hi : v.host.interface with
  | range =>
    refine htyped (Canvas.edit_replace_range hi hsel hinsert) (Canvas.nodes_replaceSelecting ..)
      (Canvas.ranges_replaceSelecting h hvoids sel .inner) ?_
    rw [hplain]
    exact Nat.max_eq_right (Nat.le_add_right _ _)
  | textRange =>
    refine htyped (Canvas.edit_replace_textRange hi hsel (.text s)) (Canvas.nodes_replaceLeaving ..)
      (Canvas.ranges_replaceLeaving h hvoids sel .inner) ?_
    rw [hplain, Selection.stop_caret]
  | unavailable => exact absurd hi hhost

/-- Without an interface only the range is made a caret. -/
lemma typed_of_unavailable (hhost : v.host.interface = .unavailable)
    (hsel : v.primary? = some sel) (s : Text) : typed v s = v.select (some (.caret sel.stop)) := by
  have hedit : v.edit (.replace (.text s)) = v := by rw [Canvas.edit, hhost]
  simp only [typed, hedit, hsel]

lemma typed_of_none (hnone : v.primary? = none) (s : Text) : typed v s = v := by
  have hedit := Canvas.edit_replace_of_none hnone (.text s)
  simp only [typed, hedit, hnone]

lemma typed_typed_of_unavailable (hhost : v.host.interface = .unavailable)
    (hsel : v.primary? = some sel) (a b : Text) : typed (typed v a) b = typed v a := by
  have hprimary : (v.select (some (.caret sel.stop))).primary? =
      some ((Selection.caret sel.stop).clamp v.length) := rfl
  have hstop : ((Selection.caret sel.stop).clamp v.length).stop = min sel.stop v.length :=
    Nat.max_self _
  have hsame : (Selection.caret (min sel.stop v.length)).clamp v.length =
      (Selection.caret sel.stop).clamp v.length := by
    simp [Selection.clamp, Selection.caret]
  have hwhost : (v.select (some (.caret sel.stop))).host.interface = .unavailable := hhost
  rw [typed_of_unavailable hhost hsel, typed_of_unavailable hwhost hprimary, hstop]
  exact congrArg (fun s => (⟨v.nodes, [s], v.host⟩ : Canvas)) hsame

lemma typed_typed (h : VoidsEmpty v.nodes) (hhost : v.host.interface ≠ .unavailable)
    (hsel : v.primary? = some sel) (ha : a ≠ [])
    (hleaf : leafReach ((sel.span .inner (tokens v.nodes)).keptAfter (tokens v.nodes)) = 0)
    (b : Text) : typed (typed v a) b = typed v (a ++ b) := by
  have hvoids : VoidsEmpty [.text a] := ⟨trivial, trivial⟩
  have hle := stop_replaceSelected_le h hvoids sel .inner
  have hplain : plainText [.text a] = a := List.append_nil a
  rw [hplain] at hle
  have hnodes : (afterTyped (afterTyped v sel a)
      (.caret (min sel.start v.length + a.length)) b).nodes = (afterTyped v sel (a ++ b)).nodes :=
    replaceSelected_append h ha hleaf b
  have hcaret : min (Selection.caret (min sel.start v.length + a.length)).start
      (afterTyped v sel a).length + b.length = min sel.start v.length + (a ++ b).length := by
    rw [Selection.start_caret, List.length_append, ← Nat.add_assoc]
    exact congrArg (· + b.length) (Nat.min_eq_left hle)
  have hafter : VoidsEmpty (afterTyped v sel a).nodes :=
    voidsEmpty_replaceSelected h hvoids sel .inner
  rw [typed_eq h hhost hsel, typed_eq h hhost hsel, typed_eq hafter hhost rfl]
  exact congrArg₂ (fun nodes n => (⟨nodes, [.caret n], v.host⟩ : Canvas)) hnodes hcaret

/-- **Typing in pieces** is typing at once: the canvas, the active view and the content of the
source come to be the same, if the canvas has no primary range, or this is a caret, or no leaf is
between its last character and the next one. -/
theorem typeRendered_typeRendered {d : Views} (h : VoidsEmpty d.canvas.nodes) (ha : a ≠ [])
    (hsel : ∀ sel, d.canvas.primary? = some sel → sel.isCaret = true ∨
      (gapAfter (tokens d.canvas.nodes) (sel.span .inner (tokens d.canvas.nodes)).stop).any
        Token.isLeaf = false) (b : Text) :
    let pieces := (d.typeRendered a).typeRendered b
    let whole := d.typeRendered (a ++ b)
    pieces.canvas = whole.canvas ∧ pieces.active = whole.active ∧
      pieces.source.content = whole.source.content := by
  intro pieces whole
  have hcanvas : typed (typed d.canvas a) b = typed d.canvas (a ++ b) := by
    cases hprimary : d.canvas.primary? with
    | none => rw [typed_of_none hprimary, typed_of_none hprimary, typed_of_none hprimary]
    | some sel =>
      by_cases hhost : d.canvas.host.interface = .unavailable
      · rw [typed_typed_of_unavailable hhost hprimary, typed_of_unavailable hhost hprimary,
          typed_of_unavailable hhost hprimary]
      · exact typed_typed h hhost hprimary ha (leafReach_keptAfter_span (hsel sel hprimary)) b
  exact ⟨hcanvas, rfl, congrArg Canvas.markup hcanvas⟩

/-- Over a backward selection that leaves an element and cuts another, before a tag. -/
theorem typeRendered_typeRendered_backward :
    let d := (ofCanvas (.ofMarkup "<p>a<br>b</p><!--c--><i>c<b>d</b></i>".toList
      .legacy)).selectRendered (some ⟨3, 1⟩)
    let pieces := (d.typeRendered "x&".toList).typeRendered "<y".toList
    let whole := d.typeRendered "x&<y".toList
    d.canvas.selectedText = "bc".toList ∧
      whole.source.content = "<p>a<br></p>x&amp;&lt;y<i><b>d</b></i>".toList ∧
      pieces.canvas = whole.canvas ∧ pieces.active = whole.active ∧
      pieces.source.content = whole.source.content := by
  intro d pieces whole
  have hwf : WellFormed d.canvas.nodes := wellFormed_normalize (wellFormed_parse _)
  have hprimary : d.canvas.primary? = some ⟨3, 1⟩ := by decide +kernel
  refine ⟨by decide +kernel, by decide +kernel,
    typeRendered_typeRendered hwf.voidsEmpty (by decide) (fun sel hsel => .inr ?_) "<y".toList⟩
  obtain rfl := Option.some.inj (hprimary.symm.trans hsel)
  decide +kernel

/-- A break behind the selected character comes to stand between the pieces. -/
example :
    let d := (ofCanvas (.ofMarkup "a<br>b".toList .modern)).selectRendered (some ⟨0, 1⟩)
    ((d.typeRendered ['x']).typeRendered ['y']).source.content = "x<br>yb".toList ∧
      (d.typeRendered ['x', 'y']).source.content = "xy<br>b".toList := by
  decide +kernel

end Views

end RichText
