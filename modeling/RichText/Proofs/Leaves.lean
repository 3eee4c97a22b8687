import Mathlib.Data.List.Basic
import Mathlib.Tactic.Lemma
import RichText.Proofs.Edits
import RichText.Proofs.Gaps
import RichText.Proofs.Writing

/-!
Leaves near a selection. Taking away formatting puts the text of the outer span in place of all that
is in the span, so leaves in it are lost, and they are the leaves that the markup of the selection
has. In the gaps at its ends the tags decide which leaves are in it.
-/

namespace RichText

/-! ### Leaves of a row -/

def Token.leaf? : Token → Option Node
  | .leaf n => some n
  | _ => none

/-- The void elements and comments of a row, in order. -/
def leaves (ts : List Token) : List Node := ts.filterMap Token.leaf?

/-- Those of them that stand at boundaries with a property. -/
def leavesWhere (p : Nat → Bool) (ts : List Token) : List Node :=
  ts.zipIdx.filterMap fun ti => if p ti.2 then ti.1.leaf? else none

@[simp] lemma leaves_append (us ws : List Token) : leaves (us ++ ws) = leaves us ++ leaves ws :=
  List.filterMap_append

lemma leaves_eq_nil {ts : List Token} (h : ∀ t ∈ ts, t.leaf? = none) : leaves ts = [] :=
  List.filterMap_eq_nil_iff.2 h

lemma leaves_stopTokens (u : Unmatched) : leaves u.stopTokens = [] :=
  leaves_eq_nil fun t ht => by rw [List.eq_of_mem_replicate ht]; rfl

lemma leaves_startTokens (u : Unmatched) : leaves u.startTokens = [] :=
  leaves_eq_nil fun t ht => by obtain ⟨tag, -, rfl⟩ := List.mem_map.1 ht; rfl

lemma leaves_map_char (s : Text) : leaves (s.map .char) = [] :=
  leaves_eq_nil fun t ht => by obtain ⟨c, -, rfl⟩ := List.mem_map.1 ht; rfl

lemma leavesWhere_congr {p q : Nat → Bool} {ts : List Token}
    (h : ∀ us m ws, ts = us ++ .leaf m :: ws → p us.length = q us.length) :
    leavesWhere p ts = leavesWhere q ts := by
  refine List.filterMap_congr fun ti hti => ?_
  obtain ⟨hi, ht⟩ := List.mem_zipIdx' hti
  cases hleaf : ti.1 with
  | leaf m =>
    have hsplit : ts = ts.take ti.2 ++ .leaf m :: ts.drop (ti.2 + 1) := by
      rw [← hleaf, ht, List.getElem_cons_drop, List.take_append_drop]
    have hpq := h _ _ _ hsplit
    rw [List.length_take, Nat.min_eq_left (Nat.le_of_lt hi)] at hpq
    rw [hpq]
  | _ => simp [Token.leaf?]

lemma leavesWhere_append (p : Nat → Bool) (us ws : List Token) :
    leavesWhere p (us ++ ws) =
      leavesWhere p us ++ leavesWhere (fun i => p (us.length + i)) ws := by
  have hshift : ws.zipIdx us.length = ws.zipIdx.map fun ti => (ti.1, us.length + ti.2) :=
    List.zipIdx_eq_map_add
  rw [leavesWhere, List.zipIdx_append, List.filterMap_append, Nat.zero_add, hshift,
    List.filterMap_map]
  rfl

lemma leavesWhere_of_forall {p : Nat → Bool} {ts : List Token} (h : ∀ i < ts.length, p i = true) :
    leavesWhere p ts = leaves ts := by
  have hall : leavesWhere p ts = ts.zipIdx.filterMap (Token.leaf? ∘ Prod.fst) :=
    List.filterMap_congr fun ti hti => if_pos (h ti.2 (List.mem_zipIdx' hti).1)
  rw [hall, ← List.filterMap_map, List.zipIdx_map_fst, leaves]

lemma leavesWhere_of_forall_not {p : Nat → Bool} {ts : List Token}
    (h : ∀ i < ts.length, p i = false) : leavesWhere p ts = [] :=
  List.filterMap_eq_nil_iff.2 fun ti hti => by
    rw [h ti.2 (List.mem_zipIdx' hti).1]
    rfl

lemma leavesWhere_stretch {p : Nat → Bool} (us ms ws : List Token)
    (hus : ∀ i < us.length, p i = false) (hms : ∀ i < ms.length, p (us.length + i) = true)
    (hws : ∀ i < ws.length, p ((us ++ ms).length + i) = false) :
    leavesWhere p (us ++ ms ++ ws) = leaves ms ∧
      leavesWhere (fun i => !p i) (us ++ ms ++ ws) = leaves us ++ leaves ws := by
  constructor
  · rw [leavesWhere_append, leavesWhere_append, leavesWhere_of_forall_not hus,
      leavesWhere_of_forall hms, leavesWhere_of_forall_not hws, List.nil_append, List.append_nil]
  · rw [leavesWhere_append, leavesWhere_append,
      leavesWhere_of_forall fun i hi => congrArg Bool.not (hus i hi),
      leavesWhere_of_forall_not fun i hi => congrArg Bool.not (hms i hi),
      leavesWhere_of_forall fun i hi => congrArg Bool.not (hws i hi), List.append_nil]

/-- The leaves that stand at the boundaries of a span are those inside it. -/
lemma leavesWhere_span {p : Nat → Bool} {r : Span} {ts : List Token} (hr : r.start ≤ r.stop)
    (hstop : r.stop ≤ ts.length)
    (hp : ∀ us m ws, ts = us ++ .leaf m :: ws →
      (p us.length = true ↔ r.start ≤ us.length ∧ us.length < r.stop)) :
    leavesWhere p ts = leaves (r.inside ts) ∧
      leavesWhere (fun i => !p i) ts = leaves (r.before ts) ++ leaves (r.after ts) := by
  -- at leaves the property says no more than where they stand
  let q : Nat → Bool := fun i => decide (r.start ≤ i ∧ i < r.stop)
  have hpq : ∀ us m ws, ts = us ++ .leaf m :: ws → p us.length = q us.length := fun us m ws h => by
    rw [Bool.eq_iff_iff, hp us m ws h, decide_eq_true_iff]
  have hnot : leavesWhere (fun i => !p i) ts = leavesWhere (fun i => !q i) ts :=
    leavesWhere_congr fun us m ws h => congrArg Bool.not (hpq us m ws h)
  have hstart := Span.length_before (Nat.le_trans hr hstop)
  have hinside := Span.length_inside hstop
  have h := leavesWhere_stretch (p := q) (r.before ts) (r.inside ts) (r.after ts)
    (fun i hi => by simp only [q, decide_eq_false_iff_not]; omega)
    (fun i hi => by simp only [q, decide_eq_true_iff]; omega)
    (fun i hi => by simp only [q, List.length_append, decide_eq_false_iff_not]; omega)
  rw [leavesWhere_congr hpq, hnot]
  rwa [Span.split hr ts] at h

/-! ### The outer span -/

open Boundary

/-- A leaf is covered by a selection if it is between selected characters, or in the gap before them
behind a start tag, or in the gap after them before an end tag. -/
def Selection.covers (sel : Selection) (ts : List Token) (i : Nat) : Bool :=
  let n := offset ts i
  (sel.start < n || sel.start == n && (gapBefore ts i).any Token.isStart) &&
    (n < sel.stop || n == sel.stop && (gapAfter ts i).any Token.isStop)

section Outer

variable {sel : Selection} {ts : List Token}

lemma outerStart_lt_outerStop (hlt : sel.start < sel.stop) (hle : sel.stop ≤ (charsOf ts).length) :
    outerStart sel.start ts < outerStop sel.stop ts := by
  have hoffset : offset ts (outerStart sel.start ts) < offset ts (outerStop sel.stop ts) := by
    rw [offset_outerStart, offset_outerStop]
    omega
  exact lt_of_offset_lt hoffset

lemma span_outer (hlt : sel.start < sel.stop) (hle : sel.stop ≤ (charsOf ts).length) :
    sel.span .outer ts = ⟨outerStart sel.start ts, outerStop sel.stop ts⟩ := by
  have hclamped : min sel.start (charsOf ts).length < min sel.stop (charsOf ts).length := by omega
  have hspan := (span_of_lt hclamped).2
  rwa [Nat.min_eq_left hle, Nat.min_eq_left (Nat.le_trans (Nat.le_of_lt hlt) hle)] at hspan

lemma covers_iff {us ws : List Token} {m : Node} (hts : ts = us ++ .leaf m :: ws)
    (hlt : sel.start < sel.stop) (hle : sel.stop ≤ (charsOf ts).length) :
    sel.covers ts us.length = true ↔
      outerStart sel.start ts ≤ us.length ∧ us.length < outerStop sel.stop ts := by
  subst hts
  have hoffset : offset (us ++ .leaf m :: ws) us.length = (charsOf us).length := by
    rw [offset, List.take_left]
  have hbefore : gapBefore (us ++ .leaf m :: ws) us.length = gap us.reverse := by
    rw [gapBefore, List.take_left]
  have hafter : gapAfter (us ++ .leaf m :: ws) us.length = .leaf m :: gap ws := by
    rw [gapAfter, List.drop_left]
    exact gap_cons rfl ws
  have hleaf : Token.isStop (.leaf m) = false := rfl
  rw [outerStart_le_iff (Nat.le_of_lt (Nat.lt_of_lt_of_le hlt hle)), lt_outerStop_iff hle]
  simp only [Selection.covers, hoffset, hbefore, hafter, List.any_cons, hleaf, Bool.false_or,
    Bool.and_eq_true, Bool.or_eq_true, decide_eq_true_iff, beq_iff_eq]

/-- **The leaves that a selection covers** are those in its outer span. -/
lemma leavesWhere_covers (hlt : sel.start < sel.stop) (hle : sel.stop ≤ (charsOf ts).length) :
    leavesWhere (sel.covers ts) ts = leaves ((sel.span .outer ts).inside ts) ∧
      leavesWhere (fun i => !sel.covers ts i) ts =
        leaves ((sel.span .outer ts).before ts) ++ leaves ((sel.span .outer ts).after ts) := by
  rw [span_outer hlt hle]
  exact leavesWhere_span (Nat.le_of_lt (outerStart_lt_outerStop hlt hle))
    (outerStop_le sel.stop ts) fun us m ws hts => covers_iff hts hlt hle

end Outer

/-! ### Taking away formatting -/

namespace Canvas

variable {v : Canvas} {sel : Selection}

/-- **Either interface** makes a single range plain text in the same way. -/
lemma nodes_edit_unformat (hhost : v.host.interface ≠ .unavailable) (hsel : v.primary? = some sel)
    (hsingle : v.host.interface = .range → v.ranges = [sel]) (hcaret : sel.isCaret = false) :
    (v.edit .unformat).nodes =
      (replaceSelected v.nodes sel .outer [.text (v.textIn sel)]).nodes := by
  cases hi : v.host.interface with
  | range =>
    simp [edit, hi, editRange, unformatRanges, hsingle hi, unformatRange, hcaret]
  | textRange => simp [edit, hi, editTextRange, hsel, hcaret]
  | unavailable => exact absurd hi hhost

/-- **Taking away formatting** keeps the leaves that the selection does not cover; those that it
does cover are what the markup of the selection has. -/
theorem leaves_edit_unformat (h : WellFormed v.nodes) (hhost : v.host.interface ≠ .unavailable)
    (hsel : v.primary? = some sel) (hsingle : v.host.interface = .range → v.ranges = [sel])
    (hlt : sel.start < sel.stop) (hle : sel.stop ≤ v.length) :
    leaves (tokens (v.edit .unformat).nodes) =
        leavesWhere (fun i => !sel.covers (tokens v.nodes) i) (tokens v.nodes) ∧
      leaves (tokens (parse v.selectedMarkup)) =
        leavesWhere (sel.covers (tokens v.nodes)) (tokens v.nodes) := by
  have hvoids := h.voidsEmpty
  have hcaret : ¬sel.isCaret = true := fun hc => Nat.ne_of_lt hlt (Selection.isCaret_iff.1 hc)
  rw [length, text, ← charsOf_tokens hvoids] at hle
  have hr : (sel.span .outer (tokens v.nodes)).start < (sel.span .outer (tokens v.nodes)).stop := by
    rw [span_outer hlt hle]
    exact outerStart_lt_outerStop hlt hle
  obtain ⟨hcovered, hkept⟩ := leavesWhere_covers hlt hle
  constructor
  · have hchars : leaves (tokens [.text (v.textIn sel)]) = [] := by
      rw [tokens_cons, tokens_nil, List.append_nil]
      exact leaves_map_char _
    rw [hkept, nodes_edit_unformat hhost hsel hsingle (Bool.eq_false_iff.2 hcaret),
      tokens_replaceSelected_of_voidsEmpty hvoids (wellFormed_textNode _).voidsEmpty,
      Span.keptBefore, Span.keptAfter]
    simp only [leaves_append, leaves_stopTokens, leaves_startTokens, hchars,
      List.nil_append, List.append_nil]
  · rw [hcovered, selectedMarkup, readPrimary_eq hhost hsel, markupIn,
      Span.tokens_parse_markup h hr, Span.whole]
    simp only [leaves_append, leaves_stopTokens, leaves_startTokens, List.nil_append,
      List.append_nil]

/-- An image between the selected characters goes; a break before and a rule after them stay. -/
theorem leaves_edit_unformat_image :
    let v := (ofMarkup "<br>a<img>b<hr>".toList .modern).select (some ⟨2, 0⟩)
    let covered := leavesWhere (Selection.covers ⟨2, 0⟩ (tokens v.nodes)) (tokens v.nodes)
    covered = parse "<img>".toList ∧ v.selectedMarkup = "a<img>b".toList ∧
      (v.edit .unformat).markup = "<br>ab<hr>".toList ∧
      leaves (tokens (v.edit .unformat).nodes) =
        leavesWhere (fun i => !Selection.covers ⟨2, 0⟩ (tokens v.nodes) i) (tokens v.nodes) ∧
      leaves (tokens (parse v.selectedMarkup)) = covered := by
  intro v covered
  have hwf : WellFormed v.nodes := wellFormed_normalize (wellFormed_parse _)
  exact ⟨by decide +kernel, by decide +kernel, by decide +kernel,
    leaves_edit_unformat hwf (by decide) (by decide +kernel) (fun _ => by decide +kernel)
      (by decide) (by decide +kernel)⟩

/-- A break behind the selected character is lost all the same when it is in an element that begins
and ends in the gap, and the markup of the selection has it; so through either interface. -/
theorem unformat_loses_break :
    let v := (ofMarkup "<p>a</p><p><br></p><p>b</p>".toList .modern).select (some ⟨0, 1⟩)
    let w := (ofMarkup "<p>a</p><p><br></p><p>b</p>".toList .legacy).select (some ⟨0, 1⟩)
    leaves (tokens v.nodes) = parse "<br>".toList ∧
      (tokens v.nodes).take 5 = [.start ⟨['p'], []⟩, .char 'a', .stop, .start ⟨['p'], []⟩,
        .leaf (.element ⟨['b', 'r'], []⟩ [])] ∧
      leaves (tokens (v.edit .unformat).nodes) = [] ∧
      leaves (tokens (w.edit .unformat).nodes) = [] ∧
      leaves (tokens (parse v.selectedMarkup)) = parse "<br>".toList ∧
      (v.edit .unformat).markup = "a<p>b</p>".toList ∧
      v.selectedMarkup = "<p>a</p><p><br></p>".toList := by
  decide +kernel

end Canvas

end RichText
