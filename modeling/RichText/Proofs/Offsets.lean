import Mathlib.Tactic.Lemma
import RichText.Proofs.Balance

/-!
Offsets and boundaries. Each way to find a boundary for an offset gives one with so many characters
before it, so a span holds just the selected characters, whatever tags it reaches over. Replacing a
selection therefore cuts those characters out of the text and puts in those of the new nodes.
-/

namespace RichText

namespace Boundary

/-! ### Characters before a boundary -/

lemma charsOf_take (ts : List Token) (i : Nat) :
    charsOf (ts.take i) = (charsOf ts).take (offset ts i) := by
  have hsplit := congrArg charsOf (List.take_append_drop i ts)
  rw [charsOf_append] at hsplit
  rw [← hsplit, offset, List.take_left]

lemma charsOf_drop (ts : List Token) (i : Nat) :
    charsOf (ts.drop i) = (charsOf ts).drop (offset ts i) := by
  have hsplit := congrArg charsOf (List.take_append_drop i ts)
  rw [charsOf_append] at hsplit
  rw [← hsplit, offset, List.drop_left]

lemma offset_mono (ts : List Token) {i j : Nat} (h : i ≤ j) : offset ts i ≤ offset ts j := by
  have hsplit := congrArg charsOf (List.take_append_drop i (ts.take j))
  rw [charsOf_append, List.take_take, Nat.min_eq_left h] at hsplit
  rw [offset, offset, ← hsplit, List.length_append]
  exact Nat.le_add_right _ _

/-- A boundary between two that have the same characters before them has those too. -/
lemma offset_of_le_of_le {ts : List Token} {i j k n : Nat} (hi : offset ts i = n)
    (hk : offset ts k = n) (hij : i ≤ j) (hjk : j ≤ k) : offset ts j = n := by
  have h1 := offset_mono ts hij
  have h2 := offset_mono ts hjk
  omega

lemma offset_succ {ts : List Token} {i : Nat} {t : Token} (ht : ts[i]? = some t) :
    offset ts (i + 1) = offset ts i + (charsOf [t]).length := by
  rw [offset, offset, List.take_add_one, ht, charsOf_append, List.length_append]
  rfl

lemma lt_of_offset_lt {ts : List Token} {i j : Nat} (h : offset ts i < offset ts j) : i < j := by
  by_contra hji
  have := offset_mono ts (Nat.le_of_not_lt hji)
  omega

/-! ### Boundaries of an offset -/

lemma offset_cons (t : Token) (ts : List Token) (i : Nat) :
    offset (t :: ts) (i + 1) = (charsOf [t]).length + offset ts i := by
  have hsplit : charsOf (t :: ts.take i) = charsOf [t] ++ charsOf (ts.take i) :=
    charsOf_append [t] (ts.take i)
  rw [offset, offset, List.take_succ_cons, hsplit, List.length_append]

lemma offset_first (n : Nat) (ts : List Token) :
    offset ts (first n ts) = min n (charsOf ts).length := by
  induction ts generalizing n with
  | nil => cases n <;> simp [first, offset]
  | cons t ts ih =>
    cases n with
    | zero => simp [first, offset]
    | succ n =>
      cases t with
      | char c =>
        rw [first, offset_cons, ih]
        simp only [charsOf_char, charsOf_nil, List.length_cons, List.length_nil]
        omega
      | _ => simp [first, offset_cons, ih]

lemma offset_last (n : Nat) (ts : List Token) :
    offset ts (last n ts) = min n (charsOf ts).length := by
  induction ts generalizing n with
  | nil => cases n <;> simp [last, offset]
  | cons t ts ih =>
    cases t with
    | char c =>
      cases n with
      | zero => simp [last, offset]
      | succ n =>
        rw [last, offset_cons, ih]
        simp only [charsOf_char, charsOf_nil, List.length_cons, List.length_nil]
        omega
    | _ => simp [last, offset_cons, ih]

lemma first_le (n : Nat) (ts : List Token) : first n ts ≤ ts.length := by
  fun_induction first n ts <;> simp_all

lemma last_le (n : Nat) (ts : List Token) : last n ts ≤ ts.length := by
  fun_induction last n ts <;> simp_all

lemma first_le_last (n : Nat) (ts : List Token) : first n ts ≤ last n ts := by
  fun_induction first n ts <;> simp_all [last]

lemma last_cons {t : Token} (ht : t.isChar = false) (n : Nat) (ts : List Token) :
    last n (t :: ts) = last n ts + 1 := by
  cases t with
  | char c => cases ht
  | _ => simp [last]

lemma first_cons {t : Token} (ht : t.isChar = false) (n : Nat) (ts : List Token) :
    first (n + 1) (t :: ts) = first (n + 1) ts + 1 := by
  cases t with
  | char c => cases ht
  | _ => simp [first]

lemma offset_lt_of_lt_first {n : Nat} {ts : List Token} {i : Nat} (h : i < first n ts) :
    offset ts i < n := by
  induction ts generalizing n i with
  | nil => cases n <;> exact absurd h (Nat.not_lt_zero i)
  | cons t ts ih =>
    cases n with
    | zero => exact absurd h (Nat.not_lt_zero i)
    | succ n =>
      cases i with
      | zero => exact Nat.succ_pos n
      | succ i =>
        cases t with
        | char c =>
          have hoffset := ih (Nat.lt_of_succ_lt_succ h)
          simp only [offset_cons, charsOf_char, charsOf_nil, List.length_cons, List.length_nil]
          omega
        | _ =>
          rw [first_cons rfl] at h
          rw [offset_cons]
          exact lt_of_eq_of_lt (Nat.zero_add _) (ih (Nat.lt_of_succ_lt_succ h))

lemma lt_offset_of_last_lt {n : Nat} {ts : List Token} {i : Nat} (h : last n ts < i)
    (hi : i ≤ ts.length) : n < offset ts i := by
  induction ts generalizing n i with
  | nil => exact absurd h (Nat.not_lt.2 (Nat.le_trans hi (Nat.zero_le _)))
  | cons t ts ih =>
    cases i with
    | zero => exact absurd h (Nat.not_lt_zero _)
    | succ i =>
      have hle : i ≤ ts.length := Nat.le_of_succ_le_succ hi
      cases t with
      | char c =>
        simp only [offset_cons, charsOf_char, charsOf_nil, List.length_cons, List.length_nil]
        cases n with
        | zero => omega
        | succ n =>
          have hoffset := ih (Nat.lt_of_succ_lt_succ h) hle
          omega
      | _ =>
        rw [last_cons rfl] at h
        rw [offset_cons]
        exact Nat.lt_of_lt_of_eq (ih (Nat.lt_of_succ_lt_succ h) hle) (Nat.zero_add _).symm

/-- **The first boundary** with so many characters before it is before all others. -/
theorem first_le_iff {n : Nat} {ts : List Token} (hn : n ≤ (charsOf ts).length) {i : Nat} :
    first n ts ≤ i ↔ n ≤ offset ts i := by
  refine ⟨fun h => ?_, fun h => Nat.not_lt.1 fun hlt => ?_⟩
  · have := offset_mono ts h
    rw [offset_first, Nat.min_eq_left hn] at this
    exact this
  · exact absurd h (Nat.not_le.2 (offset_lt_of_lt_first hlt))

/-- **The last boundary** with so many characters before it is behind all others. -/
theorem le_last_iff {n : Nat} {ts : List Token} {i : Nat} (hi : i ≤ ts.length) :
    i ≤ last n ts ↔ offset ts i ≤ n := by
  refine ⟨fun h => ?_, fun h => Nat.not_lt.1 fun hlt => ?_⟩
  · have := offset_mono ts h
    rw [offset_last] at this
    exact Nat.le_trans this (Nat.min_le_left _ _)
  · exact absurd h (Nat.not_le.2 (lt_offset_of_last_lt hlt hi))

/-! ### Boundaries further out -/

lemma charsOf_eq_nil {ts : List Token} (h : ∀ t ∈ ts, t.isChar = false) : charsOf ts = [] := by
  induction ts with
  | nil => rfl
  | cons t ts ih =>
    obtain ⟨ht, hts⟩ := List.forall_mem_cons.1 h
    cases t with
    | char c => cases ht
    | _ => exact ih hts

/-- On the way out no characters are passed over. -/
lemma isChar_of_mem_takeWhile {p : Token → Bool} (hp : ∀ c, p (.char c) = false) {ts : List Token}
    {t : Token} (h : t ∈ ts.takeWhile p) : t.isChar = false := by
  have ht : p t = true := List.all_eq_true.1 List.all_takeWhile t h
  cases t with
  | char c => rw [hp] at ht; cases ht
  | _ => rfl

lemma offset_outerStart (n : Nat) (ts : List Token) :
    offset ts (outerStart n ts) = min n (charsOf ts).length := by
  have hskip : charsOf ((ts.drop (first n ts)).takeWhile fun t => t.isStop || t.isLeaf) = [] :=
    charsOf_eq_nil fun t ht => isChar_of_mem_takeWhile (fun _ => rfl) ht
  have htake := List.prefix_iff_eq_take.1
    (List.takeWhile_prefix (fun t => t.isStop || t.isLeaf) (l := ts.drop (first n ts)))
  rw [outerStart, offset, List.take_add, charsOf_append, ← htake, hskip, List.append_nil]
  exact offset_first n ts

lemma offset_outerStop (n : Nat) (ts : List Token) :
    offset ts (outerStop n ts) = min n (charsOf ts).length := by
  let p : Token → Bool := fun t => t.isStart || t.isLeaf
  let us := (ts.take (last n ts)).reverse
  have hus : us.length = last n ts := by
    rw [List.length_reverse, List.length_take, Nat.min_eq_left (last_le n ts)]
  -- before the last boundary stands a row, and then what is passed over
  have hsplit : (us.dropWhile p).reverse ++ (us.takeWhile p).reverse = ts.take (last n ts) := by
    rw [← List.reverse_append, List.takeWhile_append_dropWhile, List.reverse_reverse]
  have hlen : outerStop n ts = (us.dropWhile p).reverse.length := by
    have hparts := congrArg List.length (List.takeWhile_append_dropWhile (p := p) (l := us))
    have houter : outerStop n ts = last n ts - (us.takeWhile p).length := rfl
    rw [List.length_append, hus] at hparts
    rw [houter, List.length_reverse]
    omega
  have hskip : charsOf (us.takeWhile p).reverse = [] :=
    charsOf_eq_nil fun t ht => isChar_of_mem_takeWhile (fun _ => rfl) (List.mem_reverse.1 ht)
  have hrow : ts.take (outerStop n ts) = (us.dropWhile p).reverse := by
    have hle : outerStop n ts ≤ last n ts := Nat.sub_le _ _
    rw [← Nat.min_eq_left hle, ← List.take_take, ← hsplit, hlen, List.take_left]
  rw [← offset_last n ts, offset, offset, hrow, ← hsplit, charsOf_append, hskip, List.append_nil]

lemma offset_caret (n : Nat) (ts : List Token) :
    offset ts (caret n ts) = min n (charsOf ts).length := by
  have hstop : max (last n ts) (first n ts) = last n ts := Nat.max_eq_left (first_le_last n ts)
  have hleaves : (((ts.take (last n ts)).drop (first n ts)).reverse.dropWhile
      fun t => !t.isLeaf).length ≤ last n ts - first n ts := by
    refine Nat.le_trans (List.dropWhile_sublist _).length_le ?_
    rw [List.length_reverse, List.length_drop, List.length_take]
    omega
  simp only [caret, hstop]
  split
  · exact offset_last n ts
  · refine offset_of_le_of_le (offset_first n ts) (offset_last n ts) (Nat.le_add_right _ _) ?_
    have := first_le_last n ts
    omega

lemma outerStart_le (n : Nat) (ts : List Token) : outerStart n ts ≤ ts.length := by
  have hskip := (List.takeWhile_sublist (fun t : Token => t.isStop || t.isLeaf)
    (l := ts.drop (first n ts))).length_le
  have := first_le n ts
  rw [List.length_drop] at hskip
  rw [outerStart]
  omega

lemma outerStop_le (n : Nat) (ts : List Token) : outerStop n ts ≤ ts.length :=
  Nat.le_trans (Nat.sub_le _ _) (last_le n ts)

lemma caret_le (n : Nat) (ts : List Token) : caret n ts ≤ ts.length := by
  have hleaves := (List.dropWhile_sublist (fun t : Token => !t.isLeaf)
    (l := ((ts.take (max (last n ts) (first n ts))).drop (first n ts)).reverse)).length_le
  rw [List.length_reverse, List.length_drop, List.length_take] at hleaves
  have := first_le n ts
  have := last_le n ts
  rw [caret]
  split <;> omega

end Boundary

/-! ### The span of a selection -/

open Boundary

variable {sel : Selection} {reach : Reach} {ts : List Token}

lemma start_ordered_clamp (sel : Selection) (n : Nat) :
    (sel.ordered.clamp n).start = min sel.start n := by
  simp only [Selection.ordered, Selection.clamp, Selection.start, Selection.stop]
  omega

lemma stop_ordered_clamp (sel : Selection) (n : Nat) :
    (sel.ordered.clamp n).stop = min sel.stop n := by
  simp only [Selection.ordered, Selection.clamp, Selection.start, Selection.stop]
  omega

lemma span_of_le (reach : Reach)
    (h : min sel.stop (charsOf ts).length ≤ min sel.start (charsOf ts).length) :
    sel.span reach ts = ⟨caret (min sel.start (charsOf ts).length) ts,
      caret (min sel.start (charsOf ts).length) ts⟩ := by
  have hstart := start_ordered_clamp sel (charsOf ts).length
  have hstop := stop_ordered_clamp sel (charsOf ts).length
  have hle := (sel.ordered.clamp (charsOf ts).length).start_le_stop
  have hcaret : (sel.ordered.clamp (charsOf ts).length).isCaret = true :=
    Selection.isCaret_iff.2 (by omega)
  simp only [Selection.span, if_pos hcaret, hstart]

/-- The boundaries of a selection with characters: the stop has more of them before it than the
start, so it does not give way to it. -/
lemma span_of_lt (h : min sel.start (charsOf ts).length < min sel.stop (charsOf ts).length) :
    sel.span .inner ts = ⟨last (min sel.start (charsOf ts).length) ts,
        first (min sel.stop (charsOf ts).length) ts⟩ ∧
      sel.span .outer ts = ⟨outerStart (min sel.start (charsOf ts).length) ts,
        outerStop (min sel.stop (charsOf ts).length) ts⟩ := by
  have hstart := start_ordered_clamp sel (charsOf ts).length
  have hstop := stop_ordered_clamp sel (charsOf ts).length
  have hcaret : ¬(sel.ordered.clamp (charsOf ts).length).isCaret = true := fun hc => by
    have := Selection.isCaret_iff.1 hc
    omega
  have hinner : last (min sel.start (charsOf ts).length) ts <
      first (min sel.stop (charsOf ts).length) ts :=
    lt_of_offset_lt (by rw [offset_last, offset_first]; omega)
  have houter : outerStart (min sel.start (charsOf ts).length) ts <
      outerStop (min sel.stop (charsOf ts).length) ts :=
    lt_of_offset_lt (by rw [offset_outerStart, offset_outerStop]; omega)
  simp only [Selection.span, if_neg hcaret, hstart, hstop]
  rw [Nat.max_eq_right (Nat.le_of_lt hinner), Nat.max_eq_right (Nat.le_of_lt houter)]
  exact ⟨rfl, rfl⟩

/-- **The span of a selection** has the selected characters between its boundaries. -/
theorem offset_span (sel : Selection) (reach : Reach) (ts : List Token) :
    offset ts (sel.span reach ts).start = min sel.start (charsOf ts).length ∧
      offset ts (sel.span reach ts).stop = min sel.stop (charsOf ts).length := by
  have hclamp (n : Nat) : min (min n (charsOf ts).length) (charsOf ts).length =
      min n (charsOf ts).length := by omega
  rcases Nat.lt_or_ge (min sel.start (charsOf ts).length) (min sel.stop (charsOf ts).length) with
    hlt | hge
  · cases reach with
    | inner =>
      rw [(span_of_lt hlt).1, offset_last, offset_first]
      exact ⟨hclamp _, hclamp _⟩
    | outer =>
      rw [(span_of_lt hlt).2, offset_outerStart, offset_outerStop]
      exact ⟨hclamp _, hclamp _⟩
  · have := sel.start_le_stop
    rw [span_of_le reach hge, offset_caret, hclamp]
    exact ⟨rfl, by omega⟩

lemma span_start_le_stop (sel : Selection) (reach : Reach) (ts : List Token) :
    (sel.span reach ts).start ≤ (sel.span reach ts).stop := by
  simp only [Selection.span]
  split
  · exact Nat.le_refl _
  · exact Nat.le_max_left _ _

lemma span_start_le_length (sel : Selection) (reach : Reach) (ts : List Token) :
    (sel.span reach ts).start ≤ ts.length := by
  simp only [Selection.span]
  split
  · exact caret_le _ ts
  · cases reach with
    | inner => exact last_le _ ts
    | outer => exact outerStart_le _ ts

lemma span_stop_le_length (sel : Selection) (reach : Reach) (ts : List Token) :
    (sel.span reach ts).stop ≤ ts.length := by
  simp only [Selection.span]
  split
  · exact caret_le _ ts
  · cases reach with
    | inner => exact Nat.max_le.2 ⟨last_le _ ts, first_le _ ts⟩
    | outer => exact Nat.max_le.2 ⟨outerStart_le _ ts, outerStop_le _ ts⟩

lemma charsOf_before (sel : Selection) (reach : Reach) (ts : List Token) :
    charsOf ((sel.span reach ts).before ts) = (charsOf ts).take sel.start := by
  rw [Span.before, charsOf_take, (offset_span sel reach ts).1, ← List.take_take, List.take_length]

lemma charsOf_after (sel : Selection) (reach : Reach) (ts : List Token) :
    charsOf ((sel.span reach ts).after ts) = (charsOf ts).drop sel.stop := by
  rw [Span.after, charsOf_drop, (offset_span sel reach ts).2, List.drop_eq_drop_iff, Nat.min_assoc,
    Nat.min_self]

/-- **The text of a span** is the selected part of the text, however far it reaches. -/
theorem text_span (sel : Selection) (reach : Reach) (ts : List Token) :
    (sel.span reach ts).text ts = ((charsOf ts).take sel.stop).drop sel.start := by
  have hsplit := congrArg charsOf (Span.split (span_start_le_stop sel reach ts) ts)
  rw [charsOf_append, charsOf_append, charsOf_before, charsOf_after] at hsplit
  have hchars := take_append_slice_append_drop sel.start_le_stop (charsOf ts)
  exact List.append_cancel_left (List.append_cancel_right (hsplit.trans hchars.symm))

/-! ### Replacing a selection -/

/-- **The row of an edited document**: around the new nodes stand the tags that the cut keeps, and
what was before and after the selection. -/
theorem tokens_replaceSelected (ns new : List Node) (sel : Selection) (reach : Reach) :
    tokens (replaceSelected ns sel reach new).nodes =
      (insertNodes ((sel.span reach (tokens ns)).erase (tokens ns))
        ((sel.span reach (tokens ns)).collapse (tokens ns)) new).map Token.normalize := by
  rw [nodes_replaceSelected]
  refine tokens_ofTokens (fun t ht => ?_) ?_
  · rcases mem_insertNodes ht with ht | ht
    · rcases Span.mem_erase ht with rfl | ht
      · trivial
      · exact proper_of_mem_tokens ns t ht
    · exact proper_of_mem_tokens new t ht
  · exact Span.balanced_insertNodes_erase (span_start_le_stop sel reach _)
      (span_start_le_length sel reach _) (balanced_tokens ns) new

lemma charsOf_map_normalize (ts : List Token) :
    charsOf (ts.map Token.normalize) = charsOf ts := by
  induction ts with
  | nil => rfl
  | cons t ts ih => cases t <;> simp [Token.normalize, ih]

/-- The tags that a cut keeps are no characters. -/
lemma charsOf_stopTokens (u : Unmatched) : charsOf u.stopTokens = [] :=
  charsOf_eq_nil fun t ht => by rw [List.eq_of_mem_replicate ht]; rfl

lemma charsOf_startTokens (u : Unmatched) : charsOf u.startTokens = [] :=
  charsOf_eq_nil fun t ht => by obtain ⟨tag, -, rfl⟩ := List.mem_map.1 ht; rfl

lemma charsOf_keptBefore (sel : Selection) (reach : Reach) (ts : List Token) :
    charsOf ((sel.span reach ts).keptBefore ts) = (charsOf ts).take sel.start := by
  rw [Span.keptBefore, charsOf_append, charsOf_stopTokens, charsOf_before, List.append_nil]

lemma charsOf_keptAfter (sel : Selection) (reach : Reach) (ts : List Token) :
    charsOf ((sel.span reach ts).keptAfter ts) = (charsOf ts).drop sel.stop := by
  rw [Span.keptAfter, charsOf_append, charsOf_startTokens, charsOf_after, List.nil_append]

/-- **The text of an edited document** is the text around the selection and that of the new nodes
between. -/
theorem charsOf_replaceSelected (ns new : List Node) (sel : Selection) (reach : Reach) :
    charsOf (tokens (replaceSelected ns sel reach new).nodes) =
      (charsOf (tokens ns)).take sel.start ++ charsOf (tokens new) ++
        (charsOf (tokens ns)).drop sel.stop := by
  rw [tokens_replaceSelected, charsOf_map_normalize,
    Span.insertNodes_erase (span_start_le_length sel reach _), charsOf_append, charsOf_append,
    charsOf_keptBefore, charsOf_keptAfter]

/-- **The new nodes** stand where the selection began. -/
theorem start_replaceSelected (ns new : List Node) (sel : Selection) (reach : Reach) :
    (replaceSelected ns sel reach new).start = min sel.start (charsOf (tokens ns)).length := by
  have htake := Span.take_insertNodes_erase (span_start_le_length sel reach (tokens ns)) new 0
  rw [Nat.add_zero, List.take_zero, List.append_nil] at htake
  simp only [replaceSelected, offset, htake, charsOf_keptBefore, List.length_take]

theorem stop_replaceSelected (ns new : List Node) (sel : Selection) (reach : Reach) :
    (replaceSelected ns sel reach new).stop =
      min sel.start (charsOf (tokens ns)).length + (charsOf (tokens new)).length := by
  have htake := Span.take_insertNodes_erase (span_start_le_length sel reach (tokens ns)) new
    (tokens new).length
  rw [List.take_left] at htake
  simp only [replaceSelected, offset, htake, charsOf_append, charsOf_keptBefore,
    List.length_append, List.length_take]

/-- Void elements stay empty when something is put in in which they are. -/
theorem voidsEmpty_replaceSelected {ns new : List Node} (h : VoidsEmpty ns) (hnew : VoidsEmpty new)
    (sel : Selection) (reach : Reach) : VoidsEmpty (replaceSelected ns sel reach new).nodes := by
  rw [voidsEmpty_iff] at h hnew ⊢
  intro tag inside hleaf
  rw [tokens_replaceSelected] at hleaf
  obtain ⟨t, ht, hnormal⟩ := List.mem_map.1 hleaf
  obtain ⟨before, rfl, rfl⟩ :
      ∃ before, t = .leaf (.element tag before) ∧ inside = normalize before := by
    match t, hnormal with
    | .leaf (.element _ before), hnormal =>
      obtain ⟨rfl, rfl⟩ := Node.element.inj (Token.leaf.inj hnormal)
      exact ⟨before, rfl, rfl⟩
  have hbefore : before = [] := by
    rcases mem_insertNodes ht with ht | ht
    · rcases Span.mem_erase ht with ht | ht
      · cases ht
      · exact h tag before ht
    · exact hnew tag before ht
  rw [hbefore, normalize_nil]

lemma Token.normalize_of_mem_tokens {ns : List Node} (h : VoidsEmpty ns) {t : Token}
    (ht : t ∈ tokens ns) : t.normalize = t := by
  match t with
  | .char _ | .start _ | .stop | .leaf (.text _) | .leaf (.comment _) => rfl
  | .leaf (.element tag inside) => rw [voidsEmpty_iff.1 h tag inside ht]; rfl

/-- When void elements are empty, the row of an edited document is the edited row. -/
theorem tokens_replaceSelected_of_voidsEmpty {ns new : List Node} (h : VoidsEmpty ns)
    (hnew : VoidsEmpty new) (sel : Selection) (reach : Reach) :
    tokens (replaceSelected ns sel reach new).nodes =
      (sel.span reach (tokens ns)).keptBefore (tokens ns) ++ tokens new ++
        (sel.span reach (tokens ns)).keptAfter (tokens ns) := by
  have hnormal : ∀ t ∈ insertNodes ((sel.span reach (tokens ns)).erase (tokens ns))
      ((sel.span reach (tokens ns)).collapse (tokens ns)) new, t.normalize = t := by
    intro t ht
    rcases mem_insertNodes ht with ht | ht
    · rcases Span.mem_erase ht with rfl | ht
      · rfl
      · exact Token.normalize_of_mem_tokens h ht
    · exact Token.normalize_of_mem_tokens hnew ht
  rw [tokens_replaceSelected, List.map_congr_left hnormal, List.map_id',
    Span.insertNodes_erase (span_start_le_length sel reach _)]

theorem plainText_replaceSelected {ns new : List Node} (h : VoidsEmpty ns) (hnew : VoidsEmpty new)
    (sel : Selection) (reach : Reach) :
    plainText (replaceSelected ns sel reach new).nodes =
      (plainText ns).take sel.start ++ plainText new ++ (plainText ns).drop sel.stop := by
  rw [← charsOf_tokens h, ← charsOf_tokens hnew,
    ← charsOf_tokens (voidsEmpty_replaceSelected h hnew sel reach)]
  exact charsOf_replaceSelected ns new sel reach

/-- The offsets that are given back are those around the text of the new nodes. -/
lemma offsets_replaceSelected {ns new : List Node} (h : VoidsEmpty ns) (hnew : VoidsEmpty new)
    (sel : Selection) (reach : Reach) :
    (replaceSelected ns sel reach new).start = min sel.start (plainText ns).length ∧
      (replaceSelected ns sel reach new).stop =
        min sel.start (plainText ns).length + (plainText new).length := by
  rw [start_replaceSelected, stop_replaceSelected, charsOf_tokens h, charsOf_tokens hnew]
  exact ⟨rfl, rfl⟩

/-- **Between these offsets** stands the text of the new nodes. -/
lemma take_drop_replaceSelected {ns new : List Node} (h : VoidsEmpty ns) (hnew : VoidsEmpty new)
    (sel : Selection) (reach : Reach) :
    ((plainText (replaceSelected ns sel reach new).nodes).take
      (min sel.start (plainText ns).length + (plainText new).length)).drop
        (min sel.start (plainText ns).length) = plainText new := by
  have hlen : ((plainText ns).take sel.start).length = min sel.start (plainText ns).length :=
    List.length_take
  rw [plainText_replaceSelected h hnew, ← hlen, List.append_assoc, List.take_length_add_append,
    List.take_left, List.drop_left]

lemma stop_replaceSelected_le {ns new : List Node} (h : VoidsEmpty ns) (hnew : VoidsEmpty new)
    (sel : Selection) (reach : Reach) :
    min sel.start (plainText ns).length + (plainText new).length ≤
      (plainText (replaceSelected ns sel reach new).nodes).length := by
  rw [plainText_replaceSelected h hnew]
  simp only [List.length_append, List.length_take]
  omega

end RichText
