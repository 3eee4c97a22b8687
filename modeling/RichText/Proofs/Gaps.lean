import Mathlib.Data.List.TakeWhile
import Mathlib.Order.Basic
import Mathlib.Tactic.Lemma
import RichText.Proofs.Offsets

/-!
Gaps: the tags and leaves between neighbouring characters. All boundaries in a gap have the same
offset, so what stands there decides where in it a span begins and ends.
-/

namespace RichText

/-- What a row begins with before its first character. -/
def gap (ts : List Token) : List Token := ts.takeWhile fun t => !t.isChar

@[simp] lemma gap_nil : gap [] = [] := rfl

@[simp] lemma gap_char (c : Char) (ts : List Token) : gap (.char c :: ts) = [] := rfl

lemma gap_cons {t : Token} (ht : t.isChar = false) (ts : List Token) :
    gap (t :: ts) = t :: gap ts :=
  List.takeWhile_cons_of_pos (by rw [ht]; rfl)

lemma isChar_of_mem_gap {ts : List Token} {t : Token} (h : t ∈ gap ts) : t.isChar = false :=
  Boundary.isChar_of_mem_takeWhile (fun _ => rfl) h

lemma gap_append_of_forall {ts : List Token} (h : ∀ t ∈ ts, t.isChar = false) (us : List Token) :
    gap (ts ++ us) = ts ++ gap us :=
  List.takeWhile_append_of_pos fun t ht => by rw [h t ht]; rfl

/-- Where a row has characters, its gap ends before what follows it. -/
lemma gap_append {ts : List Token} (h : charsOf ts ≠ []) (us : List Token) :
    gap (ts ++ us) = gap ts := by
  induction ts with
  | nil => exact absurd rfl h
  | cons t ts ih =>
    cases t with
    | char c => rfl
    | _ => exact congrArg (List.cons _) (ih h)

lemma gap_append_char (ts us : List Token) (c : Char) : gap (ts ++ .char c :: us) = gap ts := by
  induction ts with
  | nil => rfl
  | cons t ts ih =>
    cases t with
    | char d => rfl
    | _ => exact congrArg (List.cons _) ih

lemma gap_isPrefix (ts : List Token) : gap ts <+: ts := List.takeWhile_prefix _

namespace Boundary

/-- What stands between a boundary and the character before it, the nearest first. -/
def gapBefore (ts : List Token) (boundary : Nat) : List Token := gap (ts.take boundary).reverse

/-- What stands between a boundary and the character after it. -/
def gapAfter (ts : List Token) (boundary : Nat) : List Token := gap (ts.drop boundary)

/-! ### Ends of a gap -/

lemma last_zero (ts : List Token) : last 0 ts = (gap ts).length := by
  induction ts with
  | nil => rfl
  | cons t ts ih =>
    cases t with
    | char c => rfl
    | _ => rw [last_cons rfl, gap_cons rfl, ih, List.length_cons]

/-- The last boundary with so many characters before it stands behind the gap. -/
lemma last_append (ts us : List Token) :
    last (charsOf ts).length (ts ++ us) = ts.length + (gap us).length := by
  induction ts with
  | nil => simp [last_zero]
  | cons t ts ih =>
    rw [List.length_cons, Nat.add_right_comm, ← ih]
    cases t with
    | char d => rfl
    | _ => exact last_cons rfl _ _

lemma first_append_char (ts us : List Token) (c : Char) :
    first ((charsOf ts).length + 1) (ts ++ .char c :: us) = ts.length + 1 := by
  induction ts with
  | nil => simp [first]
  | cons t ts ih =>
    rw [List.length_cons, ← ih]
    cases t with
    | char d => rfl
    | _ => exact first_cons rfl _ _

/-- The first boundary with so many characters before it stands before the gap. -/
lemma first_append (ts us : List Token) :
    first (charsOf ts).length (ts ++ us) + (gap ts.reverse).length = ts.length := by
  induction ts using List.reverseRecOn generalizing us with
  | nil => simp [first]
  | append_singleton ts t ih =>
    by_cases ht : t.isChar = true
    · cases t with
      | char c => simp [first_append_char]
      | _ => cases ht
    · have hchars : charsOf [t] = [] :=
        charsOf_eq_nil (List.forall_mem_singleton.2 (by simpa using ht))
      have hgap : gap (ts ++ [t]).reverse = t :: gap ts.reverse := by
        rw [List.reverse_append]
        exact gap_cons (by simpa using ht) _
      rw [hgap, charsOf_append, hchars, List.append_nil, List.append_assoc, List.length_append,
        List.length_cons, ← Nat.add_assoc, ih]
      rfl

lemma take_last (ts us : List Token) :
    (ts ++ us).take (last (charsOf ts).length (ts ++ us)) = ts ++ gap us := by
  rw [last_append, List.take_length_add_append, ← List.prefix_iff_eq_take.1 (gap_isPrefix us)]

lemma drop_first (ts us : List Token) :
    (ts ++ us).drop (first (charsOf ts).length (ts ++ us)) = (gap ts.reverse).reverse ++ us := by
  have hfirst := first_append ts us
  obtain ⟨rest, hrest⟩ := gap_isPrefix ts.reverse
  generalize first (charsOf ts).length (ts ++ us) = i at hfirst ⊢
  generalize gap ts.reverse = g at hfirst hrest ⊢
  obtain rfl : ts = rest.reverse ++ g.reverse := by
    rw [← List.reverse_append, hrest, List.reverse_reverse]
  have hi : i = rest.reverse.length := by
    simp only [List.length_append, List.length_reverse] at hfirst ⊢
    omega
  rw [hi, List.append_assoc, List.drop_left]

/-- The first place behind so many characters is behind the last of them. -/
lemma exists_append_of_le {ts : List Token} {n : Nat} (hn : n ≤ (charsOf ts).length) :
    ∃ us ws, ts = us ++ ws ∧ (charsOf us).length = n ∧ gap us.reverse = [] := by
  have hoffset : (charsOf (ts.take (first n ts))).length = n := by
    have := offset_first n ts
    rw [offset] at this
    omega
  have hgap := first_append (ts.take (first n ts)) (ts.drop (first n ts))
  rw [hoffset, List.take_append_drop, List.length_take, Nat.min_eq_left (first_le n ts)] at hgap
  exact ⟨_, _, (List.take_append_drop _ ts).symm, hoffset,
    List.eq_nil_of_length_eq_zero (by omega)⟩

/-! ### Carets -/

/-- How far the leaves of a row reach before its first character. -/
def leafReach (ts : List Token) : Nat := ((gap ts).reverse.dropWhile fun t => !t.isLeaf).length

lemma leafReach_eq_zero_iff {ts : List Token} :
    leafReach ts = 0 ↔ (gap ts).any Token.isLeaf = false := by
  simp [leafReach, List.dropWhile_eq_nil_iff]

lemma leafReach_le (ts : List Token) : leafReach ts ≤ (gap ts).length :=
  (List.dropWhile_sublist _).length_le.trans_eq List.length_reverse

lemma length_dropWhile_append_cons {α : Type} {p : α → Bool} {x : α} (hx : p x = false)
    (us ws : List α) :
    ((us ++ x :: ws).dropWhile p).length = (us.dropWhile p).length + (ws.length + 1) := by
  induction us with
  | nil => simp [hx]
  | cons u us ih =>
    rw [List.cons_append]
    by_cases hu : p u = true
    · rw [List.dropWhile_cons_of_pos hu, List.dropWhile_cons_of_pos hu, ih]
    · rw [List.dropWhile_cons_of_neg hu, List.dropWhile_cons_of_neg hu, List.length_cons,
        List.length_append, List.length_cons, List.length_cons, Nat.add_right_comm]

/-- **A caret at a leaf** stands behind the last leaf of the gap, which may be a later one. -/
lemma caret_append_leaf (us ws : List Token) (m : Node) :
    caret (charsOf us).length (us ++ .leaf m :: ws) = us.length + 1 + leafReach ws := by
  have htake := take_last (us ++ [.leaf m]) ws
  rw [charsOf_append, charsOf_leaf, charsOf_nil, List.append_nil, List.append_assoc,
    List.append_assoc, List.singleton_append, List.singleton_append] at htake
  -- the row may end with the gap: its first boundary is the same
  have hfirst := first_append us (.leaf m :: ws)
  have hfirst' := first_append us (.leaf m :: gap ws)
  have hsame : first (charsOf us).length (us ++ .leaf m :: ws) =
      first (charsOf us).length (us ++ .leaf m :: gap ws) := by omega
  have hstop := Nat.max_eq_left (first_le_last (charsOf us).length (us ++ .leaf m :: ws))
  have hlen := length_dropWhile_append_cons (p := fun t => !t.isLeaf) (x := .leaf m) rfl
    (gap ws).reverse (gap us.reverse)
  simp only [caret, hstop, htake]
  rw [hsame, drop_first, ← hsame, List.reverse_append, List.reverse_cons, List.reverse_reverse,
    List.append_assoc, List.singleton_append, hlen, if_neg (by omega), leafReach]
  omega

/-! ### Outer boundaries -/

/-- What is taken while a property holds ends before an element that has it just if one before that
does not. -/
lemma length_takeWhile_append_cons_le {α : Type} {p : α → Bool} {x : α} (hx : p x = true)
    (us ws : List α) :
    ((us ++ x :: ws).takeWhile p).length ≤ us.length ↔ us.any (fun t => !p t) = true := by
  induction us with
  | nil => simp [hx]
  | cons u us ih => by_cases hu : p u = true <;> simp_all

lemma any_gap {p q : Token → Bool} (hpq : ∀ t, t.isChar = false → p t = q t) (ts : List Token) :
    (gap ts).any p = (gap ts).any q := by
  rw [Bool.eq_iff_iff, List.any_eq_true, List.any_eq_true]
  refine exists_congr fun t => and_congr_right fun ht => ?_
  rw [hpq t (isChar_of_mem_gap ht)]

variable {us ws : List Token} {m : Node} {n : Nat}

/-- **The outer start** stands before a leaf if characters are between them, and in the leaf's own
gap if a start tag is. -/
lemma outerStart_le_iff (hn : n ≤ (charsOf (us ++ .leaf m :: ws)).length) :
    outerStart n (us ++ .leaf m :: ws) ≤ us.length ↔
      n < (charsOf us).length ∨
        n = (charsOf us).length ∧ (gap us.reverse).any Token.isStart = true := by
  have hleaf : offset (us ++ .leaf m :: ws) us.length = (charsOf us).length := by
    rw [offset, List.take_left]
  have houter : offset (us ++ .leaf m :: ws) (outerStart n (us ++ .leaf m :: ws)) = n := by
    rw [offset_outerStart, Nat.min_eq_left hn]
  rcases Nat.lt_trichotomy n (charsOf us).length with hlt | rfl | hgt
  · exact iff_of_true
      (Nat.le_of_lt (lt_of_offset_lt (houter.trans_lt (hlt.trans_eq hleaf.symm)))) (.inl hlt)
  · have hfirst := first_append us (.leaf m :: ws)
    have hstop := length_takeWhile_append_cons_le (p := fun t => t.isStop || t.isLeaf)
      (x := .leaf m) rfl (gap us.reverse).reverse ws
    have hstart : ((gap us.reverse).any fun t => !(t.isStop || t.isLeaf)) =
        (gap us.reverse).any Token.isStart :=
      any_gap (fun t ht => by cases t <;> first | rfl | cases ht) _
    rw [List.any_reverse, hstart, List.length_reverse] at hstop
    rw [outerStart, drop_first, or_iff_right (Nat.lt_irrefl _), and_iff_right rfl, ← hstop]
    omega
  · have hafter : us.length < outerStart n (us ++ .leaf m :: ws) :=
      lt_of_offset_lt (hleaf.trans_lt (hgt.trans_eq houter.symm))
    exact iff_of_false (by omega) (by omega)

/-- **The outer stop** stands behind a leaf if characters are between them, and in the leaf's own
gap if an end tag is. -/
lemma lt_outerStop_iff (hn : n ≤ (charsOf (us ++ .leaf m :: ws)).length) :
    us.length < outerStop n (us ++ .leaf m :: ws) ↔
      (charsOf us).length < n ∨
        (charsOf us).length = n ∧ (gap ws).any Token.isStop = true := by
  have hleaf : offset (us ++ .leaf m :: ws) us.length = (charsOf us).length := by
    rw [offset, List.take_left]
  have houter : offset (us ++ .leaf m :: ws) (outerStop n (us ++ .leaf m :: ws)) = n := by
    rw [offset_outerStop, Nat.min_eq_left hn]
  rcases Nat.lt_trichotomy n (charsOf us).length with hlt | rfl | hgt
  · have hbefore : outerStop n (us ++ .leaf m :: ws) < us.length :=
      lt_of_offset_lt (houter.trans_lt (hlt.trans_eq hleaf.symm))
    exact iff_of_false (by omega) (by omega)
  · -- the leaf is the last of the tokens before the rest of the gap
    have hlast := last_append (us ++ [.leaf m]) ws
    have htake := take_last (us ++ [.leaf m]) ws
    have hstart := length_takeWhile_append_cons_le (p := fun t => t.isStart || t.isLeaf)
      (x := .leaf m) rfl (gap ws).reverse us.reverse
    have hstop : ((gap ws).any fun t => !(t.isStart || t.isLeaf)) =
        (gap ws).any Token.isStop :=
      any_gap (fun t ht => by cases t <;> first | rfl | cases ht) _
    rw [List.any_reverse, hstop, List.length_reverse] at hstart
    rw [charsOf_append, charsOf_leaf, charsOf_nil, List.append_nil, List.append_assoc,
      List.singleton_append] at hlast htake
    rw [outerStop, htake, hlast, or_iff_right (Nat.lt_irrefl _), and_iff_right rfl, ← hstart,
      List.reverse_append, List.reverse_append, List.reverse_singleton, List.singleton_append,
      List.length_append, List.length_singleton]
    omega
  · exact iff_of_true (lt_of_offset_lt (hleaf.trans_lt (hgt.trans_eq houter.symm))) (.inl hgt)

end Boundary

end RichText
