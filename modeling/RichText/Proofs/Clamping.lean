import Mathlib.Tactic.Lemma
import RichText.Text.Chars

/-!
Edits of a text at any offsets at all. Replacing is two edits, and the second is at an offset into
what the first has left, so that a range past the end or a reversed one could take them apart. It
does not: what stands before the start stays, and so does what stands behind both ends.
-/

namespace RichText.Chars

variable {s t : Text} {start stop : Nat}

/-! ### Replacing -/

lemma delete_of_le (h : start ≤ stop) :
    delete s start stop = s.take start ++ s.drop stop := by
  rw [delete, Nat.min_eq_left h]

/-- A reversed range takes nothing out. -/
lemma delete_of_ge (h : stop ≤ start) : delete s start stop = s := by
  rw [delete, Nat.min_eq_right h, List.take_append_drop]

/-- What stands before the start is there after deleting too. -/
lemma take_delete (s : Text) (start stop : Nat) :
    (delete s start stop).take start = s.take start := by
  rcases Nat.le_total start stop with h | h
  · rcases Nat.le_total start s.length with hin | hout
    · have hlen : (s.take start).length = start := List.length_take_of_le hin
      rw [delete_of_le h, List.take_left' hlen]
    · rw [delete_of_le h, List.drop_of_length_le (Nat.le_trans hout h), List.append_nil,
        List.take_take, Nat.min_self]
  · rw [delete_of_ge h]

/-- Behind the start comes what stands behind both ends. -/
lemma drop_delete (s : Text) (start stop : Nat) :
    (delete s start stop).drop start = s.drop (max start stop) := by
  rcases Nat.le_total start stop with h | h
  · rw [Nat.max_eq_right h, delete_of_le h]
    rcases Nat.le_total start s.length with hin | hout
    · have hlen : (s.take start).length = start := List.length_take_of_le hin
      rw [List.drop_left' hlen]
    · rw [List.drop_of_length_le (Nat.le_trans hout h), List.append_nil]
      exact List.drop_of_length_le (List.length_take_le start s)
  · rw [Nat.max_eq_left h, delete_of_ge h]

/-- **Replacing a range** in closed form. -/
theorem replace_eq (s : Text) (start stop : Nat) (u : Text) :
    replace s start stop u = s.take start ++ u ++ s.drop (max start stop) := by
  rw [replace, insert, take_delete, drop_delete]

/-! ### Reading a piece -/

/-- A slice is the piece of the text between two offsets. -/
lemma slice?_eq_some_iff :
    slice? s start stop = some t ↔
      ∃ before after, s = before ++ t ++ after ∧ before.length = start ∧
        before.length + t.length = stop := by
  constructor
  · intro h
    rw [slice?, Option.ite_none_right_eq_some] at h
    obtain ⟨⟨hle, hstop⟩, ht⟩ := h
    cases ht
    have hbefore : s.take start = (s.take stop).take start := by
      rw [List.take_take, Nat.min_eq_left hle]
    refine ⟨s.take start, s.drop stop, ?_, List.length_take_of_le (Nat.le_trans hle hstop), ?_⟩
    · rw [hbefore, List.take_append_drop, List.take_append_drop]
    · rw [List.length_take, List.length_drop, List.length_take]
      omega
  · rintro ⟨before, after, rfl, rfl, rfl⟩
    exact slice?_append before t after

lemma isSome_slice?_iff :
    (slice? s start stop).isSome ↔ start ≤ stop ∧ stop ≤ s.length := by
  rw [slice?]
  split
  · next h => simpa using h
  · next h => simpa using h

/-! ### All edits -/

/-- **Edits at any offsets** are made at the nearest ones in the text: what is replaced begins at the
start, or where the text ends if that comes first, and never ends before it begins. A piece can be
read just if its offsets are in order and in the text, and then it is what stands between them. A
text anew is one put in place of the whole. -/
theorem replace_clamped (s u : Text) (start stop : Nat) :
    replace s start stop u =
        s.take (min start s.length) ++ u ++
          s.drop (max (min start s.length) (min stop s.length)) ∧
      ((slice? s start stop).isSome ↔ start ≤ stop ∧ stop ≤ s.length) ∧
      (∀ t, slice? s start stop = some t ↔
        ∃ before after, s = before ++ t ++ after ∧ before.length = start ∧
          before.length + t.length = stop) ∧
      setContent s u = replace s 0 s.length u := by
  have hmax : max (min start s.length) (min stop s.length) = min (max start stop) s.length := by
    omega
  have htake : s.take (min start s.length) = s.take start := List.take_eq_take_min.symm
  have hdrop : s.drop (min (max start stop) s.length) = s.drop (max start stop) :=
    List.drop_eq_drop_min.symm
  refine ⟨?_, isSome_slice?_iff, fun t => slice?_eq_some_iff, ?_⟩
  · rw [hmax, htake, hdrop, replace_eq]
  · rw [replace_eq, Nat.max_eq_right (Nat.zero_le _), List.drop_length, List.append_nil]
    rfl

/-- A reversed range is empty at its start, and a start past the end is the end. -/
example :
    replace "abc".toList 2 1 "d".toList = "abdc".toList ∧
      replace "abc".toList 9 1 "d".toList = "abcd".toList := by
  decide

end RichText.Chars
