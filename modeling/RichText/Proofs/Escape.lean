import Mathlib.Tactic.Lemma
import RichText.Text.Escape
import RichText.Text.Reference

/-!
Decoding undoes escaping, character by character, so that escaped text may stand before anything.
What is escaped holds no `<`, and in a value no `"`.
-/

namespace RichText

namespace Escape

lemma textChar_of_ne {c : Char} (hamp : c ≠ '&') (hlt : c ≠ '<') (hgt : c ≠ '>') :
    textChar c = [c] := by
  unfold textChar
  split
  · exact absurd rfl hamp
  · exact absurd rfl hlt
  · exact absurd rfl hgt
  · rfl

lemma lt_notMem_textChar (c : Char) : '<' ∉ textChar c := by
  unfold textChar
  split
  · decide
  · decide
  · decide
  · next _ hlt _ => simpa using fun h => hlt h.symm

lemma textChar_ne_nil (c : Char) : textChar c ≠ [] := by
  unfold textChar
  split <;> simp

lemma quote_notMem_valueChar (c : Char) : '"' ∉ valueChar c := by
  unfold valueChar
  split
  · decide
  · next h =>
    unfold textChar
    split
    · decide
    · decide
    · decide
    · simpa using fun e => h e.symm

lemma decode_textChar (c : Char) (t : Text) : decode (textChar c ++ t) = c :: decode t := by
  unfold textChar
  split
  · rfl
  · rfl
  · rfl
  · next hamp _ _ => exact decode_cons_of_ne hamp t

lemma decode_valueChar (c : Char) (t : Text) : decode (valueChar c ++ t) = c :: decode t := by
  unfold valueChar
  split
  · next h => subst h; rfl
  · exact decode_textChar c t

end Escape

open Escape

/-! ### Texts -/

theorem decode_escapeText_append (s t : Text) : decode (escapeText s ++ t) = s ++ decode t := by
  induction s with
  | nil => rfl
  | cons c s ih => rw [escapeText_cons, List.append_assoc, decode_textChar, ih, List.cons_append]

@[simp] theorem decode_escapeText (s : Text) : decode (escapeText s) = s := by
  simpa using decode_escapeText_append s []

lemma lt_notMem_escapeText (s : Text) : '<' ∉ escapeText s := by
  induction s with
  | nil => simp
  | cons c s ih =>
    rw [escapeText_cons, List.mem_append, not_or]
    exact ⟨lt_notMem_textChar c, ih⟩

@[simp] lemma escapeText_eq_nil {s : Text} : escapeText s = [] ↔ s = [] := by
  cases s with
  | nil => simp
  | cons c s => simp [textChar_ne_nil]

/-- Text without the three characters that are escaped stays as it is. -/
lemma escapeText_eq_self {s : Text} (h : ∀ c ∈ s, c ≠ '&' ∧ c ≠ '<' ∧ c ≠ '>') :
    escapeText s = s := by
  induction s with
  | nil => rfl
  | cons c s ih =>
    obtain ⟨hamp, hlt, hgt⟩ := h c List.mem_cons_self
    rw [escapeText_cons, textChar_of_ne hamp hlt hgt,
      ih fun d hd => h d (List.mem_cons_of_mem c hd)]
    rfl

/-! ### Values -/

@[simp] theorem decode_escapeValue (s : Text) : decode (escapeValue s) = s := by
  induction s with
  | nil => rfl
  | cons c s ih => rw [escapeValue_cons, decode_valueChar, ih]

/-- A value without the four characters that are escaped stays as it is. -/
lemma escapeValue_eq_self {s : Text} (h : ∀ c ∈ s, c ≠ '"' ∧ c ≠ '&' ∧ c ≠ '<' ∧ c ≠ '>') :
    escapeValue s = s := by
  induction s with
  | nil => rfl
  | cons c s ih =>
    obtain ⟨hquote, hamp, hlt, hgt⟩ := h c List.mem_cons_self
    rw [escapeValue_cons, valueChar, if_neg hquote, textChar_of_ne hamp hlt hgt,
      ih fun d hd => h d (List.mem_cons_of_mem c hd)]
    rfl

lemma quote_notMem_escapeValue (s : Text) : '"' ∉ escapeValue s := by
  induction s with
  | nil => simp
  | cons c s ih =>
    rw [escapeValue_cons, List.mem_append, not_or]
    exact ⟨quote_notMem_valueChar c, ih⟩

end RichText
