import Mathlib.Tactic.Lemma
import RichText.Proofs.Gaps

/-!
Replacing a run of characters. A selection of characters that stand together in the row of tokens
reaches over them alone, so nothing but they are taken out.
-/

namespace RichText

variable {sel : Selection} {s : Text} {ts us : List Token}

/-- **The span of a run of characters** is the run. -/
lemma span_of_chars (hs : s ≠ []) (hstart : sel.start = (charsOf ts).length)
    (hstop : sel.stop = (charsOf ts).length + s.length) :
    sel.span .inner (ts ++ s.map .char ++ us) = ⟨ts.length, ts.length + s.length⟩ := by
  have hlen : (charsOf (ts ++ s.map .char ++ us)).length =
      (charsOf ts).length + s.length + (charsOf us).length := by
    simp [Nat.add_assoc]
  have hpos : 0 < s.length := List.length_pos_iff.2 hs
  have hclamp : sel.ordered.clamp (charsOf (ts ++ s.map .char ++ us)).length =
      ⟨(charsOf ts).length, (charsOf ts).length + s.length⟩ := by
    simp only [Selection.ordered, Selection.clamp, hstart, hstop, hlen, Selection.mk.injEq]
    omega
  have hcaret :
      (⟨(charsOf ts).length, (charsOf ts).length + s.length⟩ : Selection).isCaret = false := by
    simp only [Selection.isCaret, beq_eq_false_iff_ne]
    omega
  have hlast : Boundary.last (charsOf ts).length (ts ++ s.map .char ++ us) = ts.length := by
    obtain ⟨c, r, rfl⟩ := List.exists_cons_of_ne_nil hs
    rw [List.append_assoc, Boundary.last_append]
    rfl
  have hfirst : Boundary.first ((charsOf ts).length + s.length) (ts ++ s.map .char ++ us) =
      ts.length + s.length := by
    -- the last character of the run is the one the boundary stands behind
    obtain ⟨r, c, rfl⟩ := List.eq_nil_or_concat s |>.resolve_left hs
    have h := Boundary.first_append_char (ts ++ r.map .char) us c
    simpa [Nat.add_assoc] using h
  rw [Selection.span]
  simp only [hclamp, hcaret, Selection.start, Selection.stop]
  rw [Nat.min_eq_left (Nat.le_add_right _ _), Nat.max_eq_right (Nat.le_add_right _ _), hlast,
    hfirst, Nat.max_eq_right (Nat.le_add_right _ _)]
  rfl

/-- **Replacing a run of characters** puts nodes where it was. -/
theorem nodes_replaceSelected_of_chars {ns : List Node} (hs : s ≠ [])
    (hns : tokens ns = ts ++ s.map .char ++ us) (hstart : sel.start = (charsOf ts).length)
    (hstop : sel.stop = (charsOf ts).length + s.length) (new : List Node) :
    (replaceSelected ns sel .inner new).nodes = ofTokens (ts ++ tokens new ++ us) := by
  have hlen : ts.length + s.length = ts.length + (s.map Token.char).length := by simp
  have hinside := Span.inside_append ts (s.map .char) us
  rw [nodes_replaceSelected, hns, span_of_chars hs hstart hstop, hlen, Span.collapse, Span.erase,
    hinside, unmatched_chars, insertNodes]
  simp [Span.before, Span.after, Unmatched.stopTokens, Unmatched.startTokens]

/-- The text of a run of characters is the run. -/
lemma text_of_chars (hs : s ≠ []) (hstart : sel.start = (charsOf ts).length)
    (hstop : sel.stop = (charsOf ts).length + s.length) :
    (sel.span .inner (ts ++ s.map .char ++ us)).text (ts ++ s.map .char ++ us) = s := by
  have hlen : ts.length + s.length = ts.length + (s.map Token.char).length := by simp
  rw [span_of_chars hs hstart hstop, Span.text, hlen, Span.inside_append, charsOf_map_char]

end RichText
