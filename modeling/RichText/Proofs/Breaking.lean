import Mathlib.Tactic.Lemma
import RichText.Proofs.Conservation
import RichText.Proofs.Gaps

/-!
Formatting behind a line break. The break takes the place of the selected text and leaves a caret,
which is but an offset: the caret stands behind the last leaf of its gap, so what goes in there
stands directly behind the break if no leaf follows the selected text in the gap, and only then.
-/

namespace RichText

open Boundary

/-! ### Rows -/

/-- What has characters does not change places with what has none. -/
lemma append_comm_iff {us ws : List Token} (hus : ∀ t ∈ us, t.isChar = false)
    (hws : charsOf ws ≠ []) : us ++ ws = ws ++ us ↔ us = [] := by
  refine ⟨fun h => ?_, fun h => by rw [h, List.append_nil]; rfl⟩
  have hgap := congrArg gap h
  rw [gap_append_of_forall hus, gap_append hws] at hgap
  exact List.append_left_eq_self.1 hgap

/-- To put a row with characters behind the leaves of a gap is to put it before the gap just if the
gap has no leaves. -/
lemma append_leaves_iff {us ws : List Token} (hws : charsOf ws ≠ []) :
    us.take (leafReach us) ++ ws ++ us.drop (leafReach us) = ws ++ us ↔ leafReach us = 0 := by
  have hle := leafReach_le us
  have hfront : us.take (leafReach us) <+: gap us := by
    rw [List.prefix_iff_eq_take.1 (gap_isPrefix us), List.prefix_take_iff]
    refine ⟨List.take_prefix _ _, ?_⟩
    exact Nat.le_trans (List.length_take_le _ _) hle
  have hchars : ∀ t ∈ us.take (leafReach us), t.isChar = false := fun t ht =>
    isChar_of_mem_gap (hfront.subset ht)
  have hzero : us.take (leafReach us) = [] ↔ leafReach us = 0 := by
    have hgap := (gap_isPrefix us).length_le
    rw [← List.length_eq_zero_iff, List.length_take]
    omega
  have hsplit : ws ++ us = ws ++ us.take (leafReach us) ++ us.drop (leafReach us) := by
    rw [List.append_assoc, List.take_append_drop]
  rw [hsplit, List.append_left_inj, append_comm_iff hchars hws, hzero]

/-- **Replacing at a caret** puts nodes in at its boundary. -/
lemma tokens_replaceSelected_caret {ns new : List Node} (h : VoidsEmpty ns) (hnew : VoidsEmpty new)
    {n : Nat} (hn : n ≤ (charsOf (tokens ns)).length) (reach : Reach) :
    tokens (replaceSelected ns (.caret n) reach new).nodes =
      insertNodes (tokens ns) (caret n (tokens ns)) new := by
  have hclamp : (Selection.caret n).ordered.clamp (charsOf (tokens ns)).length = .caret n := by
    have hordered : (Selection.caret n).ordered = .caret n := by
      simp [Selection.ordered, Selection.caret, Selection.start, Selection.stop]
    rw [hordered]
    exact Selection.clamp_of_stop_le (by rwa [Selection.stop_caret])
  have hspan : (Selection.caret n).span reach (tokens ns) =
      ⟨caret n (tokens ns), caret n (tokens ns)⟩ := by
    simp [Selection.span, hclamp]
  have hinside : Span.inside ⟨caret n (tokens ns), caret n (tokens ns)⟩ (tokens ns) = [] :=
    List.drop_eq_nil_of_le (List.length_take_le _ _)
  rw [tokens_replaceSelected_of_voidsEmpty h hnew, hspan, Span.keptBefore, Span.keptAfter, hinside,
    insertNodes]
  simp [Unmatched.ofTokens, Unmatched.stopTokens, Unmatched.startTokens, Span.before, Span.after]

/-- Start tags that a cut keeps are in the gap, and no leaves. -/
lemma leafReach_keptAfter (r : Span) (ts : List Token) :
    leafReach (r.keptAfter ts) = 0 ↔ (gapAfter ts r.stop).any Token.isLeaf = false := by
  have hnot {p : Token → Bool} (hp : ∀ tag, p (.start tag) = false) :
      ∀ t ∈ (Unmatched.ofTokens (r.inside ts)).startTokens, p t = false := by
    intro t ht
    obtain ⟨tag, -, rfl⟩ := List.mem_map.1 ht
    exact hp tag
  have hleaf : (Unmatched.ofTokens (r.inside ts)).startTokens.any Token.isLeaf = false :=
    List.any_eq_false.2 fun t ht => Bool.eq_false_iff.1 (hnot (fun _ => rfl) t ht)
  rw [leafReach_eq_zero_iff, Span.keptAfter, gap_append_of_forall (hnot fun _ => rfl),
    List.any_append, hleaf, Bool.false_or]
  rfl

/-! ### Behind a break -/

lemma Insertion.tokens_pasted_lineBreak :
    tokens lineBreak.pasted = [.leaf (.element ⟨"br".toList, []⟩ [])] := by
  rw [pasted_lineBreak]
  rfl

namespace Canvas

variable {v : Canvas} {sel : Selection}

/-- The break leaves a caret, at which the next insertion is made. -/
lemma nodes_edit_break_edit (h : WellFormed v.nodes) (hhost : v.host.interface ≠ .unavailable)
    (hsel : v.primary? = some sel) {i : Insertion} (hi : i.Plain) :
    ((v.edit (.replace .lineBreak)).edit (.replace i)).nodes =
      (replaceSelected (v.edit (.replace .lineBreak)).nodes
        (.caret (min sel.start v.text.length)) .inner i.pasted).nodes := by
  have hcaret := primary?_edit_break h.voidsEmpty hhost hsel
  exact nodes_edit_replace (by rwa [host_edit]) hcaret hi

/-- **Behind a break** an insertion stands behind the last leaf of the gap that the break is in. -/
theorem tokens_edit_break_edit (h : WellFormed v.nodes) (hhost : v.host.interface ≠ .unavailable)
    (hsel : v.primary? = some sel) {i : Insertion} (hi : i.Plain) {r : Span} {rest : List Token}
    (hr : sel.span .inner (tokens v.nodes) = r) (hrest : r.keptAfter (tokens v.nodes) = rest) :
    tokens ((v.edit (.replace .lineBreak)).edit (.replace i)).nodes =
      r.keptBefore (tokens v.nodes) ++ .leaf (.element ⟨"br".toList, []⟩ []) ::
        (rest.take (leafReach rest) ++ tokens i.pasted ++ rest.drop (leafReach rest)) := by
  have hvoids := h.voidsEmpty
  have hbr := Insertion.lineBreak.wellFormed_pasted.voidsEmpty
  have hplain : Insertion.lineBreak.Plain := trivial
  have hlen : min sel.start v.text.length = (charsOf (r.keptBefore (tokens v.nodes))).length := by
    rw [← hr, charsOf_keptBefore, List.length_take, charsOf_tokens hvoids, text]
  have hrow : tokens (v.edit (.replace .lineBreak)).nodes =
      r.keptBefore (tokens v.nodes) ++ .leaf (.element ⟨"br".toList, []⟩ []) :: rest := by
    rw [nodes_edit_replace hhost hsel hplain, tokens_replaceSelected_of_voidsEmpty hvoids hbr, hr,
      hrest, Insertion.tokens_pasted_lineBreak, List.append_assoc, List.singleton_append]
  have hle : min sel.start v.text.length ≤
      (charsOf (tokens (v.edit (.replace .lineBreak)).nodes)).length := by
    rw [hrow, charsOf_append, List.length_append, hlen]
    exact Nat.le_add_right _ _
  rw [nodes_edit_break_edit h hhost hsel hi,
    tokens_replaceSelected_caret (voidsEmpty_edit hvoids _) i.wellFormed_pasted.voidsEmpty hle,
    hrow, hlen, caret_append_leaf, insertNodes, Nat.add_assoc, List.take_length_add_append,
    List.drop_length_add_append, Nat.add_comm 1, List.take_succ_cons, List.drop_succ_cons]
  simp only [List.append_assoc, List.cons_append]

lemma run_breakThen (hne : v.selectedText ≠ []) {next : Transform} {i : Insertion}
    (hedits : next.edits (escapeText v.selectedText) = [.replace i]) :
    ((Transform.breakThen next).run .escaped v).1 =
      (v.edit (.replace .lineBreak)).edit (.replace i) := by
  have hselected : Surface.selectedText v = v.selectedText := rfl
  have hboth : (Transform.breakThen next).edits (Policy.content .escaped v.selectedText) =
      [.replace .lineBreak, .replace i] := by
    rw [Transform.edits, ← hedits]
    rfl
  rw [Transform.run_of_selected hselected hne, hboth]
  rfl

/-- **A text formatted behind a break** stands directly behind it, as if the two had been put in at
once, just if no leaf follows the selected text in its gap. -/
theorem nodes_run_breakThen_iff (h : WellFormed v.nodes) (hsel : v.primary? = some sel)
    (hne : v.selectedText ≠ []) {next : Transform} (hnext : next.Surrounds) :
    ∃ i : Insertion, next.edits (escapeText v.selectedText) = [.replace i] ∧
      (((Transform.breakThen next).run .escaped v).1.nodes =
          (replaceSelected v.nodes sel .inner (Insertion.lineBreak.pasted ++ i.pasted)).nodes ↔
        (gapAfter (tokens v.nodes) (sel.span .inner (tokens v.nodes)).stop).any Token.isLeaf =
          false) := by
  obtain ⟨hhost, -⟩ := exists_primary_of_selectedText hne
  obtain ⟨tag, put, hput⟩ := hnext.edits
  obtain ⟨hedits, hplain, hpasted⟩ := hput v.selectedText
  generalize put v.selectedText = i at hedits hplain hpasted
  refine ⟨i, hedits, ?_⟩
  have hvoids := (wellFormed_append.2
    ⟨Insertion.lineBreak.wellFormed_pasted, i.wellFormed_pasted⟩).voidsEmpty
  have honce := tokens_replaceSelected_of_voidsEmpty h.voidsEmpty hvoids sel .inner
  have htwice := tokens_edit_break_edit h hhost hsel hplain rfl rfl
  have hchars : charsOf (tokens i.pasted) ≠ [] := by
    rwa [charsOf_tokens i.wellFormed_pasted.voidsEmpty, hpasted, plainText_normalize,
      plainText_around]
  rw [run_breakThen hne hedits, ← leafReach_keptAfter, ← append_leaves_iff hchars]
  rw [tokens_append, Insertion.tokens_pasted_lineBreak, List.append_assoc, List.append_assoc,
    List.singleton_append] at honce
  -- both documents are normal, so they are compared by their rows
  refine ⟨fun heq => ?_, fun heq => ?_⟩
  · rw [heq, honce] at htwice
    exact (List.cons.inj (List.append_cancel_left htwice)).2.symm
  · refine eq_of_tokens_eq ?_ (isNormal_replaceSelected _ _ _ _) ?_
    · rw [nodes_edit_break_edit h hhost hsel hplain]
      exact isNormal_replaceSelected _ _ _ _
    · rw [htwice, heq, honce]

/-- A quote of a backward selection at the end of an element, before a tag and a character. -/
theorem nodes_run_breakThen_quote :
    let v := (ofMarkup "<p>a<b>bc</b>d<br></p>".toList .legacy).select (some ⟨3, 1⟩)
    let quote := Transform.enclose "blockquote".toList "blockquote".toList
    v.selectedText = "bc".toList ∧
      ((Transform.breakThen quote).run .escaped v).1.markup =
        "<p>a<b><br><blockquote>bc</blockquote></b>d<br></p>".toList ∧
      ∃ i : Insertion, quote.edits (escapeText v.selectedText) = [.replace i] ∧
        (((Transform.breakThen quote).run .escaped v).1.nodes =
            (replaceSelected v.nodes ⟨3, 1⟩ .inner (Insertion.lineBreak.pasted ++ i.pasted)).nodes ↔
          (gapAfter (tokens v.nodes) (Selection.span ⟨3, 1⟩ .inner (tokens v.nodes)).stop).any
            Token.isLeaf = false) := by
  intro v quote
  have hwf : WellFormed v.nodes := wellFormed_normalize (wellFormed_parse _)
  have hquote : quote.Surrounds := @Transform.Surrounds.enclose "blockquote".toList [] rfl nofun
  exact ⟨by decide +kernel, by decide +kernel,
    nodes_run_breakThen_iff hwf (by decide +kernel) (by decide +kernel) hquote⟩

/-- Before a break the quote lands behind that one and not behind its own, through either
interface. -/
theorem quote_behind_next_break :
    let v := (ofMarkup "a<br>b".toList .modern).select (some ⟨0, 1⟩)
    let w := (ofMarkup "a<br>b".toList .legacy).select (some ⟨0, 1⟩)
    let quote := Transform.enclose "blockquote".toList "blockquote".toList
    let quoted := parse "<br><blockquote>a</blockquote>".toList
    let twice := "<br><br><blockquote>a</blockquote>b".toList
    ((Transform.breakThen quote).run .escaped v).1.markup = twice ∧
      ((Transform.breakThen quote).run .escaped w).1.markup = twice ∧
      RichText.markup (replaceSelected v.nodes ⟨0, 1⟩ .inner quoted).nodes =
        "<br><blockquote>a</blockquote><br>b".toList ∧
      ((Transform.breakThen quote).run .escaped v).1.nodes ≠
        (replaceSelected v.nodes ⟨0, 1⟩ .inner quoted).nodes := by
  decide +kernel

end Canvas

end RichText
