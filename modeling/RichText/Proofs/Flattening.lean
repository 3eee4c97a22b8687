import Mathlib.Tactic.Lemma
import RichText.Markup.Tree
import RichText.Proofs.Balance
import RichText.Proofs.Canonical

/-!
Flat rows and documents. The rows of documents are those whose tags match, and a row stays one of
them under any cutting and putting in. It can be read from its start as well, with the open elements
on a stack: no end tag is without a start tag, and none is left open at the end. Flattening what is
rebuilt gives the row again.
-/

namespace RichText

/-! ### Rows of documents -/

/-- **The rows of documents** are those whose tags match, made of tokens as documents have them. -/
theorem exists_tokens_eq_iff {ts : List Token} :
    (∃ ns, tokens ns = ts) ↔ Balanced ts ∧ ∀ t ∈ ts, t.Proper := by
  constructor
  · rintro ⟨ns, rfl⟩
    exact ⟨balanced_tokens ns, proper_of_mem_tokens ns⟩
  · rintro ⟨hbalanced, hproper⟩
    have hnone : Unmatched.ofTokens ts = {} := hbalanced
    obtain ⟨hrow, haround⟩ := Levels.row_foldr hproper (by rw [hnone])
    rw [hnone] at haround
    rw [Levels.row, List.eq_nil_of_length_eq_zero haround, List.flatMap_nil, List.append_nil] at hrow
    exact ⟨_, hrow⟩

/-- The rows that come of a document's row when spans are cut out and nodes put in, anywhere. -/
inductive Edited : List Token → Prop
  | tokens (ns : List Node) : Edited (tokens ns)
  | erase {ts : List Token} (h : Edited ts) (r : Span) (hr : r.start ≤ r.stop)
    (hstop : r.stop ≤ ts.length) : Edited (r.erase ts)
  | insertNodes {ts : List Token} (h : Edited ts) (boundary : Nat) (hb : boundary ≤ ts.length)
    (ns : List Node) : Edited (insertNodes ts boundary ns)

lemma balanced_erase {r : Span} {ts : List Token} (hr : r.start ≤ r.stop)
    (hstop : r.stop ≤ ts.length) (hts : Balanced ts) : Balanced (r.erase ts) := by
  have hbalanced := Span.balanced_insertNodes_erase hr (Nat.le_trans hr hstop) hts []
  rwa [insertNodes, tokens_nil, List.append_nil, List.take_append_drop] at hbalanced

lemma balanced_insertNodes {ts : List Token} (hts : Balanced ts) (boundary : Nat)
    (ns : List Node) : Balanced (insertNodes ts boundary ns) := by
  rw [insertNodes, balanced_insert_iff (balanced_tokens ns), List.take_append_drop]
  exact hts

/-- An edited row is the row of a document. -/
theorem Edited.exists_tokens_eq {ts : List Token} (h : Edited ts) :
    ∃ ns, RichText.tokens ns = ts := by
  induction h with
  | tokens ns => exact ⟨ns, rfl⟩
  | erase h r hr hstop ih =>
    obtain ⟨hbalanced, hproper⟩ := exists_tokens_eq_iff.1 ih
    refine exists_tokens_eq_iff.2 ⟨balanced_erase hr hstop hbalanced, fun t ht => ?_⟩
    rcases Span.mem_erase ht with rfl | ht
    · trivial
    · exact hproper t ht
  | insertNodes h boundary hb ns ih =>
    obtain ⟨hbalanced, hproper⟩ := exists_tokens_eq_iff.1 ih
    refine exists_tokens_eq_iff.2 ⟨balanced_insertNodes hbalanced boundary ns, fun t ht => ?_⟩
    rcases mem_insertNodes ht with ht | ht
    · exact hproper t ht
    · exact proper_of_mem_tokens ns t ht

/-! ### Counting tags -/

namespace Unmatched

/-- A tag meets another, or is one more that is unmatched. -/
lemma countP_step (u : Unmatched) (t : Token) :
    [t].countP Token.isStop + (u.step t).starts.length + u.stops =
      [t].countP Token.isStart + (u.step t).stops + u.starts.length := by
  obtain ⟨stops, starts⟩ := u
  rw [List.countP_singleton, List.countP_singleton]
  cases t with
  | char c => exact Nat.add_right_comm 0 starts.length stops
  | leaf n => exact Nat.add_right_comm 0 starts.length stops
  | start tag =>
    simp only [step, Token.isStop, Token.isStart, List.length_cons, if_true, Bool.false_eq_true,
      if_false]
    omega
  | stop =>
    cases starts with
    | nil =>
      simp only [step, Token.isStop, Token.isStart, if_true, Bool.false_eq_true, if_false]
      omega
    | cons tag rest =>
      simp only [step, Token.isStop, Token.isStart, List.length_cons, if_true,
        Bool.false_eq_true, if_false]
      omega

lemma countP_add_length (ts : List Token) :
    ts.countP Token.isStop + (ofTokens ts).starts.length =
      ts.countP Token.isStart + (ofTokens ts).stops := by
  induction ts using List.reverseRecOn with
  | nil => rfl
  | append_singleton ts t ih =>
    have hlast : ofTokens (ts ++ [t]) = (ofTokens ts).step t := by
      rw [ofTokens, List.foldl_append]
      rfl
    have hstep := countP_step (ofTokens ts) t
    rw [hlast, List.countP_append, List.countP_append]
    omega

end Unmatched

/-- No row before a place in a document's row has more end tags than start tags. -/
lemma countP_isStop_le {us ws : List Token} (h : Balanced (us ++ ws)) :
    us.countP Token.isStop ≤ us.countP Token.isStart := by
  have hcount := Unmatched.countP_add_length us
  rw [h.stops_eq_zero] at hcount
  omega

lemma Balanced.countP_eq {ts : List Token} (h : Balanced ts) :
    ts.countP Token.isStop = ts.countP Token.isStart := by
  have hcount := Unmatched.countP_add_length ts
  rwa [h] at hcount

/-! ### Reading a row from its start -/

namespace Unfinished

/-- Adds a character to the text at the end, or as a text of its own. -/
def addChar (u : Unfinished) (c : Char) : Unfinished :=
  match u.nodes.getLast? with
  | some (.text s) => { u with nodes := u.nodes.dropLast ++ [.text (s ++ [c])] }
  | _ => u.add (.text [c])

/-- Takes in the next token of a row. An end tag is refused if no element is open. -/
def take? (u : Unfinished) : Token → Option Unfinished
  | .char c => some (u.addChar c)
  | .leaf n => some (u.add n)
  | .start tag => some (u.enter tag)
  | .stop =>
    match u.around with
    | [] => none
    | (tag, before) :: outer => some ⟨before ++ [.element tag u.nodes], outer⟩

lemma nodes_addChar (u : Unfinished) (c : Char) : (u.addChar c).nodes = concatText u.nodes [c] := by
  rcases hlast : u.nodes.getLast? with _ | (s | s | ⟨tag, inside⟩) <;>
    simp [addChar, concatText, hlast, add]

lemma normalize_addChar (u : Unfinished) (c : Char) (ns : List Node) :
    normalize ((u.addChar c).nodes ++ ns) = normalize (u.nodes ++ .text [c] :: ns) := by
  rw [nodes_addChar, normalize_concatText]

lemma around_addChar (u : Unfinished) (c : Char) : (u.addChar c).around = u.around := by
  rw [addChar]
  split <;> rfl

/-- A text is taken in behind the nodes so far. -/
lemma foldlM_take?_chars (s : Text) (u : Unfinished) :
    ∃ ms, (s.map Token.char).foldlM take? u = some ⟨ms, u.around⟩ ∧
      ∀ ns, normalize (ms ++ ns) = normalize (u.nodes ++ .text s :: ns) := by
  induction s generalizing u with
  | nil => exact ⟨u.nodes, rfl, fun ns => normalize_append_congr rfl (consText_nil _).symm⟩
  | cons c s ih =>
    obtain ⟨ms, hfold, hms⟩ := ih (u.addChar c)
    refine ⟨ms, ?_, fun ns => ?_⟩
    · rw [← around_addChar u c, ← hfold]
      rfl
    · rw [hms, normalize_addChar]
      exact normalize_append_congr rfl (consText_consText [c] s (normalize ns))

/-- The row of nodes is taken in as a whole, and the nodes stand behind those so far. -/
lemma foldlM_take?_tokens (ns : List Node) (u : Unfinished) :
    ∃ ms, (tokens ns).foldlM take? u = some ⟨ms, u.around⟩ ∧
      normalize ms = normalize (u.nodes ++ ns) := by
  induction ns using Node.induction generalizing u with
  | nil => exact ⟨u.nodes, rfl, by rw [List.append_nil]⟩
  | text s ns ih =>
    obtain ⟨ks, hfold, hks⟩ := foldlM_take?_chars s u
    obtain ⟨ms, hrest, hms⟩ := ih ⟨ks, u.around⟩
    refine ⟨ms, ?_, by rw [hms, hks]⟩
    rw [tokens_cons, List.foldlM_append, Node.tokens, hfold]
    exact hrest
  | comment s ns ih =>
    obtain ⟨ms, hrest, hms⟩ := ih (u.add (.comment s))
    refine ⟨ms, hrest, ?_⟩
    rw [hms, add, List.append_assoc]
    rfl
  | element tag inside ns ihin ih =>
    rw [tokens_cons, List.foldlM_append]
    by_cases hv : tag.isVoid = true
    · obtain ⟨ms, hrest, hms⟩ := ih (u.add (.element tag inside))
      refine ⟨ms, ?_, ?_⟩
      · rw [Node.tokens_void hv]
        exact hrest
      · rw [hms, add, List.append_assoc]
        rfl
    · -- the start tag opens a level, and the end tag finds it as the innermost one
      obtain ⟨ks, hin, hks⟩ := ihin (u.enter tag)
      obtain ⟨ms, hrest, hms⟩ := ih ⟨u.nodes ++ [.element tag ks], u.around⟩
      refine ⟨ms, ?_, ?_⟩
      · have helement : (Node.element tag inside).tokens.foldlM take? u =
            some ⟨u.nodes ++ [.element tag ks], u.around⟩ := by
          rw [Node.tokens_element hv, List.foldlM_cons]
          change (tokens inside ++ [Token.stop]).foldlM take? (u.enter tag) = _
          rw [List.foldlM_append, hin]
          rfl
        rw [helement]
        exact hrest
      · rw [hms, List.append_assoc]
        refine normalize_append_congr rfl ?_
        have hks' : normalize ks = normalize inside := hks
        rw [List.singleton_append, normalize_element, normalize_element, hks']

end Unfinished

/-- What is inside void elements need not be normal; if it is, nothing is left to normalize. -/
lemma Token.map_normalize_eq_self_iff {ts : List Token} :
    ts.map Token.normalize = ts ↔
      ∀ tag inside, .leaf (.element tag inside) ∈ ts → IsNormal inside := by
  constructor
  · intro h tag inside hmem
    have hsame := List.map_inj_left.1 (h.trans (List.map_id ts).symm) _ hmem
    obtain ⟨-, hinside⟩ := Node.element.inj (Token.leaf.inj hsame)
    exact isNormal_iff.2 hinside
  · intro h
    have hsame : ∀ t ∈ ts, t.normalize = id t := by
      intro t ht
      match t with
      | .char _ | .start _ | .stop | .leaf (.text _) | .leaf (.comment _) => rfl
      | .leaf (.element tag inside) =>
        have hinside := isNormal_iff.1 (h tag inside ht)
        exact congrArg (fun ns => Token.leaf (Node.element tag ns)) hinside
    rw [List.map_congr_left hsame, List.map_id]

/-- **Flattening a document and rebuilding it** normalizes it. Of an edited row, whatever is before a
place has no more end tags than start tags, and the whole has as many; read from its start, it leaves
no end tag and no start tag unmatched; and flattening what is rebuilt gives the row again, just if
nothing is left to normalize inside its leaves. -/
theorem rebuild_edited :
    (∀ ns, ofTokens (tokens ns) = normalize ns) ∧
      ∀ ts, Edited ts →
        (∀ us, us <+: ts → us.countP Token.isStop ≤ us.countP Token.isStart) ∧
        ts.countP Token.isStop = ts.countP Token.isStart ∧
        (∃ ns, ts.foldlM Unfinished.take? {} = some ⟨ns, []⟩ ∧ normalize ns = ofTokens ts) ∧
        (tokens (ofTokens ts) = ts ↔
          ∀ tag inside, .leaf (.element tag inside) ∈ ts → IsNormal inside) := by
  refine ⟨ofTokens_tokens, fun ts hts => ?_⟩
  obtain ⟨ns, rfl⟩ := hts.exists_tokens_eq
  refine ⟨?_, (balanced_tokens ns).countP_eq, ?_, ?_⟩
  · rintro us ⟨ws, hws⟩
    exact countP_isStop_le (hws ▸ balanced_tokens ns)
  · obtain ⟨ms, hfold, hms⟩ := Unfinished.foldlM_take?_tokens ns {}
    exact ⟨ms, hfold, by rw [hms, ofTokens_tokens]; rfl⟩
  · rw [ofTokens_tokens, tokens_normalize, Token.map_normalize_eq_self_iff]

/-- The start of an element and one letter are cut out, and a line break is put in behind the start
tag that stays. The row comes back if the line break is empty, and not if it has an empty text. -/
theorem rebuild_edited_lineBreak :
    let bold : Tag := ⟨"b".toList, []⟩
    let lineBreak : Tag := ⟨"br".toList, []⟩
    let cut := (Span.mk 0 2).erase (tokens [.element bold [.text "ab".toList]])
    let row (inside : List Node) := insertNodes cut 1 [.element lineBreak inside]
    row [] = [.start bold, .leaf (.element lineBreak []), .char 'b', .stop] ∧ Edited (row []) ∧
      tokens (ofTokens (row [])) = row [] ∧
      tokens (ofTokens (row [.text []])) ≠ row [.text []] := by
  intro bold lineBreak cut row
  have hcut : Edited cut := .erase (.tokens _) _ (by decide) (by decide +kernel)
  have hlength : 1 ≤ cut.length := by decide +kernel
  have hrow (inside : List Node) : Edited (row inside) := .insertNodes hcut 1 hlength _
  obtain ⟨-, -, -, hempty⟩ := rebuild_edited.2 _ (hrow [])
  obtain ⟨-, -, -, htext⟩ := rebuild_edited.2 _ (hrow [.text []])
  have hleaf : Token.leaf (.element lineBreak [.text []]) ∈ row [.text []] := by decide +kernel
  have hshape : row [] = [.start bold, .leaf (.element lineBreak []), .char 'b', .stop] := by
    decide +kernel
  refine ⟨hshape, hrow [], hempty.2 fun tag inside hmem => ?_, fun hsame => ?_⟩
  · simp only [hshape, List.mem_cons, List.not_mem_nil, or_false, reduceCtorEq, false_or,
      Token.leaf.injEq, Node.element.injEq] at hmem
    obtain ⟨-, rfl⟩ := hmem
    exact isNormal_iff.2 rfl
  · have hnormal := isNormal_iff.1 (htext.1 hsame _ _ hleaf)
    cases hnormal

end RichText
