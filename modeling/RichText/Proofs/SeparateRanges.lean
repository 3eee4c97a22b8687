import Mathlib.Data.List.TakeWhile
import Mathlib.Tactic.Lemma
import RichText.Proofs.Enclosure
import RichText.Proofs.Gaps

/-!
Taking away the formatting of many ranges. The outer span of a range stays in the gaps at its ends,
so it does not reach over a character that is not selected. Ranges with such a character between any
two of them are therefore made plain text apart from each other, in whatever order, and once is
enough.
-/

namespace RichText

open Boundary

/-! ### Cuts in a row -/

/-- A row is cut between two others as far behind the characters of the first as tokens with a
property reach. -/
structure CutAfter (p : Token → Bool) (us ws : List Token) : Prop where
  passed : ∀ t ∈ gap us.reverse, p t = true
  stopped : ∀ t rest, ws = t :: rest → p t = false

/-- **Every row can be cut** behind so many of its characters. -/
lemma exists_cutAfter {p : Token → Bool} (hp : ∀ c, p (.char c) = false) {ts : List Token} {n : Nat}
    (hn : n ≤ (charsOf ts).length) :
    ∃ us ws, ts = us ++ ws ∧ (charsOf us).length = n ∧ CutAfter p us ws := by
  obtain ⟨as, bs, rfl, hlen, hgap⟩ := exists_append_of_le hn
  have hpassed {t : Token} (ht : t ∈ bs.takeWhile p) : p t = true :=
    List.all_eq_true.1 List.all_takeWhile t ht
  have hchars {t : Token} (ht : t ∈ bs.takeWhile p) : t.isChar = false :=
    isChar_of_mem_takeWhile hp ht
  refine ⟨as ++ bs.takeWhile p, bs.dropWhile p, ?_, ?_, fun t ht => ?_, fun t rest hrest => ?_⟩
  · rw [List.append_assoc, List.takeWhile_append_dropWhile]
  · rw [charsOf_append, charsOf_eq_nil fun t => hchars, List.append_nil, hlen]
  · rw [List.reverse_append, gap_append_of_forall fun t ht => hchars (List.mem_reverse.1 ht), hgap,
      List.append_nil] at ht
    exact hpassed (List.mem_reverse.1 ht)
  · have := List.head?_dropWhile_not p bs
    rw [hrest] at this
    exact this

/-- A stretch `ms` between two rows is what an outer span cuts out. -/
structure OuterCut (start stop : Nat) (us ms ws : List Token) : Prop where
  start_eq : (charsOf us).length = start
  stop_eq : (charsOf (us ++ ms)).length = stop
  begins : CutAfter (fun t => t.isStop || t.isLeaf) us ms
  ends : CutAfter (fun t => t.isStart || t.isLeaf) ws.reverse ms.reverse

namespace CutAfter

variable {p : Token → Bool} {us ms ws : List Token}

lemma of_append (h : CutAfter p us (ms ++ ws)) : CutAfter p us ms :=
  ⟨h.passed, fun t rest hms => h.stopped t (rest ++ ws) (by rw [hms, List.cons_append])⟩

/-- From the characters on, the tokens with the property are those up to the cut. -/
lemma takeWhile_eq (h : CutAfter p us ms) (hms : ms ≠ []) (ws : List Token) :
    ((gap us.reverse).reverse ++ (ms ++ ws)).takeWhile p = (gap us.reverse).reverse := by
  obtain ⟨t, rest, rfl⟩ := List.exists_cons_of_ne_nil hms
  have ht : ¬p t = true := Bool.eq_false_iff.1 (h.stopped t rest rfl)
  rw [List.takeWhile_append_of_pos fun t ht => h.passed t (List.mem_reverse.1 ht),
    List.cons_append, List.takeWhile_cons_of_neg ht, List.append_nil]

/-- A cut stays one when more is passed over, up to a token without the property. -/
lemma extend (h : CutAfter p us ms) {vs : List Token}
    (hvs : ∀ t ∈ vs, t.isChar = false ∧ p t = true)
    (hws : ∀ t rest, ws = t :: rest → p t = false) : CutAfter p (us ++ vs) ws := by
  refine ⟨fun t ht => ?_, hws⟩
  rw [List.reverse_append, gap_append_of_forall fun t ht => (hvs t (List.mem_reverse.1 ht)).1,
    List.mem_append, List.mem_reverse] at ht
  exact ht.elim (fun ht => (hvs t ht).2) (h.passed t)

/-- A cut has nothing to do with what is before a character. -/
lemma char_append (h : CutAfter p us ms) (vs : List Token) (c : Char) :
    CutAfter p (vs ++ .char c :: us) ms := by
  refine ⟨fun t ht => h.passed t ?_, h.stopped⟩
  rwa [List.reverse_append, List.reverse_cons, List.append_assoc, List.singleton_append,
    gap_append_char] at ht

end CutAfter

/-- The start is cut off from the front of a row, and the stop from its back. -/
lemma exists_outerCut {ts : List Token} {start stop : Nat} (hlt : start < stop)
    (hle : stop ≤ (charsOf ts).length) :
    ∃ us ms ws, ts = us ++ ms ++ ws ∧ OuterCut start stop us ms ws := by
  obtain ⟨us, xs, hts, hstart, hbegins⟩ :=
    exists_cutAfter (p := fun t => t.isStop || t.isLeaf) (fun _ => rfl)
      (Nat.le_trans (Nat.le_of_lt hlt) hle)
  have hreverse : (charsOf ts.reverse).length = (charsOf ts).length := by
    rw [charsOf_reverse, List.length_reverse]
  obtain ⟨ws, vs, hts', hstop, hends⟩ :=
    exists_cutAfter (p := fun t => t.isStart || t.isLeaf) (fun _ => rfl)
      (show (charsOf ts).length - stop ≤ (charsOf ts.reverse).length by omega)
  have hrow : us ++ xs = vs.reverse ++ ws.reverse := by
    rw [← hts, ← List.reverse_append, ← hts', List.reverse_reverse]
  have hvs : (charsOf vs.reverse).length = stop := by
    have hlen := congrArg (fun ts => (charsOf ts).length) hts'
    simp only [charsOf_append, List.length_append] at hlen
    rw [charsOf_reverse, List.length_reverse]
    omega
  -- before the start there are fewer characters than before the stop
  have hshort : us.length ≤ vs.reverse.length := by
    refine Nat.le_of_not_le fun hle => ?_
    obtain ⟨as, rfl, -⟩ := exists_append_of_length_le hrow.symm hle
    rw [charsOf_append, List.length_append] at hstart
    omega
  obtain ⟨ms, hms, rfl⟩ := exists_append_of_length_le hrow hshort
  refine ⟨us, ms, ws.reverse, by rw [hts, List.append_assoc], hstart, hms ▸ hvs,
    hbegins.of_append, ?_⟩
  rw [← List.reverse_reverse vs, hms, List.reverse_append] at hends
  rw [List.reverse_reverse]
  exact hends.of_append

namespace OuterCut

variable {start stop : Nat} {us ms ws : List Token}

lemma ne_nil (h : OuterCut start stop us ms ws) (hlt : start < stop) : ms ≠ [] := by
  rintro rfl
  have hstop := h.stop_eq
  rw [List.append_nil, h.start_eq] at hstop
  omega

/-- **The outer span** is where the row is cut. -/
lemma span_eq (h : OuterCut start stop us ms ws) (hlt : start < stop) :
    outerStart start (us ++ ms ++ ws) = us.length ∧
      outerStop stop (us ++ ms ++ ws) = us.length + ms.length := by
  have hms := h.ne_nil hlt
  constructor
  · have hfirst := first_append us (ms ++ ws)
    rw [← h.start_eq, List.append_assoc, outerStart, drop_first, h.begins.takeWhile_eq hms,
      List.length_reverse]
    exact hfirst
  · have hpassed := h.ends.takeWhile_eq (List.reverse_ne_nil_iff.2 hms) us.reverse
    rw [List.reverse_reverse, ← List.reverse_append, ← List.reverse_append] at hpassed
    rw [← h.stop_eq, outerStop, take_last, hpassed, last_append, List.length_reverse,
      Nat.add_sub_cancel, List.length_append]

end OuterCut

/-! ### Rows with a stretch of plain text -/

/-- The row in which the text between two offsets is plain. -/
def plainRow (start stop : Nat) (ts : List Token) : List Token :=
  let r : Span := ⟨outerStart start ts, outerStop stop ts⟩
  r.keptBefore ts ++ ((r.text ts).map .char ++ r.keptAfter ts)

section PlainRow

variable {start stop : Nat} {us ms ws ts : List Token}

lemma OuterCut.plainRow_eq (h : OuterCut start stop us ms ws) (hlt : start < stop) :
    plainRow start stop (us ++ ms ++ ws) =
      us ++ (Unmatched.ofTokens ms).stopTokens ++
        ((charsOf ms).map .char ++ ((Unmatched.ofTokens ms).startTokens ++ ws)) := by
  obtain ⟨hstart, hstop⟩ := h.span_eq hlt
  obtain ⟨hbefore, hafter⟩ := Span.kept_append us ms ws
  rw [plainRow, hstart, hstop]
  simp only [Span.text, Span.inside_append, hbefore, hafter]

/-- **Making a text plain** keeps all characters. -/
lemma charsOf_plainRow (hlt : start < stop) (hle : stop ≤ (charsOf ts).length) :
    charsOf (plainRow start stop ts) = charsOf ts := by
  obtain ⟨us, ms, ws, rfl, hcut⟩ := exists_outerCut hlt hle
  rw [hcut.plainRow_eq hlt]
  simp only [charsOf_append, charsOf_stopTokens, charsOf_startTokens, charsOf_map_char,
    List.nil_append, List.append_assoc]

/-- The outer span of a text that was made plain is the text. -/
lemma OuterCut.plain (h : OuterCut start stop us ms ws) (u : Unmatched) :
    OuterCut start stop (us ++ u.stopTokens) ((charsOf ms).map .char) (u.startTokens ++ ws) := by
  refine ⟨?_, ?_, ?_, ?_⟩
  · rw [charsOf_append, charsOf_stopTokens, List.append_nil, h.start_eq]
  · rw [charsOf_append, charsOf_append, charsOf_stopTokens, List.append_nil, charsOf_map_char,
      ← charsOf_append, h.stop_eq]
  · refine h.begins.extend (fun t ht => ?_) fun t rest hrest => ?_
    · rw [List.eq_of_mem_replicate ht]
      exact ⟨rfl, rfl⟩
    · obtain ⟨c, -, rfl⟩ := List.mem_map.1 (hrest ▸ List.mem_cons_self)
      rfl
  · rw [List.reverse_append]
    refine h.ends.extend (fun t ht => ?_) fun t rest hrest => ?_
    · obtain ⟨tag, -, rfl⟩ := List.mem_map.1 (List.mem_reverse.1 ht)
      exact ⟨rfl, rfl⟩
    · obtain ⟨c, -, rfl⟩ := List.mem_map.1 (List.mem_reverse.1 (hrest ▸ List.mem_cons_self))
      rfl

/-- **Once is enough**: nothing is unmatched in a plain text. -/
theorem plainRow_plainRow (hlt : start < stop) (hle : stop ≤ (charsOf ts).length) :
    plainRow start stop (plainRow start stop ts) = plainRow start stop ts := by
  obtain ⟨us, ms, ws, rfl, hcut⟩ := exists_outerCut hlt hle
  have hplain := (hcut.plain (Unmatched.ofTokens ms)).plainRow_eq hlt
  rw [unmatched_chars, charsOf_map_char] at hplain
  rw [hcut.plainRow_eq hlt, ← List.append_assoc, hplain]
  simp [Unmatched.stopTokens, Unmatched.startTokens]

/-- **Behind an unselected character** nothing changes. -/
lemma plainRow_append_char (hlt : start < stop) (hle : stop ≤ (charsOf ts).length) (c : Char)
    (us : List Token) :
    plainRow start stop (ts ++ .char c :: us) = plainRow start stop ts ++ .char c :: us := by
  obtain ⟨vs, ms, ws, rfl, hcut⟩ := exists_outerCut hlt hle
  have hcut' : OuterCut start stop vs ms (ws ++ .char c :: us) := by
    refine ⟨hcut.start_eq, hcut.stop_eq, hcut.begins, ?_⟩
    rw [List.reverse_append, List.reverse_cons, List.append_assoc, List.singleton_append]
    exact hcut.ends.char_append us.reverse c
  rw [hcut.plainRow_eq hlt, List.append_assoc, hcut'.plainRow_eq hlt]
  simp only [List.append_assoc]

/-- **Before an unselected character** nothing changes. -/
lemma plainRow_char_append (hlt : start < stop) (hle : stop ≤ (charsOf ts).length) (c : Char)
    (us : List Token) :
    plainRow ((charsOf us).length + 1 + start) ((charsOf us).length + 1 + stop)
      (us ++ .char c :: ts) = us ++ .char c :: plainRow start stop ts := by
  obtain ⟨vs, ms, ws, rfl, hcut⟩ := exists_outerCut hlt hle
  have hcut' : OuterCut ((charsOf us).length + 1 + start) ((charsOf us).length + 1 + stop)
      (us ++ .char c :: vs) ms ws := by
    refine ⟨?_, ?_, hcut.begins.char_append us c, hcut.ends⟩
    · rw [← hcut.start_eq, charsOf_append, charsOf_char, List.length_append, List.length_cons]
      omega
    · rw [← hcut.stop_eq, List.append_assoc, List.cons_append, charsOf_append, charsOf_char,
        List.length_append, List.length_cons]
      omega
  have hrow : us ++ .char c :: (vs ++ ms ++ ws) = us ++ .char c :: vs ++ ms ++ ws := by simp
  rw [hrow, hcut'.plainRow_eq (by omega), hcut.plainRow_eq hlt]
  simp only [List.append_assoc, List.cons_append]

/-- Before so many characters there are so many others and one more character. -/
lemma exists_char_of_lt {n : Nat} (hn : n < (charsOf ts).length) :
    ∃ us c ws, ts = us ++ .char c :: ws ∧ (charsOf us).length = n := by
  induction ts generalizing n with
  | nil => exact absurd hn (Nat.not_lt_zero n)
  | cons t ts ih =>
    have hcons {m : Nat} (hm : m < (charsOf ts).length) (hlen : (charsOf [t]).length + m = n) :
        ∃ us c ws, t :: ts = us ++ .char c :: ws ∧ (charsOf us).length = n := by
      obtain ⟨us, c, ws, rfl, hus⟩ := ih hm
      refine ⟨t :: us, c, ws, rfl, ?_⟩
      rw [← hlen, ← hus, ← List.length_append, ← charsOf_append]
      rfl
    cases t with
    | char c =>
      cases n with
      | zero => exact ⟨[], c, ts, rfl, rfl⟩
      | succ n => exact hcons (Nat.lt_of_succ_lt_succ hn) (Nat.add_comm 1 n)
    | _ => exact hcons hn (Nat.zero_add n)

/-- **Separate texts** are made plain in either order. -/
theorem plainRow_comm {start' stop' : Nat} (hlt : start < stop) (hsep : stop < start')
    (hlt' : start' < stop') (hle : stop' ≤ (charsOf ts).length) :
    plainRow start stop (plainRow start' stop' ts) =
      plainRow start' stop' (plainRow start stop ts) := by
  obtain ⟨us, c, ws, rfl, hus⟩ := exists_char_of_lt (show stop < (charsOf ts).length by omega)
  have hlen : (charsOf (us ++ .char c :: ws)).length =
      (charsOf us).length + 1 + (charsOf ws).length := by
    rw [charsOf_append, charsOf_char, List.length_append, List.length_cons]
    omega
  -- behind the character the offsets begin anew
  obtain ⟨n, rfl⟩ := Nat.exists_eq_add_of_le (show (charsOf us).length + 1 ≤ start' by omega)
  obtain ⟨m, rfl⟩ := Nat.exists_eq_add_of_le (show (charsOf us).length + 1 ≤ stop' by omega)
  have hkeep : charsOf (plainRow start stop us) = charsOf us :=
    charsOf_plainRow hlt (Nat.le_of_eq hus.symm)
  have hnm : n < m := by omega
  have hm : m ≤ (charsOf ws).length := by omega
  have hbehind := plainRow_char_append hnm hm c (plainRow start stop us)
  rw [hkeep] at hbehind
  rw [plainRow_char_append hnm hm, plainRow_append_char hlt (Nat.le_of_eq hus.symm),
    plainRow_append_char hlt (Nat.le_of_eq hus.symm), hbehind]

end PlainRow

/-! ### Separate ranges -/

/-- At least one character between two ranges is in neither. -/
def Selection.Apart (a b : Selection) : Prop := a.stop < b.start ∨ b.stop < a.start

lemma Selection.Apart.symm {a b : Selection} (h : a.Apart b) : b.Apart a := Or.symm h

/-- A range selects some characters of a text, and nothing behind it. -/
def Selection.Within (a : Selection) (s : Text) : Prop := a.isCaret = false ∧ a.stop ≤ s.length

lemma Selection.Within.lt {a : Selection} {s : Text} (h : a.Within s) : a.start < a.stop := by
  refine Nat.lt_of_le_of_ne a.start_le_stop fun heq => ?_
  cases (Selection.isCaret_iff.2 heq).symm.trans h.1

namespace Canvas

/-- A canvas shows a normal document with a text, and with nothing inside void elements. -/
structure Shows (w : Canvas) (s : Text) : Prop where
  normal : IsNormal w.nodes
  voids : VoidsEmpty w.nodes
  text_eq : w.text = s

variable {v w : Canvas} {s : Text} {a b : Selection}

lemma Shows.charsOf_eq (h : w.Shows s) : charsOf (tokens w.nodes) = s := by
  rw [charsOf_tokens h.voids, ← h.text_eq, text]

lemma Shows.unformatRange (h : w.Shows s) (a : Selection) : (w.unformatRange a).Shows s := by
  refine ⟨?_, voidsEmpty_unformatRange h.voids a, (text_unformatRange h.voids a).trans h.text_eq⟩
  rw [Canvas.unformatRange]
  split
  · exact h.normal
  · exact isNormal_replaceSelected _ _ _ _

lemma Shows.foldl (h : w.Shows s) (sels : List Selection) :
    (sels.foldl Canvas.unformatRange w).Shows s := by
  induction sels generalizing w with
  | nil => exact h
  | cons a sels ih => exact ih (h.unformatRange a)

/-- **Making a range plain text** makes the stretch of the row between its offsets plain. -/
lemma tokens_unformatRange (h : VoidsEmpty w.nodes)
    (ha : min a.start w.length < min a.stop w.length) :
    tokens (w.unformatRange a).nodes =
      plainRow (min a.start w.length) (min a.stop w.length) (tokens w.nodes) := by
  have hcaret : ¬a.isCaret = true := fun hc => by
    rw [Selection.isCaret_iff.1 hc] at ha
    exact Nat.lt_irrefl _ ha
  have htext : w.textIn a = (a.span .outer (tokens w.nodes)).text (tokens w.nodes) := by
    rw [textIn, text_span, text_span]
  have hlen := length_charsOf_tokens h
  rw [Canvas.unformatRange, if_neg hcaret, nodes_replaceRange,
    tokens_replaceSelected_of_voidsEmpty h (wellFormed_textNode _).voidsEmpty, htext,
    (span_of_lt (hlen.symm ▸ ha)).2, hlen, tokens_cons, tokens_nil, List.append_nil,
    List.append_assoc]
  rfl

lemma Shows.tokens_unformatRange (h : w.Shows s) (ha : a.Within s) :
    tokens (w.unformatRange a).nodes = plainRow a.start a.stop (tokens w.nodes) := by
  have hlen : w.length = s.length := by rw [length, h.text_eq]
  have hstop : min a.stop w.length = a.stop := Nat.min_eq_left (hlen.symm ▸ ha.2)
  have hstart : min a.start w.length = a.start :=
    Nat.min_eq_left (Nat.le_trans a.start_le_stop (hlen.symm ▸ ha.2))
  have hrow := Canvas.tokens_unformatRange h.voids (a := a) (by rw [hstart, hstop]; exact ha.lt)
  rwa [hstart, hstop] at hrow

@[simp] lemma ranges_unformatRange (w : Canvas) (a : Selection) :
    (w.unformatRange a).ranges = w.ranges := by
  rw [unformatRange]
  split <;> rfl

@[simp] lemma host_unformatRange (w : Canvas) (a : Selection) :
    (w.unformatRange a).host = w.host := by
  rw [unformatRange]
  split <;> rfl

/-- Canvases with the same ranges and host are known by their rows. -/
lemma Shows.eq_of_tokens_eq {w' : Canvas} (h : w.Shows s) (h' : w'.Shows s)
    (hranges : w.ranges = w'.ranges) (hhost : w.host = w'.host)
    (hrow : tokens w.nodes = tokens w'.nodes) : w = w' := by
  have hnodes := RichText.eq_of_tokens_eq h.normal h'.normal hrow
  obtain ⟨nodes, ranges, host⟩ := w
  obtain ⟨nodes', ranges', host'⟩ := w'
  simp only at hranges hhost hnodes
  rw [hranges, hhost, hnodes]

/-- A range is made plain text once. -/
lemma Shows.unformatRange_unformatRange (h : w.Shows s) (ha : a.Within s) :
    (w.unformatRange a).unformatRange a = w.unformatRange a := by
  have h' := h.unformatRange a
  refine (h'.unformatRange a).eq_of_tokens_eq h' (by simp) (by simp) ?_
  rw [h'.tokens_unformatRange ha, h.tokens_unformatRange ha,
    plainRow_plainRow ha.lt (h.charsOf_eq ▸ ha.2)]

/-- **Two ranges** apart from each other are made plain text in either order. -/
theorem Shows.unformatRange_comm (h : w.Shows s) (ha : a.Within s) (hb : b.Within s)
    (hab : a.Apart b) :
    (w.unformatRange a).unformatRange b = (w.unformatRange b).unformatRange a := by
  have hrow {a b : Selection} (ha : a.Within s) (hb : b.Within s) :
      tokens ((w.unformatRange a).unformatRange b).nodes =
        plainRow b.start b.stop (plainRow a.start a.stop (tokens w.nodes)) := by
    rw [(h.unformatRange a).tokens_unformatRange hb, h.tokens_unformatRange ha]
  refine ((h.unformatRange a).unformatRange b).eq_of_tokens_eq
    ((h.unformatRange b).unformatRange a) (by simp) (by simp) ?_
  rw [hrow ha hb, hrow hb ha]
  rcases hab with hlt | hlt
  · exact (plainRow_comm ha.lt hlt hb.lt (h.charsOf_eq ▸ hb.2)).symm
  · exact plainRow_comm hb.lt hlt ha.lt (h.charsOf_eq ▸ ha.2)

/-- **Ranges apart from each other** are made plain text in any order. -/
theorem Shows.foldl_perm (h : w.Shows s) {sels sels' : List Selection} (hperm : sels.Perm sels')
    (hin : ∀ a ∈ sels, a.Within s) (hsep : sels.Pairwise Selection.Apart) :
    sels.foldl Canvas.unformatRange w = sels'.foldl Canvas.unformatRange w := by
  induction hperm generalizing w with
  | nil => rfl
  | cons a _ ih => exact ih (h.unformatRange a) (List.forall_mem_cons.1 hin).2 hsep.tail
  | swap a b sels =>
    obtain ⟨hb, hrest⟩ := List.forall_mem_cons.1 hin
    have ha := (List.forall_mem_cons.1 hrest).1
    have hab := List.rel_of_pairwise_cons hsep List.mem_cons_self
    rw [List.foldl_cons, List.foldl_cons, List.foldl_cons, List.foldl_cons,
      h.unformatRange_comm hb ha hab]
  | trans hperm _ ih ih' =>
    rw [ih h hin hsep]
    refine ih' h (fun a ha => hin a (hperm.mem_iff.2 ha)) ?_
    exact (hperm.pairwise_iff Selection.Apart.symm).1 hsep

/-- Any of them may be the last. -/
lemma Shows.exists_last (h : w.Shows s) {sels : List Selection} (hin : ∀ a ∈ sels, a.Within s)
    (hsep : sels.Pairwise Selection.Apart) (ha : a ∈ sels) :
    ∃ x : Canvas, x.Shows s ∧ sels.foldl Canvas.unformatRange w = x.unformatRange a := by
  obtain ⟨as, bs, rfl⟩ := List.append_of_mem ha
  have hperm : (as ++ a :: bs).Perm (as ++ bs ++ [a]) :=
    List.perm_middle.trans (List.perm_append_singleton a _).symm
  refine ⟨_, h.foldl (as ++ bs), ?_⟩
  rw [h.foldl_perm hperm hin hsep, List.foldl_append]
  rfl

/-- A range that is made plain text last is in one text. -/
lemma Shows.textAt_unformatRange (h : w.Shows s) (ha : a.Within s) :
    TextAt (w.unformatRange a).nodes a.start ((s.take a.stop).drop a.start) := by
  have hlt := ha.lt
  have hle := ha.2
  have hstart : min a.start (plainText w.nodes).length = a.start := by
    rw [← text, h.text_eq]
    omega
  have hne : (s.take a.stop).drop a.start ≠ [] := by
    refine List.ne_nil_of_length_pos ?_
    rw [List.length_drop, List.length_take]
    omega
  rw [Canvas.unformatRange, ha.1, if_neg Bool.false_ne_true, nodes_replaceRange, textIn_eq h.voids,
    h.text_eq]
  have htext := textAt_replaceSelected h.normal h.voids a .outer hne
  rwa [hstart] at htext

/-- The stored ranges have no part in it. -/
lemma foldl_unformatRange_ranges (sels ranges : List Selection) :
    sels.foldl unformatRange { v with ranges := ranges } =
      { sels.foldl unformatRange v with ranges := ranges } :=
  List.foldl_hom (fun w : Canvas => { w with ranges := ranges }) fun w a => by
    rw [unformatRange, unformatRange]
    split <;> rfl

lemma ranges_foldl_unformatRange (sels : List Selection) (v : Canvas) :
    (sels.foldl unformatRange v).ranges = v.ranges := by
  induction sels generalizing v with
  | nil => rfl
  | cons a sels ih => rw [List.foldl_cons, ih, ranges_unformatRange]

/-- Ranges in the text are kept as they are. -/
lemma Shows.edit_unformat (h : v.Shows s) (hhost : v.host.interface = .range)
    (hin : ∀ a ∈ v.ranges, a.Within s) :
    v.edit .unformat = v.ranges.foldl Canvas.unformatRange v := by
  have hclamp : v.ranges.map (fun a => a.clamp (v.ranges.foldl Canvas.unformatRange v).length) =
      (v.ranges.foldl Canvas.unformatRange v).ranges := by
    rw [length, (h.foldl v.ranges).text_eq, ranges_foldl_unformatRange]
    exact (List.map_congr_left fun a ha => Selection.clamp_of_stop_le (hin a ha).2).trans
      (List.map_id' _)
  simp only [edit, hhost, editRange, unformatRanges, hclamp]

/-- **Taking away formatting** from ranges apart from each other leaves the same document for every
order of them, and another time nothing changes. The text and the ranges stay, and the text of each
range is in one text of the document. -/
theorem edit_unformat_separate (hhost : v.host.interface = .range) (hnormal : IsNormal v.nodes)
    (hvoids : VoidsEmpty v.nodes)
    (hin : ∀ a ∈ v.ranges, a.isCaret = false ∧ a.stop ≤ v.length)
    (hsep : v.ranges.Pairwise Selection.Apart) :
    let w := v.edit .unformat
    (∀ sels : List Selection, sels.Perm v.ranges →
      ({ v with ranges := sels }.edit .unformat).nodes = w.nodes) ∧
      w.edit .unformat = w ∧ w.text = v.text ∧ w.ranges = v.ranges ∧
      ∀ a ∈ v.ranges, TextAt w.nodes a.start ((v.text.take a.stop).drop a.start) := by
  intro w
  have h : v.Shows v.text := ⟨hnormal, hvoids, rfl⟩
  have hw : w = v.ranges.foldl unformatRange v := h.edit_unformat hhost hin
  have hranges : w.ranges = v.ranges := by rw [hw, ranges_foldl_unformatRange]
  have hshows : w.Shows v.text := hw ▸ h.foldl v.ranges
  refine ⟨fun sels hperm => ?_, ?_, hshows.text_eq, hranges, fun a ha => ?_⟩
  · have h' : Shows { v with ranges := sels } v.text := ⟨hnormal, hvoids, rfl⟩
    have hin' : ∀ a ∈ sels, a.Within v.text := fun a ha => hin a (hperm.mem_iff.1 ha)
    rw [h'.edit_unformat hhost hin', foldl_unformatRange_ranges, hw,
      h.foldl_perm hperm.symm hin hsep]
  · have hfix (sels : List Selection) (hsels : ∀ a ∈ sels, w.unformatRange a = w) :
        sels.foldl unformatRange w = w := by
      induction sels with
      | nil => rfl
      | cons a sels ih =>
        obtain ⟨ha, hrest⟩ := List.forall_mem_cons.1 hsels
        rw [List.foldl_cons, ha, ih hrest]
    rw [hshows.edit_unformat (by rw [host_edit, hhost]) (hranges ▸ hin), hranges]
    refine hfix v.ranges fun a ha => ?_
    obtain ⟨x, hx, hlast⟩ := h.exists_last hin hsep ha
    rw [hw, hlast, hx.unformatRange_unformatRange (hin a ha)]
  · obtain ⟨x, hx, hlast⟩ := h.exists_last hin hsep ha
    rw [hw, hlast]
    exact hx.textAt_unformatRange (hin a ha)

/-- Three ranges, of which a later one is before the first and one is backward. -/
theorem edit_unformat_separate_three :
    let v := (((ofMarkup "<p>a<b>b<i>cd</i></b>d</p><br><u>e<s>f</s></u>g".toList .modern).addRange
      ⟨6, 7⟩).addRange ⟨3, 1⟩).addRange ⟨4, 5⟩
    let w := v.edit .unformat
    v.ranges = [⟨6, 7⟩, ⟨3, 1⟩, ⟨4, 5⟩] ∧
      w.markup = "<p>abc<b><i>d</i></b></p>d<br><u>e</u>fg".toList ∧
      (∀ sels : List Selection, sels.Perm v.ranges →
        ({ v with ranges := sels }.edit .unformat).nodes = w.nodes) ∧
      w.edit .unformat = w ∧ w.text = v.text ∧ w.ranges = v.ranges ∧
      ∀ a ∈ v.ranges, TextAt w.nodes a.start ((v.text.take a.stop).drop a.start) := by
  intro v w
  have hranges : v.ranges = [⟨6, 7⟩, ⟨3, 1⟩, ⟨4, 5⟩] := by decide +kernel
  have hwf : WellFormed v.nodes := wellFormed_normalize (wellFormed_parse _)
  have hsep : v.ranges.Pairwise Selection.Apart := by
    rw [hranges]
    simp [Selection.Apart, Selection.start, Selection.stop]
  exact ⟨hranges, by decide +kernel,
    edit_unformat_separate (by decide) (isNormal_normalize _) hwf.voidsEmpty (by decide +kernel)
      hsep⟩

end Canvas

end RichText
