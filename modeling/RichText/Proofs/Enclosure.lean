import Mathlib.Tactic.Lemma
import RichText.Proofs.Conservation
import RichText.Proofs.Leaves
import RichText.Proofs.Survival

/-!
What is around a text whose formatting was taken away. The outer span passes over the tags of the
elements that begin or end at the selection, so that no element is around the text afterwards but
those that were around the characters at both of its sides.
-/

namespace RichText

open Boundary

/-! ### Texts -/

/-- A text of a document has the characters `s`, the first of which has a number in the document. -/
def TextAt (ns : List Node) (start : Nat) (s : Text) : Prop :=
  ∃ (p : Place) (before after : Text), p.Open ∧ ns = p.fill [.text (before ++ s ++ after)] ∧
    (p.textBefore ++ before).length = start

lemma textAt_of_tokens_eq {ns : List Node} (h : IsNormal ns) (hvoids : VoidsEmpty ns)
    {us ws : List Token} {s : Text} (hs : s ≠ [])
    (htokens : tokens ns = us ++ (s.map .char ++ ws)) : TextAt ns (charsOf us).length s := by
  obtain ⟨p, before, after, hp, rfl, rfl⟩ := Place.textBehind_of_tokens_eq h hs htokens
  refine ⟨p, before, after, hp, rfl, ?_⟩
  rw [charsOf_append, Place.charsOf_tokensBefore hvoids, charsOf_map_char]

/-! ### Ends of the outer span -/

lemma of_lt_length_takeWhile {α : Type} {p : α → Bool} {l : List α} {x : α} {i : Nat}
    (hx : l[i]? = some x) (hi : i < (l.takeWhile p).length) : p x = true := by
  obtain ⟨rest, hrest⟩ := List.takeWhile_prefix p (l := l)
  rw [← hrest, List.getElem?_append_left hi] at hx
  exact List.all_eq_true.1 List.all_takeWhile x (List.mem_of_getElem? hx)

namespace Boundary

variable {ts : List Token} {t : Token} {n i : Nat}

/-- **The outer start** passes over no start tags. -/
lemma outerStart_le_iff_of_start (hn : n ≤ (charsOf ts).length) (ht : ts[i]? = some t)
    (hstart : t.isStart = true) : outerStart n ts ≤ i ↔ n ≤ offset ts i := by
  refine ⟨fun h => ?_, fun h => Nat.not_lt.1 fun hlt => ?_⟩
  · have := offset_mono ts h
    rw [offset_outerStart] at this
    omega
  · have hfirst := (first_le_iff hn).2 h
    have hget : (ts.drop (first n ts))[i - first n ts]? = some t := by
      rw [List.getElem?_drop, Nat.add_sub_cancel' hfirst, ht]
    rw [outerStart] at hlt
    have hpassed := of_lt_length_takeWhile hget (p := fun t => t.isStop || t.isLeaf) (by omega)
    cases t with
    | start tag => cases hpassed
    | _ => cases hstart

/-- **The outer stop** passes over no end tags. -/
lemma lt_outerStop_iff_of_stop (ht : ts[i]? = some .stop) :
    i < outerStop n ts ↔ offset ts i ≤ n := by
  have hi := (List.getElem?_eq_some_iff.1 ht).1
  refine ⟨fun h => ?_, fun h => Nat.not_le.1 fun hle => ?_⟩
  · have := offset_mono ts (Nat.le_of_lt h)
    rw [offset_outerStop] at this
    omega
  · have hlast : i + 1 ≤ last n ts := by
      rw [le_last_iff hi, offset_succ ht]
      exact h
    have hlen : (ts.take (last n ts)).length = last n ts := by
      rw [List.length_take, Nat.min_eq_left (last_le n ts)]
    have hget : (ts.take (last n ts)).reverse[last n ts - 1 - i]? = some .stop := by
      rw [List.getElem?_reverse (by omega), hlen, List.getElem?_take_of_lt (by omega), ← ht]
      congr 1
      omega
    rw [outerStop] at hle
    have hpassed := of_lt_length_takeWhile hget (p := fun t => t.isStart || t.isLeaf) (by omega)
    cases hpassed

end Boundary

/-! ### Around a character -/

/-- A part is around the character with a number if that is between its ends. -/
def Part.Around (x : Part) (ts : List Token) (k : Nat) : Prop :=
  offset ts x.begins ≤ k ∧ k < offset ts x.ends

namespace Part

variable {x y : Part} {ts : List Token} {k : Nat}

/-- Only elements are around anything. -/
lemma Around.begins_lt (h : x.Around ts k) : x.begins < x.ends :=
  lt_of_offset_lt (Nat.lt_of_le_of_lt h.1 h.2)

/-- **To be around** a character of the text is to enclose it. -/
theorem around_iff_encloses (hx : x.In ts) (hy : y.In ts) {c : Char} (hc : y.token = .char c) :
    x.Around ts (offset ts y.begins) ↔ x.Encloses y := by
  have hget := hy.getElem?
  rw [hc] at hget
  have hnext := offset_succ hget
  have hends : y.ends = y.begins := hy.ends_eq (by rw [hc]; rfl)
  rw [charsOf_char, charsOf_nil, List.length_singleton] at hnext
  refine ⟨fun h => ?_, fun h => ?_⟩
  · have hlt : y.begins < x.ends := lt_of_offset_lt h.2
    have hnumber : offset ts x.begins < offset ts (y.begins + 1) :=
      hnext ▸ Nat.lt_succ_of_le h.1
    have hle : x.begins ≤ y.begins := Nat.le_of_lt_succ (lt_of_offset_lt hnumber)
    refine ⟨Nat.lt_of_le_of_ne hle fun heq => ?_, hends ▸ hlt⟩
    -- it would be the character itself
    obtain rfl := hx.eq_of_begins hy heq
    omega
  · have hbefore := offset_mono ts (Nat.le_of_lt h.1)
    have hbehind := offset_mono ts (show y.begins + 1 ≤ x.ends by have := h.2; omega)
    exact ⟨hbefore, by omega⟩

/-- All characters of an element are in a stretch of the text just if its ends are. -/
lemma Around.forall_iff (h : x.Around ts k) {start stop : Nat} :
    (∀ j, x.Around ts j → start ≤ j ∧ j < stop) ↔
      start ≤ offset ts x.begins ∧ offset ts x.ends ≤ stop := by
  have hlt := Nat.lt_of_le_of_lt h.1 h.2
  refine ⟨fun hall => ?_, fun hends j hj => ?_⟩
  · have hfirst := hall (offset ts x.begins) ⟨Nat.le_refl _, hlt⟩
    have hlast := hall (offset ts x.ends - 1) ⟨by omega, by omega⟩
    omega
  · have := hj.1
    have := hj.2
    omega

end Part

/-! ### What the outer span holds -/

section Outer

variable {x : Part} {sel : Selection} {ts : List Token} {k : Nat}

/-- **The outer span holds** an element if it begins and ends at the selected characters. -/
lemma holds_outer_iff (hlt : min sel.start (charsOf ts).length < min sel.stop (charsOf ts).length)
    (hx : x.In ts) (htags : x.begins < x.ends) :
    (sel.span .outer ts).Holds x ↔
      min sel.start (charsOf ts).length ≤ offset ts x.begins ∧
        offset ts x.ends ≤ min sel.stop (charsOf ts).length := by
  obtain ⟨hstart, hstop⟩ := hx.tags htags
  rw [(span_of_lt hlt).2, Span.Holds]
  exact and_congr (outerStart_le_iff_of_start (Nat.min_le_right _ _) hx.getElem? hstart)
    (lt_outerStop_iff_of_stop hstop)

/-- An element with a text is in the outer span if all of its text is selected. -/
lemma Part.Around.holds_outer_iff (h : x.Around ts k) (hx : x.In ts) :
    (sel.span .outer ts).Holds x ↔ ∀ j, x.Around ts j →
      min sel.start (charsOf ts).length ≤ j ∧ j < min sel.stop (charsOf ts).length := by
  rcases Nat.lt_or_ge (min sel.start (charsOf ts).length) (min sel.stop (charsOf ts).length) with
    hlt | hge
  · rw [RichText.holds_outer_iff hlt hx h.begins_lt, h.forall_iff]
  · -- at a caret the span is empty
    rw [span_of_le _ hge, Span.Holds]
    have hends := h.begins_lt
    refine iff_of_false (fun hin => ?_) fun hall => ?_
    · exact absurd (Nat.lt_of_le_of_lt hin.1 (Nat.lt_trans hends hin.2)) (Nat.lt_irrefl _)
    · have := hall k h
      omega

/-- What reaches over both ends of the outer span is around the characters next to the selection. -/
lemma Part.around_outer_iff
    (hlt : min sel.start (charsOf ts).length < min sel.stop (charsOf ts).length) (hx : x.In ts) :
    x.begins < (sel.span .outer ts).start ∧ (sel.span .outer ts).stop ≤ x.ends ↔
      (∃ j, j + 1 = min sel.start (charsOf ts).length ∧ x.Around ts j) ∧
        x.Around ts (min sel.stop (charsOf ts).length) := by
  obtain ⟨hstart, hstop⟩ := offset_span sel .outer ts
  refine ⟨fun ⟨hbegins, hends⟩ => ?_, fun ⟨⟨j, hj, hfirst⟩, hlast⟩ => ?_⟩
  · have htags : x.begins < x.ends := by
      have := span_start_le_stop sel .outer ts
      omega
    obtain ⟨hstart', hstop'⟩ := hx.tags htags
    rw [(span_of_lt hlt).2] at hbegins hends
    have hbefore : offset ts x.begins < min sel.start (charsOf ts).length := by
      rw [← Nat.not_le, ← outerStart_le_iff_of_start (Nat.min_le_right _ _) hx.getElem? hstart']
      exact Nat.not_le.2 hbegins
    have hbehind : min sel.stop (charsOf ts).length < offset ts x.ends := by
      rw [← Nat.not_le, ← lt_outerStop_iff_of_stop hstop']
      exact Nat.not_lt.2 hends
    exact ⟨⟨min sel.start (charsOf ts).length - 1, by omega, by omega, by omega⟩,
      by omega, hbehind⟩
  · have hbefore : offset ts x.begins < offset ts (sel.span .outer ts).start := by
      have := hfirst.1
      omega
    have hbehind : offset ts (sel.span .outer ts).stop < offset ts x.ends := hstop.symm ▸ hlast.2
    exact ⟨lt_of_offset_lt hbefore, Nat.le_of_lt (lt_of_offset_lt hbehind)⟩

/-- Where characters stand between two rows, what has its ends in these is around the characters if
it begins before and ends behind them. -/
lemma Part.around_iff_of_sides {us ws : List Token} {s : Text}
    (hts : ts = us ++ (s.map .char ++ ws))
    (hbegins : x.begins < us.length ∨ us.length + s.length ≤ x.begins)
    (hends : x.ends < us.length ∨ us.length + s.length ≤ x.ends)
    (hk : (charsOf us).length ≤ k) (hk' : k < (charsOf us).length + s.length) :
    x.Around ts k ↔ x.begins < us.length ∧ us.length + s.length ≤ x.ends := by
  have hfirst : offset ts us.length = (charsOf us).length := by
    rw [hts, offset, List.take_left]
  have hlast : offset ts (us.length + s.length) = (charsOf us).length + s.length := by
    have hlen : us.length + s.length = (us ++ s.map Token.char).length := by simp
    rw [hts, ← List.append_assoc, offset, hlen, List.take_left, charsOf_append, charsOf_map_char,
      List.length_append]
  constructor
  · intro h
    refine ⟨hbegins.resolve_right fun hge => ?_, hends.resolve_left fun hlt => ?_⟩
    · have := offset_mono ts hge
      have := h.1
      omega
    · have := offset_mono ts (Nat.le_of_lt hlt)
      have := h.2
      omega
  · rintro ⟨hlt, hge⟩
    have hbefore := offset_mono ts (Nat.le_of_lt hlt)
    have hbehind := offset_mono ts hge
    exact ⟨by omega, by omega⟩

end Outer

/-! ### Taking away formatting -/

lemma tokens_normalize_text (s : Text) : tokens (normalize [.text s]) = s.map .char := by
  rw [normalize_text, tokens_consText]
  exact List.append_nil _

lemma tokens_replaceSelected_text {ns : List Node} (h : IsNormal ns) (sel : Selection)
    (reach : Reach) (s : Text) :
    tokens (replaceSelected ns sel reach [.text s]).nodes =
      (sel.span reach (tokens ns)).keptBefore (tokens ns) ++
        (s.map .char ++ (sel.span reach (tokens ns)).keptAfter (tokens ns)) := by
  rw [tokens_replaceSelected_of_isNormal h, tokens_normalize_text, List.append_assoc]

/-- **A text that is put in** stays in one, where the selection began. -/
lemma textAt_replaceSelected {ns : List Node} (h : IsNormal ns) (hvoids : VoidsEmpty ns)
    (sel : Selection) (reach : Reach) {s : Text} (hs : s ≠ []) :
    TextAt (replaceSelected ns sel reach [.text s]).nodes
      (min sel.start (plainText ns).length) s := by
  have hres := voidsEmpty_replaceSelected hvoids (wellFormed_textNode s).voidsEmpty sel reach
  have htext := textAt_of_tokens_eq (isNormal_replaceSelected _ _ _ _) hres hs
    (tokens_replaceSelected_text h sel reach s)
  rwa [charsOf_keptBefore, List.length_take, charsOf_tokens hvoids] at htext

/-- No part of a text is around anything. -/
lemma Part.begins_eq_ends_of_text {s : Text} {y : Part} (hy : y ∈ parts (normalize [.text s])) :
    y.begins = y.ends := by
  rw [mem_parts_iff, tokens_normalize_text] at hy
  obtain ⟨c, -, hc⟩ := List.mem_map.1 (List.mem_of_getElem? hy.getElem?)
  exact (hy.ends_eq (by rw [← hc]; rfl)).symm

/-- **A text in place of the outer span** is in the elements that were around the characters on both
sides of the span. -/
theorem exists_exchange_outer {ns : List Node} (h : IsNormal ns) (sel : Selection) {s : Text}
    {ts : List Token} (hts : tokens ns = ts) {start stop : Nat}
    (hstart : min sel.start (charsOf ts).length = start)
    (hstop : min sel.stop (charsOf ts).length = stop) (hlen : start + s.length = stop) :
    let res := (replaceSelected ns sel .outer [.text s]).nodes
    ∃ (place : Nat) (move : Nat → Nat),
      Exchange ns (sel.span .outer ts).Holds (normalize [.text s]) place move res ∧
        ∀ z ∈ parts res, ∀ k, start ≤ k → k < stop →
          (z.Around (tokens res) k ↔ ∃ x ∈ parts ns, z = x.map move ∧
            (∃ j, j + 1 = start ∧ x.Around ts j) ∧ x.Around ts stop) := by
  intro res
  obtain ⟨move, hex, hsides⟩ := exists_exchange h sel .outer [.text s] (congrArg _ hts) rfl
  refine ⟨_, move, hex, fun z hz k hk hk' => ?_⟩
  have hrow : tokens res = (sel.span .outer ts).keptBefore ts ++
      (s.map .char ++ (sel.span .outer ts).keptAfter ts) := by
    rw [← hts]
    exact tokens_replaceSelected_text h sel .outer s
  have hplace := Span.length_keptBefore (span_start_le_length sel .outer ts)
  have hchars : (charsOf ((sel.span .outer ts).keptBefore ts)).length = start := by
    rw [charsOf_keptBefore, List.length_take, hstart]
  have hlt : min sel.start (charsOf ts).length < min sel.stop (charsOf ts).length := by omega
  rw [tokens_normalize_text, List.length_map, hts, ← hplace] at hsides
  have hsurvivor {x : Part} (hx : x ∈ parts ns) (hout : ¬(sel.span .outer ts).Holds x) :
      (x.map move).Around (tokens res) k ↔
        (∃ j, j + 1 = start ∧ x.Around ts j) ∧ x.Around ts stop := by
    have hside := hsides x hx hout
    rw [Part.around_iff_of_sides hrow (hside.1.imp And.right And.right)
      (hside.2.imp And.right And.right) (by omega) (by omega)]
    rw [mem_parts_iff, hts] at hx
    rw [← hstart, ← hstop, ← Part.around_outer_iff hlt hx, Part.begins_map, Part.ends_map]
    omega
  refine ⟨fun haround => ?_, ?_⟩
  · rcases (hex.mem_parts_iff z).1 hz with ⟨x, hx, hout, rfl⟩ | ⟨y, hy, rfl⟩
    · exact ⟨x, hx, rfl, (hsurvivor hx hout).1 haround⟩
    · have heq := Part.begins_eq_ends_of_text hy
      have hends := haround.begins_lt
      rw [Part.begins_map, Part.ends_map, heq] at hends
      exact absurd hends (Nat.lt_irrefl _)
  · rintro ⟨x, hx, rfl, hfirst, hlast⟩
    -- the character behind the selection is not selected
    refine (hsurvivor hx fun hin => ?_).2 ⟨hfirst, hlast⟩
    rw [mem_parts_iff, hts] at hx
    have := (hlast.holds_outer_iff hx).1 hin _ hlast
    omega

namespace Canvas

variable {v : Canvas} {sel : Selection}

/-- **Taking away formatting** makes the selected text a part of one text. The elements that had
nothing but selected characters are gone, and around the text are just those that were around the
characters on both sides of it. -/
theorem around_edit_unformat (hnormal : IsNormal v.nodes) (hvoids : VoidsEmpty v.nodes)
    (hhost : v.host.interface ≠ .unavailable) (hsel : v.primary? = some sel)
    (hsingle : v.host.interface = .range → v.ranges = [sel]) (hcaret : sel.isCaret = false) :
    let ts := tokens v.nodes
    let w := v.edit .unformat
    let start := min sel.start v.length
    let stop := min sel.stop v.length
    w.text = v.text ∧
      (start < stop → TextAt w.nodes start ((v.text.take stop).drop start)) ∧
      ∃ (place : Nat) (move : Nat → Nat),
        Exchange v.nodes (sel.span .outer ts).Holds (normalize [.text (v.textIn sel)]) place move
          w.nodes ∧
        (∀ x ∈ parts v.nodes, ∀ k, x.Around ts k →
          ((sel.span .outer ts).Holds x ↔ ∀ j, x.Around ts j → start ≤ j ∧ j < stop)) ∧
        ∀ z ∈ parts w.nodes, ∀ k, start ≤ k → k < stop →
          (z.Around (tokens w.nodes) k ↔ ∃ x ∈ parts v.nodes, z = x.map move ∧
            (∃ j, j + 1 = start ∧ x.Around ts j) ∧ x.Around ts stop) := by
  intro ts w start stop
  have hlength : (charsOf ts).length = v.length := by rw [charsOf_tokens hvoids, length, text]
  have hslice := textIn_eq_slice hvoids sel
  have hnodes : w.nodes = (replaceSelected v.nodes sel .outer [.text (v.textIn sel)]).nodes :=
    nodes_edit_unformat hhost hsel hsingle hcaret
  have hstart : min sel.start (charsOf ts).length = start := congrArg _ hlength
  have hstop : min sel.stop (charsOf ts).length = stop := congrArg _ hlength
  have hle : start ≤ stop := by
    have := sel.start_le_stop
    omega
  have hlen : start + (v.textIn sel).length = stop := by
    rw [hslice, List.length_drop, List.length_take]
    have : stop ≤ v.text.length := Nat.min_le_right _ _
    omega
  obtain ⟨place, move, hex, haround⟩ := exists_exchange_outer hnormal sel rfl hstart hstop hlen
  refine ⟨text_edit_unformat hvoids, fun hlt => ?_, place, move, ?_, fun x hx k hk => ?_, ?_⟩
  · rw [hnodes, ← hslice]
    refine textAt_replaceSelected hnormal hvoids sel .outer fun hnil => ?_
    rw [hnil, List.length_nil] at hlen
    omega
  · rw [hnodes]
    exact hex
  · rw [hk.holds_outer_iff (mem_parts_iff.1 hx), hstart, hstop]
  · rw [hnodes]
    exact haround

/-- A backward selection that cuts two elements and has two others as a whole: the paragraph alone
stays around its text. -/
theorem around_edit_unformat_paragraph :
    let v := (ofMarkup "<p>a<b>bc<i>de</i></b><u><s>f</s>g</u></p>h".toList .modern).select
      (some ⟨6, 2⟩)
    let sel : Selection := ⟨6, 2⟩
    let ts := tokens v.nodes
    let w := v.edit .unformat
    let start := min sel.start v.length
    let stop := min sel.stop v.length
    start < stop ∧ w.markup = "<p>a<b>b</b>cdef<u>g</u></p>h".toList ∧
      w.text = v.text ∧
      (start < stop → TextAt w.nodes start ((v.text.take stop).drop start)) ∧
      ∃ (place : Nat) (move : Nat → Nat),
        Exchange v.nodes (sel.span .outer ts).Holds (normalize [.text (v.textIn sel)]) place move
          w.nodes ∧
        (∀ x ∈ parts v.nodes, ∀ k, x.Around ts k →
          ((sel.span .outer ts).Holds x ↔ ∀ j, x.Around ts j → start ≤ j ∧ j < stop)) ∧
        ∀ z ∈ parts w.nodes, ∀ k, start ≤ k → k < stop →
          (z.Around (tokens w.nodes) k ↔ ∃ x ∈ parts v.nodes, z = x.map move ∧
            (∃ j, j + 1 = start ∧ x.Around ts j) ∧ x.Around ts stop) := by
  intro v sel ts w start stop
  have hwf : WellFormed v.nodes := wellFormed_normalize (wellFormed_parse _)
  exact ⟨by decide +kernel, by decide +kernel,
    around_edit_unformat (isNormal_normalize _) hwf.voidsEmpty (by decide) (by decide +kernel)
      (fun _ => by decide +kernel) (by decide)⟩

end Canvas

end RichText
