import Mathlib.Data.List.TakeWhile
import Mathlib.Tactic.Lemma
import Mathlib.Tactic.SplitIfs
import RichText.Proofs.Outcomes
import RichText.Selection.Reader

/-!
The ways to write a selection: one offset for a caret, or two with dots between them. An offset has
decimal digits, perhaps a plus sign before them and space around. Reading takes just these texts,
and says of any other which part of it is no offset.
-/

namespace RichText

/-! ### Digits -/

namespace Numeral

lemma push?_ten (n : Nat) (c : Char) :
    push? 10 n c = if c.isDigit = true then some (10 * n + (c.toNat - 48)) else none := by
  rw [push?, digit?]
  by_cases hdigit : c.isDigit = true
  · have hle : c.toNat ≤ 57 := (Char.isDigit_iff_toNat.1 hdigit).2
    have hlt : c.toNat - 48 < 10 := by omega
    rw [if_pos hdigit, if_pos hdigit]
    exact if_pos hlt
  · rw [if_neg hdigit, if_neg hdigit]
    -- a letter is worth ten or more
    split_ifs with hlow hup
    · have hle : 97 ≤ c.toNat := hlow.1
      exact if_neg (by omega)
    · have hle : 65 ≤ c.toNat := hup.1
      exact if_neg (by omega)
    · rfl

lemma readFrom?_ten {n m : Nat} {s : Text} :
    readFrom? 10 n s = some m ↔
      (∀ c ∈ s, c.isDigit = true) ∧ m = Nat.ofDigitChars 10 s n := by
  induction s generalizing n with
  | nil =>
    exact ⟨fun h => ⟨List.forall_mem_nil _, (Option.some.inj h).symm⟩,
      fun h => congrArg some h.2.symm⟩
  | cons c s ih =>
    have hzero : '0'.toNat = 48 := rfl
    rw [readFrom?, push?_ten, List.forall_mem_cons, Nat.ofDigitChars_cons, hzero]
    by_cases hdigit : c.isDigit = true
    · rw [if_pos hdigit, Option.bind_some, ih, and_iff_right hdigit]
    · rw [if_neg hdigit, Option.bind_none]
      exact iff_of_false (Option.some_ne_none m).symm fun h => hdigit h.1.1

lemma read?_ten {n : Nat} {s : Text} :
    read? 10 s = some n ↔
      s ≠ [] ∧ (∀ c ∈ s, c.isDigit = true) ∧ n = Nat.ofDigitChars 10 s 0 := by
  cases s with
  | nil => simp
  | cons c s => rw [read?, readFrom?_ten, and_iff_right (List.cons_ne_nil c s)]

end Numeral

/-! ### Space around -/

namespace Space

lemma isSpace_of_isDigit {c : Char} (h : c.isDigit = true) : isSpace c = false := by
  have hbound : 48 ≤ c.toNat ∧ c.toNat ≤ 57 := Char.isDigit_iff_toNat.1 h
  simp only [isSpace, Bool.or_eq_false_iff, Bool.and_eq_false_iff, decide_eq_false_iff_not,
    beq_eq_false_iff_ne]
  omega

/-- Trimming takes space off both ends and nothing else. -/
lemma trim_append {left s right : Text} (hleft : ∀ c ∈ left, isSpace c = true) (hs : s ≠ [])
    (hinner : ∀ c ∈ s, isSpace c = false) (hright : ∀ c ∈ right, isSpace c = true) :
    trim (left ++ s ++ right) = s := by
  have hstart : trimStart (left ++ s ++ right) = s ++ right := by
    rw [trimStart, List.append_assoc]
    refine dropWhile_append_of_head hleft fun c hc => ?_
    obtain ⟨d, ds, rfl⟩ := List.exists_cons_of_ne_nil hs
    exact hinner c (List.mem_of_mem_head? hc)
  rw [trim, hstart, trimEnd, List.reverse_append,
    dropWhile_append_of_head (fun c hc => hright c (List.mem_reverse.1 hc)), List.reverse_reverse]
  exact fun c hc => hinner c (List.mem_reverse.1 (List.mem_of_mem_head? hc))

lemma exists_trim (s : Text) :
    ∃ left right, s = left ++ trim s ++ right ∧ (∀ c ∈ left, isSpace c = true) ∧
      ∀ c ∈ right, isSpace c = true := by
  have hend : trimStart s =
      trim s ++ ((trimStart s).reverse.takeWhile isSpace).reverse := by
    rw [trim, trimEnd, ← List.reverse_append, List.takeWhile_append_dropWhile, List.reverse_reverse]
  refine ⟨s.takeWhile isSpace, ((trimStart s).reverse.takeWhile isSpace).reverse, ?_,
    fun c hc => List.mem_takeWhile_imp hc, fun c hc => ?_⟩
  · rw [List.append_assoc, ← hend, trimStart, List.takeWhile_append_dropWhile]
  · exact List.mem_takeWhile_imp (List.mem_reverse.1 hc)

end Space

/-! ### Offsets -/

/-- An offset as it is written. -/
structure OffsetText where
  before : Text
  plus : Bool
  digits : Text
  after : Text
  deriving DecidableEq, Repr

namespace OffsetText

def sign (o : OffsetText) : Text := if o.plus then ['+'] else []

def text (o : OffsetText) : Text := o.before ++ (o.sign ++ o.digits) ++ o.after

def value (o : OffsetText) : Nat := Nat.ofDigitChars 10 o.digits 0

/-- There may be zeros in front, as long as the value stays below the limit. -/
structure Allowed (o : OffsetText) : Prop where
  before : ∀ c ∈ o.before, Space.isSpace c = true
  nonempty : o.digits ≠ []
  digits : ∀ c ∈ o.digits, c.isDigit = true
  after : ∀ c ∈ o.after, Space.isSpace c = true
  limit : o.value < offsetLimit

variable {o : OffsetText}

lemma Allowed.trim (h : o.Allowed) : Space.trim o.text = o.sign ++ o.digits := by
  refine Space.trim_append h.before ?_ ?_ h.after
  · exact List.append_ne_nil_of_right_ne_nil _ h.nonempty
  · intro c hc
    rcases List.mem_append.1 hc with hsign | hdigit
    · rw [sign] at hsign
      split at hsign
      · obtain rfl := List.mem_singleton.1 hsign
        rfl
      · cases hsign
    · exact Space.isSpace_of_isDigit (h.digits c hdigit)

end OffsetText

/-- A text is a sign and what follows it. -/
lemma exists_sign (s : Text) :
    ∃ plus digits, s = (if plus then ['+'] else []) ++ digits ∧
      (plus = false → digits.head? ≠ some '+') := by
  by_cases hplus : s.head? = some '+'
  · obtain ⟨r, rfl⟩ := List.head?_eq_some_iff.1 hplus
    exact ⟨true, r, rfl, nofun⟩
  · exact ⟨false, s, rfl, fun _ => hplus⟩

lemma readOffset?_of_trim {s : Text} {plus : Bool} {digits : Text}
    (htrim : Space.trim s = (if plus then ['+'] else []) ++ digits)
    (hplus : plus = false → digits.head? ≠ some '+') :
    readOffset? s = (Numeral.read? 10 digits).filter (· < offsetLimit) := by
  rw [readOffset?, htrim]
  cases plus with
  | true => rfl
  | false =>
    split
    · next r hr => exact absurd (congrArg List.head? hr) (hplus rfl)
    · rfl

/-- **An offset is read** just from the texts that may be written for it. -/
theorem readOffset?_eq_some_iff {s : Text} {n : Nat} :
    readOffset? s = some n ↔ ∃ o : OffsetText, o.Allowed ∧ o.text = s ∧ o.value = n := by
  constructor
  · intro h
    obtain ⟨left, right, hs, hleft, hright⟩ := Space.exists_trim s
    obtain ⟨plus, digits, htrim, hplus⟩ := exists_sign (Space.trim s)
    rw [readOffset?_of_trim htrim hplus, Option.filter_eq_some_iff, Numeral.read?_ten,
      decide_eq_true_eq] at h
    obtain ⟨⟨hne, hdigits, rfl⟩, hlimit⟩ := h
    refine ⟨⟨left, plus, digits, right⟩, ⟨hleft, hne, hdigits, hright, hlimit⟩, ?_, rfl⟩
    rw [hs, htrim]
    rfl
  · rintro ⟨o, ho, rfl, rfl⟩
    have hplus : o.plus = false → o.digits.head? ≠ some '+' := by
      intro _ hhead
      have hdigit := ho.digits '+' (List.mem_of_mem_head? hhead)
      cases hdigit
    rw [readOffset?_of_trim ho.trim hplus, Option.filter_eq_some_iff, Numeral.read?_ten,
      decide_eq_true_eq]
    exact ⟨⟨ho.nonempty, ho.digits, rfl⟩, ho.limit⟩

/-- The numbers below the limit are written in their digits alone. -/
lemma readOffset?_repr {n : Nat} (h : n < offsetLimit) : readOffset? n.repr.toList = some n := by
  have hvalue : Nat.ofDigitChars 10 n.repr.toList 0 = n := by
    rw [Nat.toList_repr, Nat.ofDigitChars_toDigits (by decide) (by decide)]
  have hlimit : Nat.ofDigitChars 10 n.repr.toList 0 < offsetLimit := by rwa [hvalue]
  refine readOffset?_eq_some_iff.2 ⟨⟨[], false, n.repr.toList, []⟩,
    ⟨nofun, ?_, ?_, nofun, hlimit⟩, List.append_nil _, hvalue⟩
  · rw [Nat.toList_repr]
    exact List.ne_nil_of_length_pos Nat.length_toDigits_pos
  · rw [Nat.toList_repr]
    exact fun c hc => Nat.isDigit_of_mem_toDigits (by decide) (by decide) hc

/-! ### Dots -/

def dots : Text := "..".toList

/-- The first dots of a text are between two parts: what is before them may not end in a dot, and
has none of its own. -/
def FirstDots (s left right : Text) : Prop :=
  s = left ++ dots ++ right ∧ ¬dots <:+: left ++ ['.']

lemma not_dots_isPrefix {c : Char} {s : Text} (h : ∀ t, c = '.' → s = '.' :: t → False) :
    ¬dots <+: c :: s := by
  rintro ⟨t, ht⟩
  obtain ⟨rfl, rfl⟩ := List.cons.inj ht
  exact h t rfl rfl

lemma firstDots_cons_iff {c : Char} {s left right : Text} (h : ¬dots <+: c :: s) :
    FirstDots (c :: s) left right ↔ ∃ rest, left = c :: rest ∧ FirstDots s rest right := by
  constructor
  · rintro ⟨hs, hfirst⟩
    cases left with
    | nil => exact absurd ⟨right, hs.symm⟩ h
    | cons d rest =>
      obtain ⟨rfl, rfl⟩ := List.cons.inj hs
      exact ⟨rest, rfl, rfl, fun hrest => hfirst (hrest.trans (List.suffix_cons _ _).isInfix)⟩
  · rintro ⟨rest, rfl, rfl, hfirst⟩
    refine ⟨rfl, fun hin => ?_⟩
    rcases List.infix_cons_iff.1 hin with hhead | hrest
    · -- dots at the front would be at the front of the whole text
      have hfront : rest ++ ['.'] <+: rest ++ dots ++ right :=
        ⟨'.' :: right, by simp [dots]⟩
      exact h (hhead.trans ((List.prefix_cons_inj c).2 hfront))
    · exact hfirst hrest

lemma firstDots_dots_iff {s left right : Text} :
    FirstDots ('.' :: '.' :: s) left right ↔ left = [] ∧ right = s := by
  constructor
  · rintro ⟨hs, hfirst⟩
    cases left with
    | nil =>
      have hsame : dots ++ s = dots ++ right := hs
      exact ⟨rfl, (List.append_cancel_left hsame).symm⟩
    | cons c rest =>
      obtain ⟨rfl, hrest⟩ := List.cons.inj hs
      refine absurd (List.IsPrefix.isInfix ?_) hfirst
      cases rest with
      | nil => exact List.prefix_refl dots
      | cons d rest =>
        obtain ⟨rfl, -⟩ := List.cons.inj hrest
        exact List.prefix_append dots (rest ++ ['.'])
  · rintro ⟨rfl, rfl⟩
    exact ⟨rfl, by decide⟩

/-- **A text is split** at its first dots. -/
lemma splitDots?_eq_some_iff {s left right : Text} :
    splitDots? s = some (left, right) ↔ FirstDots s left right := by
  fun_induction splitDots? s generalizing left right with
  | case1 => exact ⟨nofun, fun h => absurd h.1 (by simp [dots])⟩
  | case2 s =>
    rw [firstDots_dots_iff, Option.some.injEq, Prod.mk.injEq, @eq_comm _ [], @eq_comm _ s]
  | case3 c s hdots ih =>
    rw [firstDots_cons_iff (not_dots_isPrefix hdots), Option.map_eq_some_iff]
    constructor
    · rintro ⟨⟨rest, behind⟩, hsplit, hpair⟩
      obtain ⟨rfl, rfl⟩ := Prod.mk.inj hpair
      exact ⟨rest, rfl, ih.1 hsplit⟩
    · rintro ⟨rest, rfl, hrest⟩
      exact ⟨(rest, right), ih.2 hrest, rfl⟩

/-- A text with dots in it has first ones. -/
lemma splitDots?_eq_none_iff {s : Text} : splitDots? s = none ↔ ¬dots <:+: s := by
  fun_induction splitDots? s with
  | case1 => simp [dots]
  | case2 s => exact ⟨nofun, fun h => absurd (List.prefix_append dots s).isInfix h⟩
  | case3 c s hdots ih =>
    rw [Option.map_eq_none_iff, ih, List.infix_cons_iff, or_iff_right (not_dots_isPrefix hdots)]

/-! ### Selections -/

/-- A selection as it is written. -/
inductive SelectionText where
  | caret (o : OffsetText)
  | range (anchor focus : OffsetText)
  deriving DecidableEq, Repr

namespace SelectionText

def text : SelectionText → Text
  | caret o => o.text
  | range anchor focus => anchor.text ++ dots ++ focus.text

/-- The selection that is meant. A range may go backward. -/
def meant : SelectionText → Selection
  | caret o => .caret o.value
  | range anchor focus => ⟨anchor.value, focus.value⟩

def Allowed : SelectionText → Prop
  | caret o => o.Allowed
  | range anchor focus => anchor.Allowed ∧ focus.Allowed

end SelectionText

def IsOffset (s : Text) : Prop := ∃ o : OffsetText, o.Allowed ∧ o.text = s

/-- What is wrong in a text: all of it if it has no dots, otherwise what is before the first dots,
or what is behind them if that before them is an offset. -/
inductive Fault (s : Text) : Text → Prop
  | whole (hdots : ¬dots <:+: s) (hs : ¬IsOffset s) : Fault s s
  | before {left right : Text} (hdots : FirstDots s left right) (hleft : ¬IsOffset left) :
    Fault s left
  | behind {left right : Text} (hdots : FirstDots s left right) (hleft : IsOffset left)
    (hright : ¬IsOffset right) : Fault s right

lemma isOffset_iff {s : Text} : IsOffset s ↔ ∃ n, readOffset? s = some n := by
  constructor
  · rintro ⟨o, ho, hs⟩
    exact ⟨o.value, readOffset?_eq_some_iff.2 ⟨o, ho, hs, rfl⟩⟩
  · rintro ⟨n, hn⟩
    obtain ⟨o, ho, hs, -⟩ := readOffset?_eq_some_iff.1 hn
    exact ⟨o, ho, hs⟩

lemma not_isOffset_iff {s : Text} : ¬IsOffset s ↔ readOffset? s = none := by
  rw [isOffset_iff, ← Option.isSome_iff_exists, Option.not_isSome_iff_eq_none]

namespace OffsetText

variable {o : OffsetText}

lemma Allowed.dot_notMem (h : o.Allowed) : '.' ∉ o.text := by
  have hspace : Space.isSpace '.' ≠ true := by decide
  have hdigit : '.'.isDigit ≠ true := by decide
  have hsign : '.' ∉ o.sign := by
    rw [sign]
    split <;> decide
  rw [text, List.mem_append, List.mem_append, List.mem_append]
  rintro ((hin | hin | hin) | hin)
  · exact hspace (h.before _ hin)
  · exact hsign hin
  · exact hdigit (h.digits _ hin)
  · exact hspace (h.after _ hin)

lemma Allowed.not_dots (h : o.Allowed) : ¬dots <:+: o.text := fun hin =>
  h.dot_notMem (hin.subset List.mem_cons_self)

lemma Allowed.firstDots (h : o.Allowed) (right : Text) :
    FirstDots (o.text ++ dots ++ right) o.text right := by
  refine ⟨rfl, fun hin => ?_⟩
  -- dots are two, and only one stands there
  have hcount : 2 ≤ (o.text ++ ['.']).count '.' := hin.sublist.count_le '.'
  rw [List.count_append, List.count_eq_zero_of_not_mem h.dot_notMem] at hcount
  exact absurd hcount (by decide)

end OffsetText

namespace Selection

variable {s left right : Text}

lemma read_of_not_dots (h : ¬dots <:+: s) :
    read s = (readOffset? s).elim (.error s) fun offset => .ok (caret offset) := by
  rw [read, splitDots?_eq_none_iff.2 h]
  cases readOffset? s <;> rfl

lemma read_of_firstDots (h : FirstDots s left right) :
    read s = (readOffset? left).elim (.error left) fun anchor =>
      (readOffset? right).elim (.error right) fun focus => .ok ⟨anchor, focus⟩ := by
  rw [read, splitDots?_eq_some_iff.2 h]
  dsimp only
  cases readOffset? left with
  | none => rfl
  | some anchor => cases readOffset? right <;> rfl

lemma exists_firstDots (h : dots <:+: s) : ∃ left right, FirstDots s left right := by
  have hsome : splitDots? s ≠ none := fun hnone => splitDots?_eq_none_iff.1 hnone h
  obtain ⟨⟨left, right⟩, hsplit⟩ := Option.ne_none_iff_exists'.1 hsome
  exact ⟨left, right, splitDots?_eq_some_iff.1 hsplit⟩

/-- What is written is read as it is meant. -/
lemma read_text {w : SelectionText} (h : w.Allowed) : read w.text = .ok w.meant := by
  cases w with
  | caret o =>
    have hoffset : readOffset? o.text = some o.value := readOffset?_eq_some_iff.2 ⟨o, h, rfl, rfl⟩
    rw [SelectionText.text, read_of_not_dots h.not_dots, hoffset]
    rfl
  | range anchor focus =>
    obtain ⟨hanchor, hfocus⟩ := h
    have hleft : readOffset? anchor.text = some anchor.value :=
      readOffset?_eq_some_iff.2 ⟨anchor, hanchor, rfl, rfl⟩
    have hright : readOffset? focus.text = some focus.value :=
      readOffset?_eq_some_iff.2 ⟨focus, hfocus, rfl, rfl⟩
    rw [SelectionText.text, read_of_firstDots (hanchor.firstDots focus.text), hleft, hright]
    rfl

/-- A text with no fault is one that may be written. -/
lemma exists_text_or_fault (s : Text) :
    (∃ w : SelectionText, w.Allowed ∧ w.text = s) ∨ ∃ part, Fault s part := by
  by_cases hdots : dots <:+: s
  · obtain ⟨left, right, hfirst⟩ := exists_firstDots hdots
    by_cases hleft : IsOffset left
    · by_cases hright : IsOffset right
      · obtain ⟨anchor, hanchor, rfl⟩ := hleft
        obtain ⟨focus, hfocus, rfl⟩ := hright
        exact .inl ⟨.range anchor focus, ⟨hanchor, hfocus⟩, hfirst.1.symm⟩
      · exact .inr ⟨right, .behind hfirst hleft hright⟩
    · exact .inr ⟨left, .before hfirst hleft⟩
  · by_cases hs : IsOffset s
    · obtain ⟨o, ho, rfl⟩ := hs
      exact .inl ⟨.caret o, ho, rfl⟩
    · exact .inr ⟨s, .whole hdots hs⟩

lemma read_of_fault {part : Text} (h : Fault s part) : read s = .error part := by
  cases h with
  | whole hdots hs => rw [read_of_not_dots hdots, not_isOffset_iff.1 hs, Option.elim_none]
  | before hdots hleft =>
    rw [read_of_firstDots hdots, not_isOffset_iff.1 hleft, Option.elim_none]
  | behind hdots hleft hright =>
    obtain ⟨anchor, hanchor⟩ := isOffset_iff.1 hleft
    rw [read_of_firstDots hdots, hanchor, not_isOffset_iff.1 hright, Option.elim_some,
      Option.elim_none]

/-- A text is read as what may be written so, or quoted in part. -/
lemma read_iff (s : Text) :
    (∀ sel, read s = .ok sel ↔ ∃ w : SelectionText, w.Allowed ∧ w.text = s ∧ w.meant = sel) ∧
      ∀ part, read s = .error part ↔ Fault s part := by
  refine outcome_iff_of_total ?_ (fun part => read_of_fault) ?_
  · rintro sel ⟨w, hw, rfl, rfl⟩
    exact read_text hw
  · rcases exists_text_or_fault s with ⟨w, hw, hs⟩ | hfault
    · exact .inl ⟨w.meant, w, hw, hs, rfl⟩
    · exact .inr hfault

/-- **Reading a selection** takes just what may be written for one, as it is meant, the numbers in
their plain digits among it. Of any other text it quotes the part that is at fault, as it stands. -/
theorem read_eq_iff :
    (∀ s sel, read s = .ok sel ↔
        ∃ w : SelectionText, w.Allowed ∧ w.text = s ∧ w.meant = sel) ∧
      (∀ s message, (read s).mapError readMessage = .error message ↔
        ∃ part, Fault s part ∧
          message = "`" ++ String.ofList part ++ "` is not a char offset") ∧
      ∀ a b, a < offsetLimit → b < offsetLimit →
        read (a.repr.toList ++ dots ++ b.repr.toList) = .ok ⟨a, b⟩ := by
  refine ⟨fun s => (read_iff s).1, fun s message => ?_, fun a b ha hb => ?_⟩
  · simp only [mapError_eq_error, (read_iff s).2, readMessage, @eq_comm _ message]
  · obtain ⟨anchor, hanchor, htext, hvalue⟩ := readOffset?_eq_some_iff.1 (readOffset?_repr ha)
    obtain ⟨focus, hfocus, htext', hvalue'⟩ := readOffset?_eq_some_iff.1 (readOffset?_repr hb)
    have hread : read (SelectionText.range anchor focus).text = .ok ⟨anchor.value, focus.value⟩ :=
      read_text ⟨hanchor, hfocus⟩
    rwa [SelectionText.text, htext, htext', hvalue, hvalue'] at hread

/-- The greatest offset, with a sign, zeros in front and space around; one more is too many. Of
three dots the first two divide a text. -/
theorem read_eq_iff_limit :
    read "\u00a0+007..0018446744073709551615 ".toList = .ok ⟨7, 18446744073709551615⟩ ∧
      (read " 18446744073709551616".toList).mapError readMessage =
        .error "` 18446744073709551616` is not a char offset" ∧
      (read "3...5".toList).mapError readMessage = .error "`.5` is not a char offset" ∧
      (9 < offsetLimit ∧ 3 < offsetLimit) ∧
      read ((Nat.repr 9).toList ++ dots ++ (Nat.repr 3).toList) = .ok ⟨9, 3⟩ := by
  obtain ⟨hok, herror, hdigits⟩ := read_eq_iff
  have hrange : (SelectionText.range ⟨['\u00a0'], true, "007".toList, []⟩
      ⟨[], false, "0018446744073709551615".toList, [' ']⟩).Allowed :=
    ⟨⟨List.all_eq_true.1 rfl, by decide, List.all_eq_true.1 rfl, nofun, by decide +kernel⟩,
      ⟨nofun, by decide, List.all_eq_true.1 rfl, List.all_eq_true.1 rfl, by decide +kernel⟩⟩
  have hlimit : Fault " 18446744073709551616".toList " 18446744073709551616".toList :=
    .whole (by decide +kernel) (not_isOffset_iff.2 (by decide +kernel))
  have hthree : IsOffset ['3'] := isOffset_iff.2 ⟨3, by decide +kernel⟩
  have hdots : Fault "3...5".toList ".5".toList :=
    .behind ⟨by decide +kernel, by decide⟩ hthree (not_isOffset_iff.2 (by decide +kernel))
  have hnine : 9 < offsetLimit := by decide
  have hless : 3 < offsetLimit := by decide
  exact ⟨(hok _ _).2 ⟨_, hrange, by decide +kernel, by decide +kernel⟩,
    (herror _ _).2 ⟨_, hlimit, by decide +kernel⟩, (herror _ _).2 ⟨_, hdots, by decide +kernel⟩,
    ⟨hnine, hless⟩, hdigits 9 3 hnine hless⟩

end Selection

end RichText
