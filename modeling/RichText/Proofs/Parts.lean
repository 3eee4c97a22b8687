import Mathlib.Data.List.Basic
import Mathlib.Order.Monotone.Basic
import Mathlib.Tactic.Lemma
import RichText.Proofs.Balance

/-!
The parts of a document are its characters, its leaves and its elements. Each is known by the places
in the row at which it begins and ends. In the row an element ends where what is behind its start
tag is balanced for the first time, so that putting a balanced row into another keeps the parts of
both, moved on by what was put in before them.
-/

namespace RichText

/-- The token that a part begins with, and the places of its first and of its last token. -/
structure Part where
  token : Token
  begins : Nat
  ends : Nat
  deriving DecidableEq, Repr

namespace Part

/-- The part in a row in which its tokens have other places. -/
def map (f : Nat → Nat) (x : Part) : Part := ⟨x.token, f x.begins, f x.ends⟩

@[simp] lemma token_map (f : Nat → Nat) (x : Part) : (x.map f).token = x.token := rfl
@[simp] lemma begins_map (f : Nat → Nat) (x : Part) : (x.map f).begins = f x.begins := rfl
@[simp] lemma ends_map (f : Nat → Nat) (x : Part) : (x.map f).ends = f x.ends := rfl
@[simp] lemma map_map (f g : Nat → Nat) (x : Part) : (x.map f).map g = x.map (g ∘ f) := rfl

def Encloses (x y : Part) : Prop := x.begins < y.begins ∧ y.ends < x.ends

end Part

/-! ### Parts of a document -/

mutual

def Node.partsFrom (i : Nat) : Node → List Part
  | .text s => (s.zipIdx i).map fun ck => ⟨.char ck.1, ck.2, ck.2⟩
  | .comment s => [⟨.leaf (.comment s), i, i⟩]
  | .element tag inside =>
    if tag.isVoid then [⟨.leaf (.element tag inside), i, i⟩]
    else ⟨.start tag, i, i + (tokens inside).length + 1⟩ :: partsFrom (i + 1) inside

/-- The parts of nodes whose row begins at a place, in the order in which they begin. -/
def partsFrom (i : Nat) : List Node → List Part
  | [] => []
  | n :: ns => n.partsFrom i ++ partsFrom (i + n.tokens.length) ns

end

def parts (ns : List Node) : List Part := partsFrom 0 ns

/-! ### Parts of a row -/

/-- The row of a single part that begins with a token. -/
inductive OnePart : Token → List Token → Prop
  | char (c : Char) : OnePart (.char c) [.char c]
  | leaf (n : Node) : OnePart (.leaf n) [.leaf n]
  | element (tag : Tag) {inside : List Token} (h : Balanced inside) :
    OnePart (.start tag) (.start tag :: (inside ++ [.stop]))

namespace OnePart

variable {t : Token} {ms : List Token}

lemma ne_stop (h : OnePart t ms) : t ≠ .stop := by
  cases h <;> simp

lemma exists_cons (h : OnePart t ms) : ∃ rest, ms = t :: rest := by
  cases h <;> exact ⟨_, rfl⟩

lemma exists_concat (h : OnePart t ms) : ∃ us last, ms = us ++ [last] ∧ last.isStart = false := by
  cases h with
  | char c => exact ⟨[], _, rfl, rfl⟩
  | leaf n => exact ⟨[], _, rfl, rfl⟩
  | element tag h => exact ⟨_ :: _, _, rfl, rfl⟩

lemma length_pos (h : OnePart t ms) : 0 < ms.length := by
  obtain ⟨rest, rfl⟩ := h.exists_cons
  exact Nat.succ_pos _

/-- An end tag behind a balanced row belongs to a start tag before it. -/
lemma not_balanced_stop (ts : List Token) : ¬Balanced (.stop :: ts) := by
  intro h
  have hstops : (Unmatched.ofTokens (.stop :: ts)).stops = 1 + (Unmatched.ofTokens ts).stops := by
    rw [Unmatched.ofTokens_cons]
    rfl
  rw [h] at hstops
  have hzero : ({} : Unmatched).stops = 0 := rfl
  omega

/-- A balanced row is not followed by an end tag within a longer one. -/
lemma eq_of_balanced {ts us vs ws : List Token} (ht : Balanced ts) (hu : Balanced us)
    (h : ts ++ .stop :: vs = us ++ .stop :: ws) : ts = us := by
  have key {ts us vs ws : List Token} (ht : Balanced ts) (hu : Balanced us)
      (hlen : ts.length < us.length) : ts ++ .stop :: vs ≠ us ++ .stop :: ws := by
    intro h
    obtain ⟨rest, rfl⟩ : ts <+: us :=
      List.prefix_of_prefix_length_le (List.prefix_append ts _) (h ▸ List.prefix_append us _)
        (Nat.le_of_lt hlen)
    cases rest with
    | nil => simp at hlen
    | cons r rest =>
      rw [List.append_assoc, List.append_cancel_left_eq, List.cons_append] at h
      obtain rfl := (List.cons.inj h).1
      rw [Balanced, Unmatched.ofTokens_append, ht, Unmatched.none_append] at hu
      exact not_balanced_stop rest hu
  rcases Nat.lt_trichotomy ts.length us.length with hlt | heq | hgt
  · exact absurd h (key ht hu hlt)
  · exact (List.append_inj h heq).1
  · exact absurd h.symm (key hu ht hgt)

/-- **A part is known by where it begins.** -/
lemma eq_of_append {ms' ws ws' : List Token} (h : OnePart t ms) (h' : OnePart t ms')
    (heq : ms ++ ws = ms' ++ ws') : ms = ms' := by
  cases h with
  | char c => cases h'; rfl
  | leaf n => cases h'; rfl
  | element tag hin =>
    cases h' with
    | element _ hin' =>
      simp only [List.cons_append, List.append_assoc] at heq
      rw [eq_of_balanced hin hin' (List.cons.inj heq).2]

/-- What is put in between the tokens of a part is put in an element. -/
lemma insert {ms' us : List Token} (h : OnePart t (ms ++ ms')) (hms : ms ≠ []) (hms' : ms' ≠ [])
    (hus : Balanced us) : OnePart t (ms ++ us ++ ms') := by
  obtain ⟨m, ms, rfl⟩ := List.exists_cons_of_ne_nil hms
  generalize hrow : m :: ms ++ ms' = row at h
  cases h with
  | char c => simp_all
  | leaf n => simp_all
  | element tag hin =>
    rw [List.cons_append] at hrow
    obtain ⟨rfl, hrest⟩ := List.cons.inj hrow
    obtain ⟨last, t, rfl⟩ := (List.eq_nil_or_concat' ms').resolve_left hms'
    rw [← List.append_assoc] at hrest
    obtain ⟨rfl, ht⟩ := List.append_inj' hrest rfl
    obtain rfl := List.singleton_inj.1 ht
    have hall : Balanced (ms ++ us ++ last) := (balanced_insert_iff hus).2 hin
    simpa using OnePart.element tag hall

end OnePart

namespace Part

/-- A part stands in a row. -/
def In (x : Part) (ts : List Token) : Prop :=
  ∃ us ms ws, ts = us ++ ms ++ ws ∧ OnePart x.token ms ∧ x.begins = us.length ∧
    x.ends + 1 = us.length + ms.length

variable {x y : Part} {ts us ws : List Token}

lemma In.getElem? (h : x.In ts) : ts[x.begins]? = some x.token := by
  obtain ⟨us, ms, ws, rfl, hone, hbegins, -⟩ := h
  obtain ⟨rest, rfl⟩ := hone.exists_cons
  rw [hbegins]
  simp

lemma In.getElem?_ends (h : x.In ts) : ∃ t, ts[x.ends]? = some t ∧ t.isStart = false := by
  obtain ⟨us, ms, ws, rfl, hone, -, hends⟩ := h
  obtain ⟨ms, t, rfl, ht⟩ := hone.exists_concat
  have hlast : x.ends = (us ++ ms).length := by
    simp only [List.length_append, List.length_singleton] at hends ⊢
    omega
  refine ⟨t, ?_, ht⟩
  rw [hlast]
  simp

lemma In.ne_stop (h : x.In ts) : x.token ≠ .stop := by
  obtain ⟨us, ms, ws, rfl, hone, -⟩ := h
  exact hone.ne_stop

lemma In.begins_le_ends (h : x.In ts) : x.begins ≤ x.ends := by
  obtain ⟨us, ms, ws, -, hone, hbegins, hends⟩ := h
  have := hone.length_pos
  omega

lemma In.ends_lt (h : x.In ts) : x.ends < ts.length := by
  obtain ⟨us, ms, ws, rfl, -, -, hends⟩ := h
  simp only [List.length_append]
  omega

/-- What has more than one token is an element, between its tags. -/
lemma In.tags (h : x.In ts) (hlt : x.begins < x.ends) :
    x.token.isStart = true ∧ ts[x.ends]? = some .stop := by
  obtain ⟨us, ms, ws, rfl, hone, hbegins, hends⟩ := h
  obtain ⟨t, begins, ends⟩ := x
  simp only at hone hbegins hends hlt ⊢
  cases hone with
  | char c => rw [List.length_singleton] at hends; omega
  | leaf n => rw [List.length_singleton] at hends; omega
  | element tag hin =>
    refine ⟨rfl, ?_⟩
    rename_i inside
    have hlast : ends = (us ++ .start tag :: inside).length := by
      simp only [List.length_append, List.length_cons, List.length_nil] at hends ⊢
      omega
    have hrow : us ++ .start tag :: (inside ++ [.stop]) ++ ws =
        (us ++ .start tag :: inside) ++ .stop :: ws := by simp
    rw [hrow, hlast, List.getElem?_append_right (Nat.le_refl _), Nat.sub_self]
    rfl

/-- What is no element has but one. -/
lemma In.ends_eq (h : x.In ts) (hx : x.token.isStart = false) : x.ends = x.begins := by
  refine Nat.le_antisymm (Nat.not_lt.1 fun hlt => ?_) h.begins_le_ends
  have htags := (h.tags hlt).1
  rw [hx] at htags
  cases htags

lemma In.eq_of_begins (hx : x.In ts) (hy : y.In ts) (h : x.begins = y.begins) : x = y := by
  have htoken : x.token = y.token := by
    have := hx.getElem?
    rw [h, hy.getElem?] at this
    exact (Option.some.inj this).symm
  obtain ⟨us, ms, ws, rfl, hone, hbegins, hends⟩ := hx
  obtain ⟨us', ms', ws', heq, hone', hbegins', hends'⟩ := hy
  rw [List.append_assoc, List.append_assoc] at heq
  obtain ⟨rfl, hrest⟩ := List.append_inj heq (by omega)
  obtain rfl := hone.eq_of_append (htoken ▸ hone') hrest
  obtain ⟨t, i, j⟩ := x
  obtain ⟨t', i', j'⟩ := y
  simp only [Part.mk.injEq] at *
  exact ⟨htoken, h, by omega⟩

/-- The first unmatched end tag of a row follows a balanced one. -/
lemma exists_stop {ts : List Token} (h : (Unmatched.ofTokens ts).stops ≠ 0) :
    ∃ inside rest, ts = inside ++ .stop :: rest ∧ Balanced inside := by
  induction ts using List.reverseRecOn with
  | nil => exact absurd rfl h
  | append_singleton ts t ih =>
    by_cases hts : (Unmatched.ofTokens ts).stops = 0
    · have hstep : Unmatched.ofTokens (ts ++ [t]) = (Unmatched.ofTokens ts).step t :=
        List.foldl_append
      rw [hstep] at h
      rcases hu : Unmatched.ofTokens ts with ⟨stops, starts⟩
      rw [hu] at h hts
      cases t with
      | stop =>
        cases starts with
        | nil =>
          obtain rfl : stops = 0 := hts
          exact ⟨ts, [], rfl, hu⟩
        | cons tag starts => exact absurd hts h
      | _ => exact absurd hts h
    · obtain ⟨inside, rest, rfl, hin⟩ := ih hts
      exact ⟨inside, rest ++ [t], by simp, hin⟩

/-- **Every token of a balanced row** that is no end tag begins a part of it. -/
lemma exists_in {ts : List Token} (h : Balanced ts) {i : Nat} {t : Token} (hi : ts[i]? = some t)
    (ht : t ≠ .stop) : ∃ x : Part, x.In ts ∧ x.begins = i := by
  obtain ⟨hlt, hget⟩ := List.getElem?_eq_some_iff.1 hi
  have hsplit : ts = ts.take i ++ t :: ts.drop (i + 1) := by
    rw [← hget, List.getElem_cons_drop, List.take_append_drop]
  have hlen : (ts.take i).length = i := by rw [List.length_take, Nat.min_eq_left (Nat.le_of_lt hlt)]
  generalize ts.take i = us at hsplit hlen
  generalize ts.drop (i + 1) = ws at hsplit
  subst hsplit hlen
  cases t with
  | char c =>
    exact ⟨⟨.char c, us.length, us.length⟩,
      ⟨us, [.char c], ws, by simp, .char c, rfl, rfl⟩, rfl⟩
  | leaf n =>
    exact ⟨⟨.leaf n, us.length, us.length⟩,
      ⟨us, [.leaf n], ws, by simp, .leaf n, rfl, rfl⟩, rfl⟩
  | stop => exact absurd rfl ht
  | start tag =>
    have hstops : (Unmatched.ofTokens ws).stops ≠ 0 := by
      intro hzero
      rw [Balanced, Unmatched.ofTokens_append, Unmatched.ofTokens_cons] at h
      have hstarts := congrArg Unmatched.starts h
      have htag : Unmatched.ofTokens [.start tag] = ⟨0, [tag]⟩ := rfl
      simp [Unmatched.append_def, htag, hzero] at hstarts
    obtain ⟨inside, rest, rfl, hin⟩ := exists_stop hstops
    refine ⟨⟨.start tag, us.length, us.length + inside.length + 1⟩,
      ⟨us, .start tag :: (inside ++ [.stop]), rest, by simp, .element tag hin, rfl, ?_⟩, rfl⟩
    simp only [List.length_cons, List.length_append, List.length_nil]
    omega

/-! ### Putting rows in -/

/-- The place of a token after others have been put in at a place. -/
def shift (place n i : Nat) : Nat := if i < place then i else i + n

lemma shift_of_lt {place i : Nat} (h : i < place) (n : Nat) : shift place n i = i := if_pos h

lemma shift_of_le {place i : Nat} (h : place ≤ i) (n : Nat) : shift place n i = i + n :=
  if_neg (Nat.not_lt.2 h)

lemma strictMono_shift (place n : Nat) : StrictMono (shift place n) := by
  intro i j h
  simp only [shift]
  split <;> split <;> omega

lemma In.append_left (h : x.In ts) (us : List Token) : (x.map (us.length + ·)).In (us ++ ts) := by
  obtain ⟨vs, ms, ws, rfl, hone, hbegins, hends⟩ := h
  refine ⟨us ++ vs, ms, ws, by simp, hone, by simp [hbegins], ?_⟩
  simp only [ends_map, List.length_append]
  omega

lemma In.append_right (h : x.In ts) (us : List Token) : x.In (ts ++ us) := by
  obtain ⟨vs, ms, ws, rfl, hone, hbegins, hends⟩ := h
  exact ⟨vs, ms, ws ++ us, by simp, hone, hbegins, hends⟩

/-- **Putting a balanced row in** keeps a part: it is before, behind or around. -/
lemma In.insert (h : x.In (us ++ ws)) (hts : Balanced ts) :
    (x.map (shift us.length ts.length)).In (us ++ ts ++ ws) := by
  obtain ⟨vs, ms, rest, heq, hone, hbegins, hends⟩ := h
  have hpos := hone.length_pos
  rcases Nat.lt_or_ge vs.length us.length with hlt | hge
  · rw [List.append_assoc] at heq
    obtain ⟨as, rfl, hrest⟩ := exists_append_of_length_le heq.symm (Nat.le_of_lt hlt)
    rw [List.length_append] at hlt
    rw [map, hbegins, shift_of_lt (by rw [List.length_append]; exact hlt)]
    rcases Nat.lt_or_ge as.length ms.length with hlt' | hge'
    · obtain ⟨bs, rfl, rfl⟩ := exists_append_of_length_le hrest.symm (Nat.le_of_lt hlt')
      rw [List.length_append] at hlt' hends
      have has : as ≠ [] := List.ne_nil_of_length_pos (by omega)
      have hbs : bs ≠ [] := List.ne_nil_of_length_pos (by omega)
      refine ⟨vs, as ++ ts ++ bs, rest, by simp, hone.insert has hbs hts, rfl, ?_⟩
      rw [shift_of_le (by rw [List.length_append]; omega)]
      simp only [List.length_append]
      omega
    · obtain ⟨bs, rfl, rfl⟩ := exists_append_of_length_le hrest hge'
      refine ⟨vs, ms, bs ++ ts ++ ws, by simp, hone, rfl, ?_⟩
      rw [shift_of_lt (by simp only [List.length_append]; omega)]
      exact hends
  · rw [List.append_assoc] at heq
    obtain ⟨as, rfl, rfl⟩ := exists_append_of_length_le heq hge
    rw [List.length_append] at hbegins hends
    refine ⟨us ++ ts ++ as, ms, rest, by simp, hone, ?_, ?_⟩
    · rw [begins_map, shift_of_le (by omega), List.length_append, List.length_append]
      omega
    · rw [ends_map, shift_of_le (by omega), List.length_append, List.length_append]
      omega

/-- **The parts of a row into which a balanced one is put** are those of the two. -/
theorem in_insert_iff (hts : Balanced ts) (h : Balanced (us ++ ws)) :
    x.In (us ++ ts ++ ws) ↔
      (∃ y : Part, y.In (us ++ ws) ∧ x = y.map (shift us.length ts.length)) ∨
        ∃ y : Part, y.In ts ∧ x = y.map (us.length + ·) := by
  have hinside {y : Part} (hy : y.In ts) : (y.map (us.length + ·)).In (us ++ ts ++ ws) :=
    (hy.append_left us).append_right ws
  refine ⟨fun hx => ?_, ?_⟩
  · -- a part that begins at the same place is known in one of the two rows
    have hget := hx.getElem?
    rcases Nat.lt_or_ge x.begins us.length with hlt | hge
    · have hbefore : (us ++ ws)[x.begins]? = some x.token := by
        rw [List.getElem?_append_left hlt, ← hget, List.append_assoc,
          List.getElem?_append_left hlt]
      obtain ⟨y, hy, hbegins⟩ := exists_in h hbefore hx.ne_stop
      refine .inl ⟨y, hy, hx.eq_of_begins (hy.insert hts) ?_⟩
      rw [begins_map, hbegins, shift_of_lt hlt]
    · rw [List.append_assoc, List.getElem?_append_right hge] at hget
      rcases Nat.lt_or_ge (x.begins - us.length) ts.length with hlt | hge'
      · rw [List.getElem?_append_left hlt] at hget
        obtain ⟨y, hy, hbegins⟩ := exists_in hts hget hx.ne_stop
        refine .inr ⟨y, hy, hx.eq_of_begins (hinside hy) ?_⟩
        simp only [begins_map]
        omega
      · rw [List.getElem?_append_right hge'] at hget
        have hbehind : (us ++ ws)[us.length + (x.begins - us.length - ts.length)]? =
            some x.token := by
          rw [List.getElem?_append_right (Nat.le_add_right _ _), Nat.add_sub_cancel_left]
          exact hget
        obtain ⟨y, hy, hbegins⟩ := exists_in h hbehind hx.ne_stop
        refine .inl ⟨y, hy, hx.eq_of_begins (hy.insert hts) ?_⟩
        rw [begins_map, hbegins, shift_of_le (Nat.le_add_right _ _)]
        omega
  · rintro (⟨y, hy, rfl⟩ | ⟨y, hy, rfl⟩)
    · exact hy.insert hts
    · exact hinside hy

end Part

/-! ### Parts of a document and of its row -/

lemma partsFrom_cons (i : Nat) (n : Node) (ns : List Node) :
    partsFrom i (n :: ns) = n.partsFrom i ++ partsFrom (i + n.tokens.length) ns := rfl

lemma Node.partsFrom_void {tag : Tag} (hv : tag.isVoid = true) (i : Nat) (inside : List Node) :
    (Node.element tag inside).partsFrom i = [⟨.leaf (.element tag inside), i, i⟩] :=
  if_pos hv

lemma Node.partsFrom_element {tag : Tag} (hv : ¬tag.isVoid = true) (i : Nat) (inside : List Node) :
    (Node.element tag inside).partsFrom i =
      ⟨.start tag, i, i + (RichText.tokens inside).length + 1⟩ ::
        RichText.partsFrom (i + 1) inside :=
  if_neg hv

/-- **The parts of a document begin** at the tokens of its row that are no end tags. -/
theorem begins_partsFrom (i : Nat) (ns : List Node) :
    (partsFrom i ns).map (fun x => (x.token, x.begins)) =
      ((tokens ns).zipIdx i).filter fun ti => !ti.1.isStop := by
  induction ns using Node.induction generalizing i with
  | nil => rfl
  | text s ns ih =>
    have hchars : ∀ ti ∈ (s.map Token.char).zipIdx i, (!ti.1.isStop) = true := by
      intro ti hti
      obtain ⟨c, -, hc⟩ := List.mem_map.1 (List.fst_mem_of_mem_zipIdx hti)
      rw [← hc]
      rfl
    rw [partsFrom_cons, tokens_cons, List.map_append, List.zipIdx_append, List.filter_append, ih,
      Node.tokens, List.filter_eq_self.2 hchars, Node.partsFrom, List.map_map, List.zipIdx_map]
    rfl
  | comment s ns ih => exact congrArg (List.cons _) (ih (i + 1))
  | element tag inside ns ihin ih =>
    by_cases hv : tag.isVoid = true
    · rw [partsFrom_cons, tokens_cons, Node.partsFrom_void hv, Node.tokens_void hv]
      exact congrArg (List.cons _) (ih (i + 1))
    · rw [partsFrom_cons, tokens_cons, List.map_append, List.zipIdx_append, List.filter_append, ih,
        Node.partsFrom_element hv, Node.tokens_element hv, List.map_cons, ihin, List.zipIdx_cons,
        List.filter_cons, List.zipIdx_append, List.filter_append]
      simp [Token.isStop]

namespace Part

/-- Parts of a row that is the first of two, and of one that follows another, as they are counted
from a place. -/
lemma exists_in_append_right {i : Nat} (h : ∃ y : Part, y.In ts ∧ x = y.map (i + ·))
    (us : List Token) : ∃ y : Part, y.In (ts ++ us) ∧ x = y.map (i + ·) := by
  obtain ⟨y, hy, rfl⟩ := h
  exact ⟨y, hy.append_right us, rfl⟩

lemma exists_in_append_left {i : Nat} (us : List Token)
    (h : ∃ y : Part, y.In ts ∧ x = y.map (i + us.length + ·)) :
    ∃ y : Part, y.In (us ++ ts) ∧ x = y.map (i + ·) := by
  obtain ⟨y, hy, rfl⟩ := h
  refine ⟨y.map (us.length + ·), hy.append_left us, ?_⟩
  simp only [map, Nat.add_assoc]

lemma exists_in_of_onePart {t : Token} {ms : List Token} (h : OnePart t ms) (i : Nat) :
    ∃ y : Part, y.In ms ∧ ⟨t, i, i + (ms.length - 1)⟩ = y.map (i + ·) := by
  refine ⟨⟨t, 0, ms.length - 1⟩, ⟨[], ms, [], by simp, h, rfl, ?_⟩, rfl⟩
  have := h.length_pos
  simp only [List.length_nil]
  omega

end Part

open RichText.Part

lemma in_of_mem_partsFrom_text {s : Text} {i : Nat} {x : Part}
    (h : x ∈ (Node.text s).partsFrom i) :
    ∃ y : Part, y.In (Node.text s).tokens ∧ x = y.map (i + ·) := by
  induction s generalizing i with
  | nil => cases h
  | cons c s ih =>
    rcases List.mem_cons.1 h with rfl | h
    · exact exists_in_append_right (exists_in_of_onePart (.char c) i) (s.map .char)
    · exact exists_in_append_left [.char c] (ih h)

lemma in_of_mem_partsFrom {ns : List Node} {i : Nat} {x : Part} (h : x ∈ partsFrom i ns) :
    ∃ y : Part, y.In (tokens ns) ∧ x = y.map (i + ·) := by
  induction ns using Node.induction generalizing i x with
  | nil => cases h
  | text s ns ih =>
    rcases List.mem_append.1 h with h | h
    · exact exists_in_append_right (in_of_mem_partsFrom_text h) _
    · exact exists_in_append_left _ (ih h)
  | comment s ns ih =>
    rcases List.mem_append.1 h with h | h
    · obtain rfl := List.mem_singleton.1 h
      exact exists_in_append_right (exists_in_of_onePart (.leaf (.comment s)) i) _
    · exact exists_in_append_left _ (ih h)
  | element tag inside ns ihin ih =>
    rcases List.mem_append.1 h with h | h
    · refine exists_in_append_right ?_ _
      by_cases hv : tag.isVoid = true
      · rw [Node.partsFrom_void hv] at h
        obtain rfl := List.mem_singleton.1 h
        rw [Node.tokens_void hv]
        exact exists_in_of_onePart (.leaf _) i
      · rw [Node.partsFrom_element hv] at h
        rw [Node.tokens_element hv]
        rcases List.mem_cons.1 h with rfl | h
        · obtain ⟨y, hy, heq⟩ := exists_in_of_onePart (.element tag (balanced_tokens inside)) i
          refine ⟨y, hy, heq ▸ ?_⟩
          simp [Nat.add_assoc]
        · exact exists_in_append_left [.start tag] (exists_in_append_right (ihin h) [.stop])
    · exact exists_in_append_left _ (ih h)

/-- **The parts of a document** are those of its row. -/
theorem mem_parts_iff {ns : List Node} {x : Part} : x ∈ parts ns ↔ x.In (tokens ns) := by
  have hin {x : Part} (h : x ∈ parts ns) : x.In (tokens ns) := by
    obtain ⟨y, hy, rfl⟩ := in_of_mem_partsFrom h
    simpa [map] using hy
  refine ⟨hin, fun h => ?_⟩
  -- a part of the document begins where this one does
  have hbegins : (x.token, x.begins) ∈ ((tokens ns).zipIdx 0).filter fun ti => !ti.1.isStop := by
    refine List.mem_filter.2 ⟨List.mk_mem_zipIdx_iff_getElem?.2 h.getElem?, ?_⟩
    cases htoken : x.token with
    | stop => exact absurd htoken h.ne_stop
    | _ => rfl
  rw [← begins_partsFrom] at hbegins
  obtain ⟨y, hy, hxy⟩ := List.mem_map.1 hbegins
  rwa [h.eq_of_begins (hin hy) (Prod.mk.inj hxy).2.symm]

/-- A paragraph has its tags at the ends of its row, and a character and a comment between them. -/
example : parts [.element ⟨['p'], []⟩ [.text ['a'], .comment ['b']]] =
    [⟨.start ⟨['p'], []⟩, 0, 3⟩, ⟨.char 'a', 1, 1⟩, ⟨.leaf (.comment ['b']), 2, 2⟩] := by
  decide +kernel

end RichText
