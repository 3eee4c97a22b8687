import Mathlib.Order.WellFounded
import Mathlib.Tactic.Lemma
import RichText.Canvas
import RichText.Proofs.Offsets
import RichText.Proofs.Parts
import RichText.Proofs.Place

/-!
What survives an edit. A cut takes out of a row what is balanced in it, a piece at a time, and keeps
the tags that are left. So the parts that are not all in the cut survive it, in their order and one
in the other as they were, and the new nodes stand at one place between them.
-/

namespace RichText

open RichText.Part

/-! ### Cutting -/

/-- The tags that a cut keeps. -/
def Unmatched.kept (u : Unmatched) : List Token := u.stopTokens ++ u.startTokens

/-- A row `ks` is what is left of a stretch `ms` between two others, and `origin` says where its
tokens and those around were. The parts that are lost are all in the stretch. -/
structure Origin (origin : Nat → Nat) (us ms ks ws : List Token) : Prop where
  mono : StrictMono origin
  before : ∀ i < us.length, origin i = i
  after : ∀ i, origin (us.length + ks.length + i) = us.length + ms.length + i
  part : ∀ y : Part, y.In (us ++ ks ++ ws) → (y.map origin).In (us ++ ms ++ ws)
  survives : ∀ x : Part, x.In (us ++ ms ++ ws) →
    ¬(us.length ≤ x.begins ∧ x.ends < us.length + ms.length) →
      ∃ y : Part, y.In (us ++ ks ++ ws) ∧ x = y.map origin

namespace Origin

variable {origin : Nat → Nat} {us ms ks ws ts : List Token}

lemma nil (us ws : List Token) : Origin id us [] [] ws :=
  ⟨strictMono_id, fun _ _ => rfl, fun _ => rfl, fun _ h => h, fun x h _ => ⟨x, h, rfl⟩⟩

/-- A token more in the stretch is left over at first. -/
lemma snoc {t : Token} (h : Origin origin us ms ks (t :: ws)) :
    Origin origin us (ms ++ [t]) (ks ++ [t]) ws := by
  have hrow (ts : List Token) : us ++ (ts ++ [t]) ++ ws = us ++ ts ++ t :: ws := by simp
  refine ⟨h.mono, h.before, fun i => ?_, ?_, fun x hx hout => ?_⟩
  · have := h.after (1 + i)
    simp only [List.length_append, List.length_singleton]
    rw [← Nat.add_assoc, ← Nat.add_assoc, Nat.add_assoc, this]
    omega
  · rw [hrow, hrow]
    exact h.part
  · rw [hrow] at hx ⊢
    refine h.survives x hx fun hin => hout ⟨hin.1, ?_⟩
    simp only [List.length_append, List.length_singleton]
    omega

/-- What is balanced at the end of what is left goes. -/
lemma erase (h : Origin origin us ms (ks ++ ts) ws) (hts : Balanced ts)
    (hrow : Balanced (us ++ ks ++ ws)) :
    Origin (origin ∘ shift (us ++ ks).length ts.length) us ms ks ws := by
  have hassoc : us ++ (ks ++ ts) ++ ws = us ++ ks ++ ts ++ ws := by simp
  refine ⟨h.mono.comp (strictMono_shift _ _), fun i hi => ?_, fun i => ?_, fun y hy => ?_,
    fun x hx hout => ?_⟩
  · rw [Function.comp_apply, shift_of_lt (by rw [List.length_append]; omega), h.before i hi]
  · have := h.after i
    rw [Function.comp_apply, shift_of_le (by rw [List.length_append]; omega), ← this]
    rw [List.length_append]
    congr 1
    omega
  · have := h.part _ (hassoc ▸ hy.insert hts)
    rwa [map_map] at this
  · obtain ⟨y, hy, rfl⟩ := h.survives x hx hout
    rw [hassoc] at hy
    rcases (in_insert_iff hts hrow).1 hy with ⟨z, hz, rfl⟩ | ⟨z, hz, rfl⟩
    · exact ⟨z, hz, rfl⟩
    · -- a part of what goes was in the stretch
      have hends := h.mono (show (us ++ ks).length + z.ends < us.length + (ks ++ ts).length + 0 by
        have := hz.ends_lt
        simp only [List.length_append]
        omega)
      have hbegins := h.mono.le_apply (x := (us ++ ks).length + z.begins)
      rw [h.after 0] at hends
      rw [List.length_append] at hbegins
      refine absurd ⟨?_, ?_⟩ hout
      · simp only [map, List.length_append]
        omega
      · exact hends

end Origin

open Unmatched in
/-- What the tags kept of a stretch stand for is as balanced as the stretch. -/
lemma balanced_kept_iff {us ms ws : List Token} :
    Balanced (us ++ (Unmatched.ofTokens ms).kept ++ ws) ↔ Balanced (us ++ ms ++ ws) := by
  rw [Balanced, Balanced, ofTokens_append, ofTokens_append, Unmatched.kept, ofTokens_kept,
    ofTokens_append, ofTokens_append]

open Unmatched in
/-- **The tags that a cut keeps** were at places in the row, and every part that is not all in the
cut is still there. -/
theorem exists_origin {us ms ws : List Token} (h : Balanced (us ++ ms ++ ws)) :
    ∃ origin, Origin origin us ms (Unmatched.ofTokens ms).kept ws := by
  induction ms using List.reverseRecOn generalizing ws with
  | nil => exact ⟨id, Origin.nil us ws⟩
  | append_singleton ms t ih =>
    have hrow : us ++ (ms ++ [t]) ++ ws = us ++ ms ++ t :: ws := by simp
    obtain ⟨origin, ho⟩ := ih (hrow ▸ h)
    replace ho := ho.snoc
    have hkept := balanced_kept_iff.2 h
    have hstep : Unmatched.ofTokens (ms ++ [t]) = (Unmatched.ofTokens ms).step t :=
      List.foldl_append
    rw [hstep] at hkept ⊢
    generalize Unmatched.ofTokens ms = u at ho hkept
    obtain ⟨stops, starts⟩ := u
    cases t with
    | char c => exact ⟨_, ho.erase rfl hkept⟩
    | leaf n => exact ⟨_, ho.erase rfl hkept⟩
    | start tag =>
      have hstart : Unmatched.kept ⟨stops, starts⟩ ++ [.start tag] =
          Unmatched.kept ⟨stops, tag :: starts⟩ := by
        simp [Unmatched.kept, stopTokens, startTokens]
      exact ⟨origin, hstart ▸ ho⟩
    | stop =>
      cases starts with
      | nil =>
        have hstop : Unmatched.kept ⟨stops, []⟩ ++ [.stop] = Unmatched.kept ⟨stops + 1, []⟩ := by
          simp [Unmatched.kept, stopTokens, startTokens, List.replicate_succ']
        exact ⟨origin, hstop ▸ ho⟩
      | cons tag starts =>
        -- the end tag meets the last start tag that is left
        have hpair : Unmatched.kept ⟨stops, tag :: starts⟩ ++ [.stop] =
            Unmatched.kept ⟨stops, starts⟩ ++ [.start tag, .stop] := by
          simp [Unmatched.kept, stopTokens, startTokens]
        exact ⟨_, (hpair ▸ ho).erase rfl hkept⟩

/-! ### The tags that are kept -/

section Kept

variable {u : Unmatched} {us ws : List Token} {y : Part}

lemma Unmatched.getElem?_kept {i : Nat} {t : Token} (h : u.kept[i]? = some t) :
    i < u.stops ∧ t = .stop ∨ u.stops ≤ i ∧ t.isStart = true := by
  have hlen : u.stopTokens.length = u.stops := List.length_replicate
  rcases Nat.lt_or_ge i u.stops with hlt | hge
  · rw [Unmatched.kept, List.getElem?_append_left (by omega)] at h
    exact .inl ⟨hlt, List.eq_of_mem_replicate (List.mem_of_getElem? h)⟩
  · rw [Unmatched.kept, List.getElem?_append_right (by omega)] at h
    obtain ⟨tag, -, rfl⟩ := List.mem_map.1 (List.mem_of_getElem? h)
    exact .inr ⟨hge, rfl⟩

lemma Unmatched.stops_le_length_kept (u : Unmatched) : u.stops ≤ u.kept.length := by
  rw [Unmatched.kept, List.length_append, Unmatched.stopTokens, List.length_replicate]
  exact Nat.le_add_right _ _

/-- A part does not begin with one of the end tags. -/
lemma Part.In.le_begins (h : y.In (us ++ u.kept ++ ws)) (hle : us.length ≤ y.begins) :
    us.length + u.stops ≤ y.begins := by
  rcases Nat.lt_or_ge y.begins (us.length + u.kept.length) with hlt | hge
  · have hget := h.getElem?
    rw [List.append_assoc, List.getElem?_append_right hle,
      List.getElem?_append_left (by omega)] at hget
    rcases Unmatched.getElem?_kept hget with ⟨-, hstop⟩ | ⟨hge, -⟩
    · exact absurd hstop h.ne_stop
    · omega
  · have := u.stops_le_length_kept
    omega

/-- A part does not end with one of the start tags. -/
lemma Part.In.ends_lt_of_kept (h : y.In (us ++ u.kept ++ ws))
    (hlt : y.ends < us.length + u.kept.length) : y.ends < us.length + u.stops := by
  rcases Nat.lt_or_ge y.ends us.length with hlt' | hge
  · omega
  · obtain ⟨t, hget, hstart⟩ := h.getElem?_ends
    rw [List.append_assoc, List.getElem?_append_right hge,
      List.getElem?_append_left (by omega)] at hget
    rcases Unmatched.getElem?_kept hget with ⟨hlt', -⟩ | ⟨-, htag⟩
    · omega
    · rw [hstart] at htag
      cases htag

end Kept

/-! ### Exchanging parts for nodes -/

/-- A part is in a span with all of its tokens. -/
def Span.Holds (r : Span) (x : Part) : Prop := r.start ≤ x.begins ∧ x.ends < r.stop

/-- A document `ns` has lost parts and got nodes, and has become `res`. The nodes stand at a place
of the row of `res`, and the tokens of all other parts have moved by `move`. -/
structure Exchange (ns : List Node) (lost : Part → Prop) (new : List Node) (place : Nat)
    (move : Nat → Nat) (res : List Node) : Prop where
  /-- No part is in the document but those that survive, with their names and attributes, and those
  of the new nodes. -/
  mem_parts_iff : ∀ z, z ∈ parts res ↔
    (∃ x ∈ parts ns, ¬lost x ∧ z = x.map move) ∨ ∃ x ∈ parts new, z = x.map (place + ·)
  /-- The survivors are in the order in which they were. -/
  order : ∀ x ∈ parts ns, ∀ y ∈ parts ns, ¬lost x → ¬lost y →
    ((x.map move).begins < (y.map move).begins ↔ x.begins < y.begins)
  /-- Of the survivors the same are in each other. -/
  encloses_iff : ∀ x ∈ parts ns, ∀ y ∈ parts ns, ¬lost x → ¬lost y →
    ((x.map move).Encloses (y.map move) ↔ x.Encloses y)

lemma Exchange.congr {ns new res : List Node} {lost lost' : Part → Prop} {place : Nat}
    {move : Nat → Nat} (h : Exchange ns lost new place move res)
    (hlost : ∀ x ∈ parts ns, lost x ↔ lost' x) : Exchange ns lost' new place move res := by
  refine ⟨fun z => ?_, fun x hx y hy hlx hly => ?_, fun x hx y hy hlx hly => ?_⟩
  · rw [h.mem_parts_iff]
    refine or_congr_left (exists_congr fun x => and_congr_right fun hx => ?_)
    rw [hlost x hx]
  · exact h.order x hx y hy (mt (hlost x hx).1 hlx) (mt (hlost y hy).1 hly)
  · exact h.encloses_iff x hx y hy (mt (hlost x hx).1 hlx) (mt (hlost y hy).1 hly)

/-- In a normal document nothing is left to be made normal in the leaves. -/
lemma Token.normalize_of_isNormal {ns : List Node} (h : IsNormal ns) {t : Token}
    (ht : t ∈ tokens ns) : t.normalize = t := by
  have hrow : (tokens ns).map Token.normalize = (tokens ns).map id := by
    rw [← tokens_normalize, RichText.normalize_of_isNormal h, List.map_id]
  exact List.map_inj_left.1 hrow t ht

/-- The row of an edited document that was normal. -/
lemma tokens_replaceSelected_of_isNormal {ns : List Node} (h : IsNormal ns) (sel : Selection)
    (reach : Reach) (new : List Node) :
    tokens (replaceSelected ns sel reach new).nodes =
      (sel.span reach (tokens ns)).keptBefore (tokens ns) ++ tokens (normalize new) ++
        (sel.span reach (tokens ns)).keptAfter (tokens ns) := by
  have hkept : ∀ t ∈ (sel.span reach (tokens ns)).erase (tokens ns), t.normalize = t := by
    intro t ht
    rcases Span.mem_erase ht with rfl | ht
    · rfl
    · exact Token.normalize_of_isNormal h ht
  rw [Span.erase_eq, List.forall_mem_append] at hkept
  rw [tokens_replaceSelected, Span.insertNodes_erase (span_start_le_length sel reach _),
    List.map_append, List.map_append, ← tokens_normalize, List.map_congr_left hkept.1,
    List.map_congr_left hkept.2, List.map_id', List.map_id']

namespace Origin

variable {origin : Nat → Nat} {us ms ws : List Token} {u : Unmatched} {y : Part}

/-- Where a part that survives is now, and where it was. -/
lemma sides (h : Origin origin us ms u.kept ws) (hy : y.In (us ++ u.kept ++ ws)) :
    (origin y.begins < us.length ∧ y.begins < us.length + u.stops ∨
        us.length ≤ origin y.begins ∧ us.length + u.stops ≤ y.begins) ∧
      (origin y.ends < us.length + ms.length ∧ y.ends < us.length + u.stops ∨
        us.length + ms.length ≤ origin y.ends ∧ us.length + u.stops ≤ y.ends) := by
  have hkept := u.stops_le_length_kept
  have hend : origin (us.length + u.kept.length) = us.length + ms.length := h.after 0
  constructor
  · rcases Nat.lt_or_ge y.begins us.length with hlt | hge
    · rw [h.before _ hlt]
      exact .inl ⟨hlt, by omega⟩
    · exact .inr ⟨Nat.le_trans hge h.mono.le_apply, hy.le_begins hge⟩
  · rcases Nat.lt_or_ge y.ends (us.length + u.kept.length) with hlt | hge
    · exact .inl ⟨hend ▸ h.mono hlt, hy.ends_lt_of_kept hlt⟩
    · exact .inr ⟨hend ▸ h.mono.monotone hge, by omega⟩

/-- The parts that survive are just those that are not all in the stretch. -/
lemma exists_iff (h : Origin origin us ms u.kept ws) {x : Part} :
    (∃ y : Part, y.In (us ++ u.kept ++ ws) ∧ x = y.map origin) ↔
      x.In (us ++ ms ++ ws) ∧ ¬(us.length ≤ x.begins ∧ x.ends < us.length + ms.length) := by
  refine ⟨?_, fun ⟨hx, hout⟩ => h.survives x hx hout⟩
  rintro ⟨y, hy, rfl⟩
  refine ⟨h.part y hy, fun ⟨hbegins, hends⟩ => ?_⟩
  -- it would begin behind the end tags that are left, and end before the start tags
  have hle := hy.begins_le_ends
  have hsides := h.sides hy
  rw [begins_map] at hbegins
  rw [ends_map] at hends
  omega

end Origin

/-- New nodes between the tags that are kept move what is behind them. -/
lemma exists_exchange_of_origin {ns new res : List Node} {origin : Nat → Nat}
    {us ms ws : List Token} {u : Unmatched} (ho : Origin origin us ms u.kept ws)
    (hns : tokens ns = us ++ ms ++ ws) (hkept : Balanced (us ++ u.kept ++ ws))
    (hres : tokens res = us ++ u.stopTokens ++ tokens new ++ (u.startTokens ++ ws)) :
    ∃ move, Exchange ns (fun x => us.length ≤ x.begins ∧ x.ends < us.length + ms.length) new
        (us.length + u.stops) move res ∧
      ∀ y : Part, y.In (us ++ u.kept ++ ws) → (y.map origin).map move =
        y.map (shift (us.length + u.stops) (tokens new).length) := by
  have hback := Function.leftInverse_invFun ho.mono.injective
  have hmove (y : Part) : (y.map origin).map
      (shift (us.length + u.stops) (tokens new).length ∘ Function.invFun origin) =
        y.map (shift (us.length + u.stops) (tokens new).length) := by
    simp only [map, Function.comp_apply, hback _]
  have hrow : us ++ u.stopTokens ++ (u.startTokens ++ ws) = us ++ u.kept ++ ws := by
    simp [Unmatched.kept]
  have hlen : (us ++ u.stopTokens).length = us.length + u.stops := by
    rw [List.length_append, Unmatched.stopTokens, List.length_replicate]
  have hsurvives (x : Part) :
      (x ∈ parts ns ∧ ¬(us.length ≤ x.begins ∧ x.ends < us.length + ms.length)) ↔
        ∃ y : Part, y.In (us ++ u.kept ++ ws) ∧ x = y.map origin := by
    rw [ho.exists_iff, mem_parts_iff, hns]
  have hshift := (strictMono_shift (us.length + u.stops) (tokens new).length)
  refine ⟨_, ⟨fun z => ?_, fun x hx y hy hlx hly => ?_, fun x hx y hy hlx hly => ?_⟩,
    fun y _ => hmove y⟩
  · rw [mem_parts_iff, hres, in_insert_iff (balanced_tokens new) (hrow ▸ hkept), hrow, hlen]
    refine or_congr ⟨?_, ?_⟩ (exists_congr fun x => and_congr_left fun _ => mem_parts_iff.symm)
    · rintro ⟨y, hy, rfl⟩
      obtain ⟨hx, hout⟩ := (hsurvives _).2 ⟨y, hy, rfl⟩
      exact ⟨_, hx, hout, (hmove y).symm⟩
    · rintro ⟨x, hx, hout, rfl⟩
      obtain ⟨y, hy, rfl⟩ := (hsurvives x).1 ⟨hx, hout⟩
      exact ⟨y, hy, hmove y⟩
  · obtain ⟨x, -, rfl⟩ := (hsurvives x).1 ⟨hx, hlx⟩
    obtain ⟨y, -, rfl⟩ := (hsurvives y).1 ⟨hy, hly⟩
    rw [hmove, hmove]
    exact hshift.lt_iff_lt.trans ho.mono.lt_iff_lt.symm
  · obtain ⟨x, -, rfl⟩ := (hsurvives x).1 ⟨hx, hlx⟩
    obtain ⟨y, -, rfl⟩ := (hsurvives y).1 ⟨hy, hly⟩
    rw [hmove, hmove]
    exact and_congr (hshift.lt_iff_lt.trans ho.mono.lt_iff_lt.symm)
      (hshift.lt_iff_lt.trans ho.mono.lt_iff_lt.symm)

/-- **What survives** the replacement of a selection: the parts that are not all in its span. The
new nodes stand behind what ended before the end of the span, and before what began in it. -/
theorem exists_exchange {ns : List Node} (h : IsNormal ns) (sel : Selection) (reach : Reach)
    (new : List Node) {r : Span} (hr : sel.span reach (tokens ns) = r) {place : Nat}
    (hplace : r.collapse (tokens ns) = place) :
    ∃ move, Exchange ns r.Holds (normalize new) place move
        (replaceSelected ns sel reach new).nodes ∧
      ∀ x ∈ parts ns, ¬r.Holds x →
        (x.begins < r.start ∧ move x.begins < place ∨
          r.start ≤ x.begins ∧ place + (tokens (normalize new)).length ≤ move x.begins) ∧
        (x.ends < r.stop ∧ move x.ends < place ∨
          r.stop ≤ x.ends ∧ place + (tokens (normalize new)).length ≤ move x.ends) := by
  have hres := tokens_replaceSelected_of_isNormal h sel reach new
  have hle := span_start_le_stop sel reach (tokens ns)
  have hstop := span_stop_le_length sel reach (tokens ns)
  rw [hr] at hres hle hstop
  have hsplit := Span.split hle (tokens ns)
  have hus : (r.before (tokens ns)).length = r.start := Span.length_before (Nat.le_trans hle hstop)
  have hms : (r.before (tokens ns)).length + (r.inside (tokens ns)).length = r.stop := by
    rw [hus, Span.length_inside hstop, Nat.add_sub_cancel' hle]
  rw [Span.collapse, ← hus] at hplace
  rw [Span.keptBefore, Span.keptAfter] at hres
  have hbalanced : Balanced (r.before (tokens ns) ++ r.inside (tokens ns) ++ r.after (tokens ns)) :=
    hsplit.symm ▸ balanced_tokens ns
  obtain ⟨origin, ho⟩ := exists_origin hbalanced
  obtain ⟨move, hex, hmove⟩ :=
    exists_exchange_of_origin ho hsplit.symm (balanced_kept_iff.2 hbalanced) hres
  rw [hplace] at hex hmove
  have hlost (x : Part) : r.Holds x ↔ (r.before (tokens ns)).length ≤ x.begins ∧
      x.ends < (r.before (tokens ns)).length + (r.inside (tokens ns)).length := by
    rw [hms, hus, Span.Holds]
  refine ⟨move, hex.congr fun x _ => (hlost x).symm, fun x hx hout => ?_⟩
  rw [mem_parts_iff, ← hsplit] at hx
  obtain ⟨y, hy, rfl⟩ := ho.survives x hx (mt (hlost x).2 hout)
  have hbegins : move (origin y.begins) = shift place _ y.begins :=
    congrArg Part.begins (hmove y hy)
  have hends : move (origin y.ends) = shift place _ y.ends := congrArg Part.ends (hmove y hy)
  have hsides := ho.sides hy
  rw [hms, hplace, hus] at hsides
  rw [begins_map, ends_map, hbegins, hends]
  refine ⟨hsides.1.imp ?_ ?_, hsides.2.imp ?_ ?_⟩
  · exact fun h => ⟨h.1, by rw [shift_of_lt h.2]; exact h.2⟩
  · exact fun h => ⟨h.1, by rw [shift_of_le h.2]; exact Nat.add_le_add_right h.2 _⟩
  · exact fun h => ⟨h.1, by rw [shift_of_lt h.2]; exact h.2⟩
  · exact fun h => ⟨h.1, by rw [shift_of_le h.2]; exact Nat.add_le_add_right h.2 _⟩

/-! ### From the first to the last selected character -/

open Boundary

section Taken

/-- A part begins with the first selected character or behind it. -/
def Part.FromFirst (x : Part) (sel : Selection) (ts : List Token) : Prop :=
  min sel.start (charsOf ts).length < offset ts (x.begins + 1)

/-- A part ends with the last selected character or before it. -/
def Part.UpToLast (x : Part) (sel : Selection) (ts : List Token) : Prop :=
  offset ts x.ends < min sel.stop (charsOf ts).length

/-- A selection takes a part that begins and ends between its first and its last character. -/
def Selection.Takes (sel : Selection) (ts : List Token) (x : Part) : Prop :=
  x.FromFirst sel ts ∧ x.UpToLast sel ts

variable {x : Part} {sel : Selection} {ts : List Token}

lemma Part.FromFirst.le_begins (h : x.FromFirst sel ts) (reach : Reach) :
    (sel.span reach ts).start ≤ x.begins := by
  rw [Part.FromFirst, ← (offset_span sel reach ts).1] at h
  exact Nat.le_of_lt_succ (lt_of_offset_lt h)

lemma Part.UpToLast.ends_lt (h : x.UpToLast sel ts) (reach : Reach) :
    x.ends < (sel.span reach ts).stop := by
  rw [Part.UpToLast, ← (offset_span sel reach ts).2] at h
  exact lt_of_offset_lt h

/-- **The inner span** reaches from the first selected character to the last. -/
lemma holds_inner_iff (hx : x.In ts) : (sel.span .inner ts).Holds x ↔ sel.Takes ts x := by
  refine ⟨fun h => ?_, fun h => ⟨h.1.le_begins _, h.2.ends_lt _⟩⟩
  have hends := hx.ends_lt
  have hle := hx.begins_le_ends
  rw [Span.Holds] at h
  rcases Nat.lt_or_ge (min sel.start (charsOf ts).length) (min sel.stop (charsOf ts).length) with
    hlt | hge
  · rw [(span_of_lt hlt).1] at h
    exact ⟨lt_offset_of_last_lt (Nat.lt_succ_of_le h.1) (by omega), offset_lt_of_lt_first h.2⟩
  · -- at a caret the span is empty
    rw [span_of_le _ hge] at h
    exact absurd (Nat.lt_of_le_of_lt h.1 (Nat.lt_of_le_of_lt hle h.2)) (Nat.lt_irrefl _)

end Taken

namespace Canvas

variable {v : Canvas}

/-- **The structure survives an edit** of the text. Only what is taken goes: the selected
characters, and what begins and ends between the first and the last of them. The new nodes are
neighbours at one place. What ended before the last selected character ends before them, and what
began behind the first begins behind them. -/
theorem exchange_replaceRange (h : IsNormal v.nodes) (sel : Selection) (new : List Node) :
    let ts := tokens v.nodes
    let w := v.replaceRange sel .inner new
    ∃ (p : Place) (move : Nat → Nat), p.Open ∧ w.nodes = normalize (p.fill new) ∧
      Exchange v.nodes (sel.Takes ts) (normalize new) p.tokensBefore.length move w.nodes ∧
      ∀ x ∈ parts v.nodes, ¬sel.Takes ts x →
        (x.UpToLast sel ts → move x.ends < p.tokensBefore.length) ∧
          (x.FromFirst sel ts →
            p.tokensBefore.length + (tokens new).length ≤ move x.begins) := by
  intro ts w
  have hstart := span_start_le_length sel .inner ts
  obtain ⟨p, hp, hbefore, hafter⟩ : Place.Between ((sel.span .inner ts).keptBefore ts)
      ((sel.span .inner ts).keptAfter ts) := by
    -- the place is one of the document without what is taken
    have hrow := tokens_replaceSelected_of_isNormal h sel .inner []
    rw [normalize_nil, tokens_nil, List.append_nil] at hrow
    exact Place.between_of_tokens_eq hrow
  have hplace : (sel.span .inner ts).collapse ts = p.tokensBefore.length := by
    rw [hbefore, Span.length_keptBefore hstart]
  have hnodes : w.nodes = normalize (p.fill new) := by
    have hfull := nodes_replaceSelected v.nodes new sel .inner
    rw [Span.insertNodes_erase hstart, ← hbefore, ← hafter, ← Place.tokens_fill hp,
      ofTokens_tokens] at hfull
    exact hfull
  obtain ⟨move, hex, hsides⟩ :=
    exists_exchange h sel .inner new (r := sel.span .inner ts) rfl hplace
  have htakes (x : Part) (hx : x ∈ parts v.nodes) :
      (sel.span .inner ts).Holds x ↔ sel.Takes ts x := holds_inner_iff (mem_parts_iff.1 hx)
  refine ⟨p, move, hp, hnodes, hex.congr htakes, fun x hx hout => ?_⟩
  have hlen : (tokens (normalize new)).length = (tokens new).length := by
    rw [tokens_normalize, List.length_map]
  have hside := hsides x hx (mt (htakes x hx).1 hout)
  rw [hlen] at hside
  refine ⟨fun hlast => ?_, fun hfirst => ?_⟩
  · have := hlast.ends_lt .inner
    omega
  · have := hfirst.le_begins .inner
    omega

/-- A backward selection from one element into another, over a third and a comment: these two go,
and a break behind the last selected character stays. -/
theorem exchange_replaceRange_crossing :
    let v := ofMarkup "<p>a<i>bc</i>d<b>e</b><!--x--><u>f<br></u>g</p>".toList .modern
    let sel : Selection := ⟨6, 2⟩
    let new := parse "<em>X</em>Y".toList
    let ts := tokens v.nodes
    let w := v.replaceRange sel .inner new
    IsNormal v.nodes ∧ w.markup = "<p>a<i>b</i><em>X</em>Y<u><br></u>g</p>".toList ∧
      ∃ (p : Place) (move : Nat → Nat), p.Open ∧ w.nodes = normalize (p.fill new) ∧
        Exchange v.nodes (sel.Takes ts) (normalize new) p.tokensBefore.length move w.nodes ∧
        ∀ x ∈ parts v.nodes, ¬sel.Takes ts x →
          (x.UpToLast sel ts → move x.ends < p.tokensBefore.length) ∧
            (x.FromFirst sel ts →
              p.tokensBefore.length + (tokens new).length ≤ move x.begins) := by
  intro v sel new ts w
  have hnormal : IsNormal v.nodes := isNormal_normalize _
  exact ⟨hnormal, by decide +kernel, exchange_replaceRange hnormal sel new⟩

end Canvas

end RichText
