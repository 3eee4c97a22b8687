import Mathlib.Data.List.Sort
import Mathlib.Tactic.Lemma
import RichText.Proofs.Conservation
import RichText.Proofs.Survival
import RichText.Proofs.Writing

/-!
The markup of a selection, read again. Its row is the outer span of the selection with the tags that
are missing there: the start tags of the elements that end in the span, and the end tags of those
that begin in it. So its parts are the parts of the document that have a token in the span, in their
order and one in the other as they were. An element around the span has its tags outside, and is not
among them.
-/

namespace RichText

open RichText.Part

/-! ### Parts in order -/

namespace Part

def Before (x y : Part) : Prop := x.begins < y.begins

instance : Std.Irrefl Before := ⟨fun x => Nat.lt_irrefl x.begins⟩

instance : Std.Antisymm Before := ⟨fun _ _ h h' => absurd h (Nat.lt_asymm h')⟩

variable {f : Nat → Nat}

lemma before_map_iff (hf : StrictMono f) {x y : Part} :
    (x.map f).Before (y.map f) ↔ x.Before y :=
  hf.lt_iff_lt

lemma encloses_map_iff (hf : StrictMono f) {x y : Part} :
    (x.map f).Encloses (y.map f) ↔ x.Encloses y :=
  and_congr hf.lt_iff_lt hf.lt_iff_lt

end Part

/-- **The parts of a document** are listed in the order in which they begin. -/
lemma pairwise_parts (ns : List Node) : (parts ns).Pairwise Before := by
  have hplaces : ((tokens ns).zipIdx 0).Pairwise fun ti tj => ti.2 < tj.2 := by
    rw [← List.pairwise_map (f := Prod.snd), List.zipIdx_map_snd]
    exact List.pairwise_lt_range'
  have hparts := hplaces.filter fun ti => !ti.1.isStop
  rw [← begins_partsFrom, List.pairwise_map] at hparts
  exact hparts

/-! ### Unmatched tags of a balanced row -/

lemma Unmatched.length_starts_le (ts : List Token) : (ofTokens ts).starts.length ≤ ts.length := by
  induction ts using List.reverseRecOn with
  | nil => exact Nat.le_refl 0
  | append_singleton ts t ih =>
    have hlast : (ofTokens [t]).starts.length ≤ 1 := by
      cases t <;> simp [ofTokens, step]
    rw [ofTokens_append, append_def, List.length_append, List.length_drop, List.length_append,
      List.length_singleton]
    omega

/-! ### Rows of which a part is left -/

section Rows

variable {us ms ws : List Token} {x : Part}

/-- **Without its beginning** a row has the parts that end behind it. The start tags of those that
begin before stay. -/
lemma exists_origin_behind (h : Balanced (us ++ ws)) :
    ∃ origin : Nat → Nat, StrictMono origin ∧
      (∀ i j, origin i < us.length + j ↔ i < (Unmatched.ofTokens us).kept.length + j) ∧
      ∀ x : Part, (∃ y : Part, y.In ((Unmatched.ofTokens us).kept ++ ws) ∧ x = y.map origin) ↔
        x.In (us ++ ws) ∧ us.length ≤ x.ends := by
  obtain ⟨origin, ho⟩ := @exists_origin [] us ws h
  refine ⟨origin, ho.mono, fun i j => ?_, fun x => ?_⟩
  · have hafter := ho.after j
    simp only [List.length_nil, Nat.zero_add] at hafter
    rw [← hafter, ho.mono.lt_iff_lt]
  · have hiff := ho.exists_iff (x := x)
    simp only [List.nil_append, List.length_nil, Nat.zero_le, Nat.zero_add, true_and,
      Nat.not_lt] at hiff
    exact hiff

/-- **Without its end** a row has the parts that begin before it. -/
lemma exists_origin_before (h : Balanced (us ++ ws)) :
    ∃ origin : Nat → Nat, StrictMono origin ∧
      (∀ i, ∀ j ≤ us.length, origin i < j ↔ i < j) ∧
      ∀ x : Part, (∃ y : Part, y.In (us ++ (Unmatched.ofTokens ws).kept) ∧ x = y.map origin) ↔
        x.In (us ++ ws) ∧ x.begins < us.length := by
  rw [← List.append_nil (us ++ ws)] at h
  obtain ⟨origin, ho⟩ := exists_origin h
  refine ⟨origin, ho.mono, fun i j hj => ⟨fun hi => ?_, fun hi => ?_⟩, fun x => ?_⟩
  · exact Nat.lt_of_le_of_lt ho.mono.le_apply hi
  · rw [ho.before i (Nat.lt_of_lt_of_le hi hj)]
    exact hi
  · have hiff := ho.exists_iff (x := x)
    rw [List.append_nil, List.append_nil] at hiff
    refine hiff.trans (and_congr_right fun hx => ?_)
    have hends := hx.ends_lt
    rw [List.length_append] at hends
    omega

/-- A part that begins before a stretch ends in it if the stretch has an end tag for every token
before it. -/
lemma Part.In.ends_lt_of_stops (hx : x.In (us ++ ms ++ ws)) (hbegins : x.begins < us.length)
    (hstops : us.length ≤ (Unmatched.ofTokens ms).stops) : x.ends < us.length + ms.length := by
  obtain ⟨vs, ks, rest, heq, hone, hvs, hends⟩ := hx
  by_contra hge
  rw [hvs] at hbegins
  rw [List.append_assoc, List.append_assoc] at heq
  obtain ⟨as, rfl, hrest⟩ := exists_append_of_length_le heq.symm (Nat.le_of_lt hbegins)
  rw [List.length_append] at hbegins hstops hge
  have hlong : (as ++ ms).length < ks.length := by
    rw [List.length_append]
    omega
  rw [← List.append_assoc] at hrest
  obtain ⟨bs, rfl, -⟩ := exists_append_of_length_le hrest.symm (Nat.le_of_lt hlong)
  have has : as ≠ [] := List.ne_nil_of_length_pos (by omega)
  obtain ⟨t, as, rfl⟩ := List.exists_cons_of_ne_nil has
  generalize hks : t :: as ++ ms ++ bs = ks at hone hlong
  generalize x.token = first at hone
  cases hone with
  | char c => simp at hlong
  | leaf n => simp at hlong
  | @element tag inside hin =>
    -- what is between its tags would have an end tag too many
    rw [List.cons_append, List.cons_append] at hks
    obtain ⟨cs, hcs, -⟩ := exists_append_of_length_le (List.cons.inj hks).2 (by
      simp only [List.length_append, List.length_cons, List.length_nil] at hlong ⊢
      omega)
    have hzero := (hcs ▸ hin : Balanced (as ++ ms ++ cs)).stops_eq_zero
    have hstarts := Unmatched.length_starts_le as
    rw [Unmatched.ofTokens_append, Unmatched.append_def] at hzero
    simp only [List.length_cons] at hstops hzero
    omega

/-- A part of a row of start tags and end tags is around what is between them. -/
lemma Part.In.around_of_tags {u v : Unmatched} (hx : x.In (u.startTokens ++ v.stopTokens)) :
    x.begins < u.startTokens.length ∧ u.startTokens.length ≤ x.ends := by
  constructor
  · by_contra hge
    have hget := hx.getElem?
    rw [List.getElem?_append_right (Nat.le_of_not_lt hge)] at hget
    exact hx.ne_stop (List.eq_of_mem_replicate (List.mem_of_getElem? hget))
  · by_contra hlt
    obtain ⟨t, hget, hstart⟩ := hx.getElem?_ends
    rw [List.getElem?_append_left (Nat.lt_of_not_le hlt)] at hget
    obtain ⟨tag, -, rfl⟩ := List.mem_map.1 (List.mem_of_getElem? hget)
    cases hstart

end Rows

/-! ### Clones -/

namespace Span

/-- A part has one of its tokens in a span at least. -/
def Touches (r : Span) (x : Part) : Prop :=
  r.start ≤ x.begins ∧ x.begins < r.stop ∨ r.start ≤ x.ends ∧ x.ends < r.stop

instance (r : Span) : DecidablePred r.Touches := fun _ => inferInstanceAs (Decidable (_ ∨ _))

lemma Touches.bounds {r : Span} {x : Part} (h : r.Touches x) (hx : x.begins ≤ x.ends) :
    r.start ≤ x.ends ∧ x.begins < r.stop := by
  rw [Touches] at h
  omega

/-- The elements around the whole of a span, innermost first. -/
def around (r : Span) (ts : List Token) : List Tag :=
  (Unmatched.ofTokens (r.before ts)).starts.drop (Unmatched.ofTokens (r.inside ts)).stops

variable {r : Span} {ts : List Token} {x : Part}

lemma length_cut (h : r.start ≤ r.stop) (hts : Balanced ts) :
    (r.cut ts).length = (Unmatched.ofTokens (r.inside ts)).stops := by
  rw [cut, List.length_take, Nat.min_eq_left (stops_inside_le h hts)]

lemma length_startTokens (tags : List Tag) :
    (Unmatched.startTokens ⟨0, tags⟩).length = tags.length := by
  simp [Unmatched.startTokens]

/-- What is left of a row before a span: start tags of the elements that reach into it. -/
lemma kept_before (h : r.start ≤ r.stop) (hts : Balanced ts) :
    (Unmatched.ofTokens (r.before ts)).kept =
      Unmatched.startTokens ⟨0, r.around ts⟩ ++ Unmatched.startTokens ⟨0, r.cut ts⟩ := by
  rw [← split h ts, List.append_assoc] at hts
  have hstops : (Unmatched.ofTokens (r.before ts)).stops = 0 := hts.stops_eq_zero
  have hstarts : (Unmatched.ofTokens (r.before ts)).starts = r.cut ts ++ r.around ts :=
    (List.take_append_drop _ _).symm
  simp [Unmatched.kept, Unmatched.stopTokens, Unmatched.startTokens, hstops, hstarts]

/-- What is left of it behind a span: end tags of the elements that begin in it, and of those
around it. -/
lemma kept_after (h : r.start ≤ r.stop) (hts : Balanced ts) :
    (Unmatched.ofTokens (r.after ts)).kept =
      Unmatched.stopTokens ⟨(Unmatched.ofTokens (r.inside ts)).starts.length, []⟩ ++
        Unmatched.stopTokens ⟨(r.around ts).length, []⟩ := by
  have hle := stops_inside_le h hts
  rw [← split h ts] at hts
  have hstarts : (Unmatched.ofTokens (r.after ts)).starts = [] := hts.starts_eq_nil
  have hstops : (Unmatched.ofTokens (r.after ts)).stops =
      (Unmatched.ofTokens (r.inside ts)).starts.length + (r.around ts).length := by
    rw [Balanced, Unmatched.ofTokens_append, Unmatched.ofTokens_append] at hts
    have hnone := congrArg Unmatched.stops hts
    have hnone' := congrArg Unmatched.starts hts
    simp only [Unmatched.append_def, List.append_eq_nil_iff, List.drop_eq_nil_iff,
      List.length_append, List.length_drop] at hnone hnone'
    rw [around, List.length_drop]
    omega
  simp only [Unmatched.kept, Unmatched.stopTokens, Unmatched.startTokens, hstops, hstarts,
    List.replicate_add, List.reverse_nil, List.map_nil, List.append_nil]

/-- What is left of both sides of a span are the tags that make it whole, and those around it. -/
lemma kept_append_kept (h : r.start ≤ r.stop) (hts : Balanced ts) :
    (Unmatched.ofTokens (r.before ts)).kept ++ r.inside ts ++
        (Unmatched.ofTokens (r.after ts)).kept =
      Unmatched.startTokens ⟨0, r.around ts⟩ ++ r.whole ts ++
        Unmatched.stopTokens ⟨(r.around ts).length, []⟩ := by
  rw [kept_before h hts, kept_after h hts, whole]
  simp only [List.append_assoc]

lemma length_kept_before (h : r.start ≤ r.stop) (hts : Balanced ts) :
    (Unmatched.ofTokens (r.before ts)).kept.length = (r.around ts).length + (r.cut ts).length := by
  rw [kept_before h hts, List.length_append, length_startTokens, length_startTokens]

/-- **Of the parts of a span made whole**, each has a token in the span. In a row with the tags of
the elements around the span, the other parts have none. -/
lemma in_whole_iff (h : r.start ≤ r.stop) (hts : Balanced ts) :
    (∃ y : Part, y.In (r.whole ts) ∧ x = y.map ((r.around ts).length + ·)) ↔
      x.In (Unmatched.startTokens ⟨0, r.around ts⟩ ++ r.whole ts ++
        Unmatched.stopTokens ⟨(r.around ts).length, []⟩) ∧
      ¬(x.begins < (r.around ts).length + (r.cut ts).length ∧
        (r.around ts).length + (r.cut ts).length + (r.inside ts).length ≤ x.ends) := by
  have hwhole := balanced_whole h hts
  have hrow : r.whole ts = Unmatched.startTokens ⟨0, r.cut ts⟩ ++ r.inside ts ++
      Unmatched.stopTokens ⟨(Unmatched.ofTokens (r.inside ts)).starts.length, []⟩ := rfl
  have hlen : (r.cut ts).length + (r.inside ts).length ≤ (r.whole ts).length := by
    rw [hrow, List.length_append, List.length_append, length_startTokens]
    omega
  have houter : Balanced (Unmatched.startTokens ⟨0, r.around ts⟩ ++
      Unmatched.stopTokens ⟨(r.around ts).length, []⟩) := by
    rw [Balanced, Unmatched.ofTokens_append, Unmatched.ofTokens_startTokens,
      Unmatched.ofTokens_stopTokens]
    simp [Unmatched.append_def]
  have hin := in_insert_iff (x := x) hwhole houter
  rw [length_startTokens] at hin
  constructor
  · rintro ⟨y, hy, rfl⟩
    refine ⟨hin.2 (.inr ⟨y, hy, rfl⟩), ?_⟩
    rintro ⟨hbegins, hends⟩
    rw [begins_map] at hbegins
    rw [ends_map] at hends
    -- the elements that are cut end in the span
    have hinside := (hrow ▸ hy).ends_lt_of_stops (by rw [length_startTokens]; omega)
      (by rw [length_startTokens, length_cut h hts])
    rw [length_startTokens] at hinside
    omega
  · rintro ⟨hx, haround⟩
    rcases hin.1 hx with ⟨y, hy, rfl⟩ | hy
    · obtain ⟨hbegins, hends⟩ := hy.around_of_tags
      rw [length_startTokens] at hbegins hends
      refine absurd ⟨?_, ?_⟩ haround
      · rw [begins_map, shift_of_lt hbegins]
        exact Nat.lt_add_right _ hbegins
      · rw [ends_map, shift_of_le hends]
        omega
    · exact hy

/-- Of a row without its beginning and then without its end, those parts have a token in the span
that come from before and behind it and are not around what is left of it. -/
lemma touches_map_map_iff {f g : Nat → Nat} {n : Nat} (h : r.start ≤ r.stop)
    (hf : ∀ i j, f i < r.start + j ↔ i < n + j)
    (hg : ∀ i, ∀ j ≤ n + (r.stop - r.start), g i < j ↔ i < j) (hx : x.begins ≤ x.ends) :
    r.Touches ((x.map g).map f) ↔ r.start ≤ f (g x.ends) ∧ g x.begins < n + (r.stop - r.start) ∧
      ¬(x.begins < n ∧ n + (r.stop - r.start) ≤ x.ends) := by
  have hstart := hf (g x.begins) 0
  have hstart' := hf (g x.ends) 0
  have hstop := hf (g x.begins) (r.stop - r.start)
  have hstop' := hf (g x.ends) (r.stop - r.start)
  have hbegins := hg x.begins n (Nat.le_add_right _ _)
  have hbegins' := hg x.begins _ (Nat.le_refl _)
  have hends := hg x.ends n (Nat.le_add_right _ _)
  have hends' := hg x.ends _ (Nat.le_refl _)
  simp only [Touches, begins_map, ends_map]
  omega

/-- **The parts of a span made whole** come from places of the row, and of the parts of the row they
are just those with a token in the span. -/
theorem exists_origin_whole (h : r.start ≤ r.stop) (hstop : r.stop ≤ ts.length)
    (hts : Balanced ts) :
    ∃ origin : Nat → Nat, StrictMono origin ∧ ∀ x : Part,
      (∃ y : Part, y.In (r.whole ts) ∧ x = y.map origin) ↔ x.In ts ∧ r.Touches x := by
  have hsplit := split h ts
  have hbalanced : Balanced (r.before ts ++ (r.inside ts ++ r.after ts)) := by
    rwa [← List.append_assoc, hsplit]
  have hkept : Balanced ((Unmatched.ofTokens (r.before ts)).kept ++ r.inside ts ++ r.after ts) := by
    rw [List.append_assoc]
    exact (@balanced_kept_iff [] _ _).2 hbalanced
  -- first what is before the span is left out, and of what is left then what is behind it
  obtain ⟨f, hf, hfplace, hfpart⟩ := exists_origin_behind hbalanced
  obtain ⟨g, hg, hgplace, hgpart⟩ := exists_origin_before hkept
  rw [← List.append_assoc, ← List.append_assoc, hsplit] at hfpart
  rw [kept_append_kept h hts] at hgpart
  rw [length_before (Nat.le_trans h hstop), length_kept_before h hts] at hfplace
  rw [length_before (Nat.le_trans h hstop)] at hfpart
  rw [List.length_append, length_kept_before h hts, length_inside hstop] at hgplace hgpart
  have hwhole (z : Part) := in_whole_iff (x := z) h hts
  rw [length_inside hstop] at hwhole
  have hmono : StrictMono (f ∘ g ∘ ((r.around ts).length + ·)) :=
    hf.comp (hg.comp fun _ _ hij => Nat.add_lt_add_left hij _)
  refine ⟨_, hmono, fun x => ⟨?_, ?_⟩⟩
  · rintro ⟨y, hy, rfl⟩
    obtain ⟨hz, haround⟩ := (hwhole _).1 ⟨y, hy, rfl⟩
    obtain ⟨hz', hbegins⟩ := (hgpart _).1 ⟨_, hz, rfl⟩
    obtain ⟨hx, hends⟩ := (hfpart _).1 ⟨_, hz', rfl⟩
    exact ⟨hx, (touches_map_map_iff h hfplace hgplace hz.begins_le_ends).2
      ⟨hends, hbegins, haround⟩⟩
  · rintro ⟨hx, htouch⟩
    obtain ⟨hstart, hbegins⟩ := htouch.bounds hx.begins_le_ends
    obtain ⟨z', hz', rfl⟩ := (hfpart _).2 ⟨hx, hstart⟩
    rw [begins_map, ← Nat.add_sub_of_le h, hfplace] at hbegins
    obtain ⟨z, hz, rfl⟩ := (hgpart _).2 ⟨hz', hbegins⟩
    obtain ⟨-, -, haround⟩ :=
      (touches_map_map_iff h hfplace hgplace hz.begins_le_ends).1 htouch
    obtain ⟨y, hy, rfl⟩ := (hwhole _).2 ⟨hz, haround⟩
    exact ⟨y, hy, rfl⟩

/-! ### The markup of a span and its row -/

lemma charsOf_whole : charsOf (r.whole ts) = r.text ts := by
  rw [whole, charsOf_append, charsOf_append, charsOf_startTokens, charsOf_stopTokens,
    List.nil_append, List.append_nil, text]

lemma whole_of_eq (h : r.start = r.stop) : r.whole ts = [] := by
  have hinside : r.inside ts = [] := by
    rw [inside, List.drop_eq_nil_iff, List.length_take]
    omega
  have hnone : Unmatched.ofTokens [] = {} := rfl
  rw [whole, cut, hinside, hnone, List.take_zero]
  rfl

lemma markup_of_eq (h : r.start = r.stop) : r.markup ts = [] :=
  if_pos (decide_eq_true (Nat.le_of_eq h.symm))

/-- **The markup of a span** is written as it reads, and its row is the span's made whole. -/
theorem markup_parse_markup {ns : List Node} (hns : WellFormed ns) (h : r.start ≤ r.stop) :
    RichText.markup (parse (r.markup (tokens ns))) = r.markup (tokens ns) ∧
      tokens (parse (r.markup (tokens ns))) = r.whole (tokens ns) := by
  rcases Nat.eq_or_lt_of_le h with heq | hlt
  · rw [markup_of_eq heq, whole_of_eq heq, parse_nil]
    exact ⟨rfl, rfl⟩
  · have hrow := tokens_parse_markup hns hlt
    refine ⟨?_, hrow⟩
    calc RichText.markup (parse (r.markup (tokens ns)))
        = tokensMarkup [] (tokens (parse (r.markup (tokens ns)))) := (tokensMarkup_tokens _).symm
      _ = tokensMarkup [] (r.whole (tokens ns)) := by rw [hrow]
      _ = r.markup (tokens ns) := (markup_eq hlt).symm

/-- **The parts of the markup of a span**, in their order. -/
theorem map_parts_parse_markup {ns : List Node} (hns : WellFormed ns) (h : r.start ≤ r.stop)
    (hstop : r.stop ≤ (tokens ns).length) :
    ∃ origin : Nat → Nat, StrictMono origin ∧
      (parts (parse (r.markup (tokens ns)))).map (Part.map origin) =
        (parts ns).filter fun x => r.Touches x := by
  obtain ⟨origin, hmono, hiff⟩ := exists_origin_whole h hstop (balanced_tokens ns)
  have hmapped : ((parts (parse (r.markup (tokens ns)))).map (Part.map origin)).Pairwise Before :=
    List.pairwise_map.2 ((pairwise_parts _).imp fun hxy => (before_map_iff hmono).2 hxy)
  refine ⟨origin, hmono, hmapped.eq_of_mem_iff ((pairwise_parts ns).filter _) fun x => ?_⟩
  rw [List.mem_filter, decide_eq_true_iff, mem_parts_iff, ← hiff, List.mem_map,
    ← (markup_parse_markup hns h).2]
  simp only [mem_parts_iff, eq_comm]

end Span

namespace Canvas

variable {v : Canvas}

lemma readPrimary_of_forall (h : ∀ sel, v.primary? = some sel → v.host.interface = .unavailable)
    (read : Selection → Text) : v.readPrimary read = [] := by
  unfold readPrimary
  split
  · rfl
  · rfl
  · next sel hsel hhost => exact absurd (h sel hsel) hhost

/-- **The markup of a selection** reads as a document that is written the same and has the selected
text. Its parts are those of the canvas that have a token in the outer span of the selection: the
same tags, leaves and characters, in the same order and one in the other as they were. -/
theorem parts_parse_selectedMarkup (h : WellFormed v.nodes) :
    RichText.markup (parse v.selectedMarkup) = v.selectedMarkup ∧
      plainText (parse v.selectedMarkup) = v.selectedText ∧
      ∀ sel, v.host.interface ≠ .unavailable → v.primary? = some sel →
        ∃ origin : Nat → Nat, StrictMono origin ∧
          (parts (parse v.selectedMarkup)).map (Part.map origin) =
            (parts v.nodes).filter (fun x => (sel.span .outer (tokens v.nodes)).Touches x) ∧
          ∀ x y : Part, (x.map origin).Encloses (y.map origin) ↔ x.Encloses y := by
  by_cases hread : ∀ sel, v.primary? = some sel → v.host.interface = .unavailable
  · rw [selectedMarkup, selectedText, readPrimary_of_forall hread, readPrimary_of_forall hread,
      parse_nil]
    exact ⟨rfl, rfl, fun sel hhost hsel => absurd (hread sel hsel) hhost⟩
  · push Not at hread
    obtain ⟨sel, hsel, hhost⟩ := hread
    have hle := span_start_le_stop sel .outer (tokens v.nodes)
    obtain ⟨hmarkup, hrow⟩ := Span.markup_parse_markup h hle
    rw [selectedMarkup, selectedText, readPrimary_eq hhost hsel, readPrimary_eq hhost hsel,
      markupIn]
    refine ⟨hmarkup, ?_, fun sel' _ hsel' => ?_⟩
    · rw [← charsOf_tokens (wellFormed_parse _).voidsEmpty, hrow, Span.charsOf_whole, textIn,
        text_span, text_span]
    · obtain rfl : sel = sel' := Option.some.inj (hsel.symm.trans hsel')
      obtain ⟨origin, hmono, hparts⟩ := Span.map_parts_parse_markup h hle
        (span_stop_le_length sel .outer (tokens v.nodes))
      exact ⟨origin, hmono, hparts, fun x y => encloses_map_iff hmono⟩

/-- A selection from one item into the next, backwards: the list around both is not in its markup,
the items that are cut and the comment between are. -/
theorem parts_parse_selectedMarkup_items :
    let v := (ofMarkup "<ul><li>a<i>b</i></li><li><!--c--><br>d<b>e</b></li></ul>".toList
      .legacy).select (some ⟨3, 1⟩)
    WellFormed v.nodes ∧ v.selectedText = "bd".toList ∧
      v.selectedMarkup = "<li><i>b</i></li><li><!--c--><br>d</li>".toList ∧
      (parts v.nodes).length = 11 ∧ (parts (parse v.selectedMarkup)).length = 7 ∧
      RichText.markup (parse v.selectedMarkup) = v.selectedMarkup ∧
      plainText (parse v.selectedMarkup) = v.selectedText ∧
      ∃ origin : Nat → Nat, StrictMono origin ∧
        (parts (parse v.selectedMarkup)).map (Part.map origin) = (parts v.nodes).filter
          (fun x => (Selection.span ⟨3, 1⟩ .outer (tokens v.nodes)).Touches x) ∧
        ∀ x y : Part, (x.map origin).Encloses (y.map origin) ↔ x.Encloses y := by
  intro v
  have hwf : WellFormed v.nodes := wellFormed_normalize (wellFormed_parse _)
  obtain ⟨hmarkup, htext, hparts⟩ := parts_parse_selectedMarkup hwf
  exact ⟨hwf, by decide +kernel, by decide +kernel, by decide +kernel, by decide +kernel, hmarkup,
    htext, hparts _ (by decide) (by decide +kernel)⟩

end Canvas

end RichText
