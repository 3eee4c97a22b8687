import Mathlib.Tactic.Lemma
import RichText.Proofs.SeparateRanges
import RichText.Proofs.Stacking
import RichText.Proofs.Wrapping

/-!
Taking away formatting that was put on before. What was put in place of a selection stands between
the tags that the inner span left there, while the outer span of the same range may begin before
some of them and end behind others. A tag that stays outside of it that way is one that it would
have kept, so the plain text stands between the same tags as if nothing had been put on.
-/

namespace RichText

open Boundary

/-! ### Tags at the ends of a cut -/

/-- A stretch of a row as plain text, between the tags that are unmatched in it. -/
def plainStretch (us ms ws : List Token) : List Token :=
  us ++ (Unmatched.ofTokens ms).stopTokens ++
    ((charsOf ms).map .char ++ ((Unmatched.ofTokens ms).startTokens ++ ws))

section Stretch

variable {p : Token → Bool} {start stop : Nat} {us gs ks ms hs ws xs ts : List Token}

/-- End tags before a stretch may as well be in it. -/
lemma plainStretch_stopTokens (us ms ws : List Token) (u : Unmatched) :
    plainStretch (us ++ u.stopTokens) ms ws = plainStretch us (u.stopTokens ++ ms) ws := by
  have hsum : Unmatched.ofTokens (u.stopTokens ++ ms) =
      ⟨u.stops + (Unmatched.ofTokens ms).stops, (Unmatched.ofTokens ms).starts⟩ := by
    rw [Unmatched.ofTokens_append, Unmatched.ofTokens_stopTokens]
    simp [Unmatched.append_def]
  rw [plainStretch, plainStretch, hsum, charsOf_append, charsOf_stopTokens, List.nil_append]
  simp only [Unmatched.stopTokens, Unmatched.startTokens, List.replicate_add, List.append_assoc]

/-- Start tags behind it may as well be in it. -/
lemma plainStretch_startTokens (us ms ws : List Token) (u : Unmatched) :
    plainStretch us ms (u.startTokens ++ ws) = plainStretch us (ms ++ u.startTokens) ws := by
  have hsum : Unmatched.ofTokens (ms ++ u.startTokens) =
      ⟨(Unmatched.ofTokens ms).stops, u.starts ++ (Unmatched.ofTokens ms).starts⟩ := by
    rw [Unmatched.ofTokens_append, Unmatched.ofTokens_startTokens]
    simp [Unmatched.append_def]
  rw [plainStretch, plainStretch, hsum, charsOf_append, charsOf_startTokens, List.append_nil]
  simp only [Unmatched.stopTokens, Unmatched.startTokens, List.reverse_append, List.map_append,
    List.append_assoc]

/-- Where a row is cut, it is cut when tokens that may be passed over are put in further on: behind
them if nothing is before them, and else at the same place. -/
lemma CutAfter.exists_append (h : CutAfter p us (gs ++ ms))
    (hks : ∀ t ∈ ks, t.isChar = false ∧ p t = true) :
    ∃ as bs, gs ++ ks = as ++ bs ∧ (as = [] ∨ as = ks) ∧
      ∀ t rest, p t = false → CutAfter p (us ++ as) (bs ++ t :: rest) := by
  cases gs with
  | nil =>
    refine ⟨ks, [], by simp, .inr rfl, fun t rest ht => h.extend hks fun u us hus => ?_⟩
    rwa [← (List.cons.inj hus).1]
  | cons g gs =>
    refine ⟨[], g :: gs ++ ks, rfl, .inl rfl, fun t rest ht => ⟨?_, fun u us hus => ?_⟩⟩
    · rw [List.append_nil]
      exact h.passed
    · rw [← (List.cons.inj hus).1]
      exact h.stopped g _ rfl

/-- **The inner span** of a range is inside the outer one. -/
lemma OuterCut.exists_inner (h : OuterCut start stop us ms ws) (hlt : start < stop) :
    ∃ gs ks hs, ms = gs ++ ks ++ hs ∧
      last start (us ++ ms ++ ws) = (us ++ gs).length ∧
      first stop (us ++ ms ++ ws) = (us ++ gs).length + ks.length := by
  have hchars : stop ≤ (charsOf (us ++ ms ++ ws)).length := by
    rw [charsOf_append, List.length_append, h.stop_eq]
    exact Nat.le_add_right _ _
  have hlen : (us ++ ms ++ ws).length = us.length + ms.length + ws.length := by
    rw [List.length_append, List.length_append]
  have hbegins : us.length ≤ last start (us ++ ms ++ ws) := by
    refine (le_last_iff (by omega)).2 (Nat.le_of_eq ?_)
    rw [offset, List.append_assoc, List.take_left, h.start_eq]
  have hends : first stop (us ++ ms ++ ws) ≤ us.length + ms.length := by
    refine (first_le_iff hchars).2 (Nat.le_of_eq ?_)
    rw [offset, ← List.length_append, List.take_left, h.stop_eq]
  have hle : last start (us ++ ms ++ ws) < first stop (us ++ ms ++ ws) := by
    refine @lt_of_offset_lt (us ++ ms ++ ws) _ _ ?_
    rw [offset_last, offset_first]
    omega
  generalize last start (us ++ ms ++ ws) = i at *
  generalize first stop (us ++ ms ++ ws) = j at *
  refine ⟨ms.take (i - us.length), (ms.take (j - us.length)).drop (i - us.length),
    ms.drop (j - us.length), (take_append_slice_append_drop (by omega) ms).symm, ?_, ?_⟩
  · rw [List.length_append, List.length_take]
    omega
  · rw [List.length_append, List.length_drop, List.length_take, List.length_take]
    omega

/-- A row with characters that begins and ends with one or with a tag around all of it. -/
structure Solid (xs : List Token) : Prop where
  balanced : Balanced xs
  begins : ∃ t rest, xs = t :: rest ∧ (t.isStop || t.isLeaf) = false
  ends : ∃ t rest, xs.reverse = t :: rest ∧ (t.isStart || t.isLeaf) = false

/-- In a stretch, a solid row with the tags around it that a cut keeps is like what was cut out. -/
lemma plainStretch_replaced (hxs : Solid xs) (htext : charsOf xs = charsOf ks)
    (us gs hs ws : List Token) :
    plainStretch us (gs ++ (Unmatched.ofTokens ks).stopTokens ++ xs ++
        ((Unmatched.ofTokens ks).startTokens ++ hs)) ws = plainStretch us (gs ++ ks ++ hs) ws := by
  have hchars : charsOf (gs ++ (Unmatched.ofTokens ks).stopTokens ++ xs ++
      ((Unmatched.ofTokens ks).startTokens ++ hs)) = charsOf (gs ++ ks ++ hs) := by
    simp only [charsOf_append, charsOf_stopTokens, charsOf_startTokens, htext, List.append_nil,
      List.nil_append]
  have htags : Unmatched.ofTokens (gs ++ (Unmatched.ofTokens ks).stopTokens ++ xs ++
      ((Unmatched.ofTokens ks).startTokens ++ hs)) = Unmatched.ofTokens (gs ++ ks ++ hs) := by
    have hempty : Unmatched.ofTokens xs = {} := hxs.balanced
    have hkept := Unmatched.ofTokens_kept (Unmatched.ofTokens ks)
    generalize (Unmatched.ofTokens ks).stopTokens = stops at *
    generalize (Unmatched.ofTokens ks).startTokens = starts at *
    calc Unmatched.ofTokens (gs ++ stops ++ xs ++ (starts ++ hs))
        = Unmatched.ofTokens (gs ++ stops ++ (starts ++ hs)) := by
          rw [Unmatched.ofTokens_append, Unmatched.ofTokens_append (gs ++ stops), hempty,
            Unmatched.append_none, ← Unmatched.ofTokens_append]
      _ = Unmatched.ofTokens (gs ++ (stops ++ starts) ++ hs) := by simp only [List.append_assoc]
      _ = Unmatched.ofTokens (gs ++ ks ++ hs) := by
          rw [Unmatched.ofTokens_append, Unmatched.ofTokens_append gs, hkept,
            ← Unmatched.ofTokens_append, ← Unmatched.ofTokens_append]
  rw [plainStretch, plainStretch, hchars, htags]

/-- **A cut of the row** in which a solid row stands between the tags that the inner span left
there: of these tags, those next to the cut may have come to be outside of it. -/
lemma OuterCut.exists_replaced (h : OuterCut start stop us (gs ++ ks ++ hs) ws) (hxs : Solid xs)
    (htext : charsOf xs = charsOf ks) :
    ∃ as bs bs' as', gs ++ (Unmatched.ofTokens ks).stopTokens = as ++ bs ∧
      (as = [] ∨ as = (Unmatched.ofTokens ks).stopTokens) ∧
      (Unmatched.ofTokens ks).startTokens ++ hs = bs' ++ as' ∧
      (as' = [] ∨ as' = (Unmatched.ofTokens ks).startTokens) ∧
      OuterCut start stop (us ++ as) (bs ++ xs ++ bs') (as' ++ ws) := by
  have hbegins := h.begins
  have hends := h.ends
  rw [List.append_assoc] at hbegins
  rw [List.reverse_append] at hends
  have hstops : ∀ t ∈ (Unmatched.ofTokens ks).stopTokens,
      t.isChar = false ∧ (t.isStop || t.isLeaf) = true := by
    intro t ht
    rw [List.eq_of_mem_replicate ht]
    exact ⟨rfl, rfl⟩
  have hstarts : ∀ t ∈ (Unmatched.ofTokens ks).startTokens.reverse,
      t.isChar = false ∧ (t.isStart || t.isLeaf) = true := by
    intro t ht
    obtain ⟨tag, -, rfl⟩ := List.mem_map.1 (List.mem_reverse.1 ht)
    exact ⟨rfl, rfl⟩
  obtain ⟨as, bs, hleft, has, hcut⟩ := hbegins.exists_append hstops
  -- behind the span the row is read from its end
  obtain ⟨as', bs', hright, has', hcut'⟩ := hends.exists_append hstarts
  replace hright : (Unmatched.ofTokens ks).startTokens ++ hs = bs'.reverse ++ as'.reverse := by
    rw [← List.reverse_append, ← hright, List.reverse_append, List.reverse_reverse,
      List.reverse_reverse]
  replace has' : as'.reverse = [] ∨ as'.reverse = (Unmatched.ofTokens ks).startTokens :=
    has'.imp (fun h => by rw [h, List.reverse_nil]) fun h => by rw [h, List.reverse_reverse]
  have hasChars : charsOf as = [] := by
    rcases has with rfl | rfl
    · rfl
    · exact charsOf_stopTokens _
  have hasChars' : charsOf as'.reverse = [] := by
    rcases has' with h | h <;> rw [h]
    · rfl
    · exact charsOf_startTokens _
  refine ⟨as, bs, bs'.reverse, as'.reverse, hleft, has, hright, has', ?_, ?_, ?_, ?_⟩
  · rw [charsOf_append, hasChars, List.append_nil, h.start_eq]
  · have hbs := congrArg charsOf hleft
    have hbs' := congrArg charsOf hright
    simp only [charsOf_append, charsOf_stopTokens, charsOf_startTokens, hasChars, hasChars',
      List.append_nil, List.nil_append] at hbs hbs'
    rw [← h.stop_eq]
    simp only [charsOf_append, hasChars, htext, hbs, hbs', List.append_nil]
  · obtain ⟨t, rest, rfl, ht⟩ := hxs.begins
    have hfront := hcut t (rest ++ bs'.reverse) ht
    rwa [← List.cons_append, ← List.append_assoc] at hfront
  · obtain ⟨t, rest, hrest, ht⟩ := hxs.ends
    have hback := hcut' t (rest ++ bs.reverse) ht
    rw [← List.cons_append, ← hrest] at hback
    simpa using hback

/-- The row that such a cut makes plain. -/
lemma plainStretch_kept {as as' : List Token} {u : Unmatched} (has : as = [] ∨ as = u.stopTokens)
    (has' : as' = [] ∨ as' = u.startTokens) (us ms ws : List Token) :
    plainStretch (us ++ as) ms (as' ++ ws) = plainStretch us (as ++ ms ++ as') ws := by
  have hleft (ws : List Token) : plainStretch (us ++ as) ms ws = plainStretch us (as ++ ms) ws := by
    rcases has with rfl | rfl
    · rw [List.append_nil, List.nil_append]
    · exact plainStretch_stopTokens us ms ws u
  have hright (ms : List Token) :
      plainStretch us ms (as' ++ ws) = plainStretch us (ms ++ as') ws := by
    rcases has' with rfl | rfl
    · rw [List.append_nil, List.nil_append]
    · exact plainStretch_startTokens us ms ws u
  rw [hleft, hright]

/-- **What stands in place of the inner span** is gone when the same range is made plain text: the
row is that in which nothing but the text was there. -/
theorem plainRow_replaced (hlt : start < stop) (hle : stop ≤ (charsOf ts).length) (hxs : Solid xs)
    {r : Span} (hr : r = ⟨last start ts, first stop ts⟩) (htext : charsOf xs = r.text ts) :
    plainRow start stop (r.keptBefore ts ++ xs ++ r.keptAfter ts) = plainRow start stop ts := by
  obtain ⟨us, ms, ws, rfl, hcut⟩ := exists_outerCut hlt hle
  obtain ⟨gs, ks, hs, rfl, hlast, hfirst⟩ := hcut.exists_inner hlt
  have hrow : us ++ (gs ++ ks ++ hs) ++ ws = us ++ gs ++ ks ++ (hs ++ ws) := by
    simp only [List.append_assoc]
  rw [hlast, hfirst] at hr
  obtain ⟨hbefore, hafter⟩ := Span.kept_append (us ++ gs) ks (hs ++ ws)
  rw [← hrow, ← hr] at hbefore hafter
  rw [hrow, hr, Span.text, Span.inside_append] at htext
  obtain ⟨as, bs, bs', as', hleft, has, hright, has', hcut'⟩ := hcut.exists_replaced hxs htext
  have hnew : r.keptBefore (us ++ (gs ++ ks ++ hs) ++ ws) ++ xs ++
      r.keptAfter (us ++ (gs ++ ks ++ hs) ++ ws) =
        us ++ as ++ (bs ++ xs ++ bs') ++ (as' ++ ws) := by
    calc r.keptBefore (us ++ (gs ++ ks ++ hs) ++ ws) ++ xs ++
          r.keptAfter (us ++ (gs ++ ks ++ hs) ++ ws)
        = us ++ (gs ++ (Unmatched.ofTokens ks).stopTokens) ++ xs ++
            ((Unmatched.ofTokens ks).startTokens ++ hs) ++ ws := by
          rw [hbefore, hafter]
          simp only [List.append_assoc]
      _ = us ++ as ++ (bs ++ xs ++ bs') ++ (as' ++ ws) := by
          rw [hleft, hright]
          simp only [List.append_assoc]
  calc plainRow start stop (r.keptBefore (us ++ (gs ++ ks ++ hs) ++ ws) ++ xs ++
        r.keptAfter (us ++ (gs ++ ks ++ hs) ++ ws))
      = plainStretch (us ++ as) (bs ++ xs ++ bs') (as' ++ ws) := by
        rw [hnew, hcut'.plainRow_eq hlt]
        rfl
    _ = plainStretch us (as ++ bs ++ xs ++ (bs' ++ as')) ws := by
        rw [plainStretch_kept has has']
        simp only [List.append_assoc]
    _ = plainStretch us (gs ++ ks ++ hs) ws := by
        rw [← hleft, ← hright, plainStretch_replaced hxs htext]
    _ = plainRow start stop (us ++ (gs ++ ks ++ hs) ++ ws) := (hcut.plainRow_eq hlt).symm

end Stretch

/-- Elements around a text are such a row, and so is the text. -/
lemma solid_nested {tags : List Tag} (htags : ∀ tag ∈ tags, tag.isVoid = false) {s : Text}
    (hs : s ≠ []) : Solid (tokens [nested tags s]) := by
  refine ⟨balanced_tokens _, ?_, ?_⟩
  · cases tags with
    | nil =>
      obtain ⟨c, s, rfl⟩ := List.exists_cons_of_ne_nil hs
      exact ⟨.char c, _, rfl, rfl⟩
    | cons tag tags =>
      have htag : ¬tag.isVoid = true := Bool.eq_false_iff.1 (htags tag List.mem_cons_self)
      rw [nested_cons, tokens_cons, Node.tokens_element htag]
      exact ⟨.start tag, _, rfl, rfl⟩
  · cases tags with
    | nil =>
      obtain ⟨s, c, rfl⟩ := (List.eq_nil_or_concat' s).resolve_left hs
      exact ⟨.char c, (s.map Token.char).reverse, by simp [Node.tokens], rfl⟩
    | cons tag tags =>
      have htag : ¬tag.isVoid = true := Bool.eq_false_iff.1 (htags tag List.mem_cons_self)
      rw [nested_cons, tokens_cons, Node.tokens_element htag]
      exact ⟨.stop, (.start tag :: tokens [nested tags s]).reverse, by simp, rfl⟩

/-! ### Transforms that make elements -/

namespace Transform

lemma exists_forall₂_putsIn {transforms : List Transform}
    (h : ∀ t ∈ transforms, ∃ tag, t.PutsIn tag) : ∃ tags, List.Forall₂ PutsIn transforms tags := by
  induction transforms with
  | nil => exact ⟨[], .nil⟩
  | cons t ts ih =>
    obtain ⟨⟨tag, ht⟩, hts⟩ := List.forall_mem_cons.1 h
    obtain ⟨tags, hall⟩ := ih hts
    exact ⟨tag :: tags, .cons ht hall⟩

lemma isVoid_of_forall₂_putsIn {transforms : List Transform} {tags : List Tag}
    (h : List.Forall₂ PutsIn transforms tags) : ∀ tag ∈ tags, tag.isVoid = false := by
  induction h with
  | nil => exact List.forall_mem_nil _
  | cons ht _ ih => exact List.forall_mem_cons.2 ⟨ht.1, ih⟩

lemma needsText_of_tags? {t : Transform} (h : t.tags?.isSome = true) : t.needsText = true := by
  cases t with
  | wrap name => rfl
  | enclose o c => rfl
  | _ => cases h

/-- Of the standard closing tags only that of an image is void. -/
lemma isVoidName_of_mem_actions {settings : Settings} {a : Action}
    (ha : a ∈ Standard.actions settings) (hname : a.name ≠ "makeImage") {o c : Text}
    (h : a.transform = .enclose o c) : isVoidName c = false := by
  simp only [Standard.mem_actions, Standard.headings, Standard.alignments, Standard.styles,
    Standard.boxes, Standard.plainEdits, List.mem_cons, List.not_mem_nil, or_false] at ha
  rcases ha with ha | ha | ha | ha | rfl | rfl | ha
  · rcases ha with rfl | rfl | rfl | rfl <;> cases h
  · rcases ha with rfl | rfl | rfl | rfl <;> cases h <;> rfl
  · rcases ha with rfl | rfl | rfl | rfl <;> cases h
  · rcases ha with rfl | rfl | rfl | rfl | rfl | rfl <;> cases h <;> rfl
  · cases h
    rfl
  · exact absurd rfl hname
  · rcases ha with rfl | rfl | rfl | rfl <;> cases h

/-- **Standard actions of one insertion** put the text in an element, except that of an image. -/
lemma exists_putsIn_of_mem_actions {settings : Settings} (hlink : '"' ∉ settings.linkTarget)
    {a : Action} (ha : a ∈ Standard.actions settings) (hname : a.name ≠ "makeImage")
    (htags : a.transform.tags?.isSome = true) : ∃ tag, a.transform.PutsIn tag := by
  cases ht : a.transform with
  | wrap name =>
    have hplain := plain_of_mem_actions ha
    rw [ht] at hplain
    exact ⟨_, putsIn_wrap hplain⟩
  | enclose o c =>
    -- the source of the image does not matter for the other actions
    have ha' : a ∈ Standard.actions { settings with imageSource := [] } := by
      rw [Standard.mem_actions] at ha ⊢
      rcases ha with ha | ha | ha | ha | ha | rfl | ha
      all_goals first | exact absurd rfl hname | simp [ha]
    obtain ⟨hc, attributes, hattrs, rfl⟩ :=
      @spelled_of_mem_actions { settings with imageSource := [] } hlink List.not_mem_nil a ha' o c
        ht
    exact ⟨openingTag c attributes,
      (isVoid_plainTag c).trans (isVoidName_of_mem_actions ha hname ht), puts_enclose hc hattrs⟩
  | _ =>
    rw [ht] at htags
    cases htags

end Transform

/-! ### In a canvas -/

namespace Canvas

variable {v : Canvas} {sel : Selection} {tags : List Tag}

lemma min_lt_min_of_textIn (h : VoidsEmpty v.nodes) (hne : v.textIn sel ≠ []) :
    min sel.start v.length < min sel.stop v.length := by
  by_contra hge
  rw [textIn_eq_slice h] at hne
  refine hne (List.drop_eq_nil_of_le ?_)
  exact Nat.le_trans (List.length_take_le _ _) (Nat.not_lt.1 hge)

lemma isNormal_unformatRange (h : min sel.start v.length < min sel.stop v.length) :
    IsNormal (v.unformatRange sel).nodes := by
  unfold unformatRange
  split
  · next hcaret =>
    rw [Selection.isCaret_iff.1 hcaret] at h
    exact absurd h (Nat.lt_irrefl _)
  · exact isNormal_replaceSelected _ _ _ _

lemma length_stack (h : VoidsEmpty v.nodes) (htags : ∀ tag ∈ tags, tag.isVoid = false)
    (sel : Selection) : (v.stack sel tags (v.textIn sel)).length = v.length := by
  have hvoids := @voidsEmpty_nested tags (v.textIn sel) htags
  have htext := plainText_replaceSelected h hvoids sel .inner
  rw [plainText_nested, textIn_eq h, text, take_append_slice_append_drop sel.start_le_stop] at htext
  rw [length, text, nodes_stack, textIn_eq h, text, htext, length, text]

/-- **Making the text plain** that was put in elements is making the selection plain. -/
theorem unformatRange_stack (h : VoidsEmpty v.nodes) (hne : v.textIn sel ≠ [])
    (htags : ∀ tag ∈ tags, tag.isVoid = false) :
    ((v.stack sel tags (v.textIn sel)).unformatRange (v.placed sel (v.textIn sel))).nodes =
      (v.unformatRange sel).nodes := by
  have hlt := min_lt_min_of_textIn h hne
  have hwvoids := voidsEmpty_stack h htags sel (v.textIn sel)
  have hlen := length_charsOf_tokens h
  -- the range of the text is that of the selection, in a text of the same length
  have hplaced : v.placed sel (v.textIn sel) = sel.ordered.clamp v.length := placed_textIn h sel
  have hstart : min (v.placed sel (v.textIn sel)).start (v.stack sel tags (v.textIn sel)).length =
      min sel.start v.length := by
    rw [hplaced, start_ordered_clamp, length_stack h htags, Nat.min_assoc, Nat.min_self]
  have hstop : min (v.placed sel (v.textIn sel)).stop (v.stack sel tags (v.textIn sel)).length =
      min sel.stop v.length := by
    rw [hplaced, stop_ordered_clamp, length_stack h htags, Nat.min_assoc, Nat.min_self]
  have hspan := (span_of_lt (hlen.symm ▸ hlt)).1
  have hwlt : min (v.placed sel (v.textIn sel)).start (v.stack sel tags (v.textIn sel)).length <
      min (v.placed sel (v.textIn sel)).stop (v.stack sel tags (v.textIn sel)).length := by
    rw [hstart, hstop]
    exact hlt
  refine eq_of_tokens_eq (isNormal_unformatRange hwlt) (isNormal_unformatRange hlt) ?_
  rw [hlen] at hspan
  have htext : charsOf (tokens [nested tags (v.textIn sel)]) =
      (sel.span .inner (tokens v.nodes)).text (tokens v.nodes) := by
    rw [charsOf_tokens (voidsEmpty_nested htags), plainText_nested, textIn]
  calc tokens ((v.stack sel tags (v.textIn sel)).unformatRange (v.placed sel (v.textIn sel))).nodes
      = plainRow (min sel.start v.length) (min sel.stop v.length)
          (tokens (v.stack sel tags (v.textIn sel)).nodes) := by
        rw [tokens_unformatRange hwvoids hwlt, hstart, hstop]
    _ = plainRow (min sel.start v.length) (min sel.stop v.length) (tokens v.nodes) := by
        rw [nodes_stack, tokens_replaceSelected_of_voidsEmpty h (voidsEmpty_nested htags)]
        exact plainRow_replaced hlt (hlen.symm ▸ Nat.min_le_right _ _) (solid_nested htags hne)
          hspan htext
    _ = tokens (v.unformatRange sel).nodes := (tokens_unformatRange h hlt).symm

/-- Of a single range the range interface takes away the formatting that way. -/
lemma nodes_run_unformat (hhost : v.host.interface = .range) (hranges : v.ranges = [sel])
    (policy : Policy) :
    (Transform.unformat.run policy v).1.nodes = (v.unformatRange sel).nodes := by
  have hedit : (v.edit .unformat).nodes = (v.unformatRange sel).nodes := by
    simp only [edit, hhost, editRange, unformatRanges, hranges]
    rfl
  simp only [Transform.run, Transform.needsText, Bool.and_false]
  exact hedit

lemma run_of_not_selected (hnone : v.selectedText = []) {transforms : List Transform}
    (hneeds : ∀ t ∈ transforms, t.needsText = true) (policy : Policy) :
    v.run (transforms.map fun t => .transform t policy) = v := by
  induction transforms with
  | nil => rfl
  | cons t ts ih =>
    obtain ⟨ht, hts⟩ := List.forall_mem_cons.1 hneeds
    have hstep : v.step (.transform t policy) = v :=
      congrArg Prod.fst (Transform.run_of_not_selected hnone ht policy)
    rw [List.map_cons, run_cons, hstep, ih hts]

/-- **Taking away formatting** undoes a row of transforms that put the text in elements. -/
theorem nodes_unformat_run (h : VoidsEmpty v.nodes) (hhost : v.host.interface = .range)
    (hranges : v.ranges = [sel]) {transforms : List Transform}
    (hneeds : ∀ t ∈ transforms, t.needsText = true)
    (hputs : ∀ t ∈ transforms, ∃ tag, t.PutsIn tag) (policy : Policy) :
    (Transform.unformat.run policy
        (v.run (transforms.map fun t => .transform t .escaped))).1.nodes =
      (Transform.unformat.run policy v).1.nodes := by
  by_cases hne : v.selectedText = []
  · rw [run_of_not_selected hne hneeds]
  by_cases hnil : transforms = []
  · rw [hnil]
    rfl
  obtain ⟨tags, hall⟩ := Transform.exists_forall₂_putsIn hputs
  have htags := Transform.isVoid_of_forall₂_putsIn hall
  have hsel : v.primary? = some sel := by
    rw [primary?, hranges]
    rfl
  have htext : v.selectedText = v.textIn sel :=
    readPrimary_eq (fun hnone => by cases hhost.symm.trans hnone) hsel _
  have htagsne : tags ≠ [] := by
    rintro rfl
    exact hnil (List.forall₂_nil_right_iff.1 hall)
  have hwhost : (v.stack sel tags (v.textIn sel)).host.interface = .range := hhost
  rw [run_putsIn_all h hhost hsel hne hall htagsne, htext,
    nodes_run_unformat hwhost (ranges_stack h htags sel _), nodes_run_unformat hhost hranges,
    unformatRange_stack h (htext ▸ hne) htags]

end Canvas

/-! ### In a session -/

namespace Session

/-- Actions that are run in the canvas of a session are run one after the other. -/
lemma exists_run_acts {r : Registry} (hnames : r.names.Nodup) {as : List Action}
    (has : ∀ a ∈ as, a ∈ r.actions) {d : Views} (hd : d.active = .rendered) :
    ∃ e : Views, (⟨r, d⟩ : Session).run (as.map fun a => .act a.name) = ⟨r, e⟩ ∧
      e.active = .rendered ∧
      e.canvas = d.canvas.run (as.map fun a => .transform a.transform r.policy) := by
  induction as generalizing d with
  | nil => exact ⟨d, rfl, hd, rfl⟩
  | cons a as ih =>
    obtain ⟨ha, hrest⟩ := List.forall_mem_cons.1 has
    have hstep : ((⟨r, d⟩ : Session).step (.act a.name)).1 =
        ⟨r, (d.apply a.transform r.policy).1⟩ :=
      step_act_of_mem hnames ha
    obtain ⟨e, hrun, he, hcanvas⟩ := ih hrest ((Views.active_apply d _ _).trans hd)
    refine ⟨e, ?_, he, ?_⟩
    · rw [List.map_cons, run_cons, hstep, hrun]
    · rw [hcanvas, Views.canvas_apply_rendered hd]
      rfl

/-- **Taking away formatting** of a single range leaves the document that it leaves without the
actions run before it, as long as each of these put the selected text in an element. -/
theorem nodes_run_acts_unformat {settings : Settings} (hpolicy : settings.policy = .escaped)
    (hlink : '"' ∉ settings.linkTarget) {r : Registry}
    (hr : Registry.ofSettings settings [] = .ok r) {d : Views} (hd : d.active = .rendered)
    (h : VoidsEmpty d.canvas.nodes) (hhost : d.canvas.host.interface = .range) {sel : Selection}
    (hranges : d.canvas.ranges = [sel]) {as : List Action}
    (has : ∀ a ∈ as, a ∈ Standard.actions settings ∧ a.name ≠ "makeImage" ∧
      a.transform.tags?.isSome = true)
    {plain : String} (hplain : plain = "remoteTextTags" ∨ plain = "removeTextTags") :
    ((⟨r, d⟩ : Session).run (as.map (fun a => .act a.name) ++ [.act plain])).views.canvas.nodes =
      ((⟨r, d⟩ : Session).run [.act "remoteTextTags"]).views.canvas.nodes := by
  obtain rfl : ⟨Standard.actions settings, settings.policy⟩ = r := Except.ok.inj hr
  have hnames : (⟨Standard.actions settings, settings.policy⟩ : Registry).names.Nodup :=
    Standard.nodup_names settings
  have hrun {bs : List Action} (hbs : ∀ a ∈ bs, a ∈ Standard.actions settings) {name : String}
      (hname : name = "remoteTextTags" ∨ name = "removeTextTags") :
      ((⟨⟨Standard.actions settings, settings.policy⟩, d⟩ : Session).run
        (bs.map (fun a => .act a.name) ++ [.act name])).views.canvas =
        (Transform.unformat.run .escaped
          (d.canvas.run (bs.map fun a => .transform a.transform .escaped))).1 := by
    have hmem : (⟨name, .unformat⟩ : Action) ∈ Standard.actions settings := by
      rcases hname with rfl | rfl <;> simp [Standard.mem_actions, Standard.plainEdits]
    obtain ⟨e, he, -, hcanvas⟩ := exists_run_acts hnames
      (List.forall_mem_append.2 ⟨hbs, List.forall_mem_singleton.2 hmem⟩) hd
    rw [List.map_append, List.map_singleton] at he
    rw [he, hcanvas, hpolicy, List.map_append, Canvas.run_append]
    rfl
  have hputs : ∀ t ∈ as.map Action.transform, ∃ tag, t.PutsIn tag := by
    intro t ht
    obtain ⟨a, ha, rfl⟩ := List.mem_map.1 ht
    obtain ⟨hmem, hname, htags⟩ := has a ha
    exact Transform.exists_putsIn_of_mem_actions hlink hmem hname htags
  have hneeds : ∀ t ∈ as.map Action.transform, t.needsText = true := by
    intro t ht
    obtain ⟨a, ha, rfl⟩ := List.mem_map.1 ht
    exact Transform.needsText_of_tags? (has a ha).2.2
  have hundo := Canvas.nodes_unformat_run h hhost hranges hneeds hputs .escaped
  rw [List.map_map] at hundo
  have halone := @hrun [] (List.forall_mem_nil _) "remoteTextTags" (.inl rfl)
  rw [List.map_nil, List.nil_append] at halone
  rw [hrun (fun a ha => (has a ha).1) hplain, halone]
  exact hundo

/-- A link, a box and bold text are put on a selection of which the italics are a whole element and
the paragraph is cut, and taken away again with the italics. -/
theorem nodes_run_acts_unformat_three :
    let settings : Settings := { linkTarget := "?a&b<c".toList, policy := .escaped }
    let r : Registry := ⟨Standard.actions settings, .escaped⟩
    let d : Views := (Views.ofCanvas (.ofMarkup "<p>a<br>b</p><!--c--><i>c</i>d".toList
      .modern)).selectRendered (some ⟨3, 1⟩)
    let as := [Standard.link settings.linkTarget,
      Standard.enclose "makeCodeBox" "div class=\"well\" style=\"color: white;\"" "div",
      Standard.wrap "makeTextBold" "b"]
    ((⟨r, d⟩ : Session).run (as.map fun a => .act a.name)).views.source.content =
        ("<p>a<br></p><a target=\"_blank\" href=\"?a&amp;b&lt;c\"><div class=\"well\" " ++
          "style=\"color: white;\"><b>bc</b></div></a><i></i>d").toList ∧
      ((⟨r, d⟩ : Session).run [.act "remoteTextTags"]).views.source.content =
        "<p>a<br></p>bcd".toList ∧
      ((⟨r, d⟩ : Session).run
          (as.map (fun a => .act a.name) ++ [.act "removeTextTags"])).views.canvas.nodes =
        ((⟨r, d⟩ : Session).run [.act "remoteTextTags"]).views.canvas.nodes := by
  intro settings r d as
  have hwf : WellFormed d.canvas.nodes := wellFormed_normalize (wellFormed_parse _)
  have has : ∀ a ∈ as, a ∈ Standard.actions settings ∧ a.name ≠ "makeImage" ∧
      a.transform.tags?.isSome = true := by decide +kernel
  have hranges : d.canvas.ranges = [⟨3, 1⟩] := by decide +kernel
  exact ⟨by decide +kernel, by decide +kernel,
    nodes_run_acts_unformat rfl (by decide) rfl rfl hwf.voidsEmpty rfl hranges has (.inr rfl)⟩

end Session

end RichText
