import Mathlib.Tactic.Lemma
import RichText.Markup.Printer
import RichText.Markup.WellFormed
import RichText.Proofs.Escape

/-!
Reading a start tag: what was written is read back, and whatever is read is well-formed. A quoted
attribute is read the same way however its value is spelled.
-/

namespace RichText.StartTag

open Ascii

/-! ### Case -/

lemma toNat_toLower (c : Char) :
    c.toLower.toNat = if 65 ≤ c.toNat ∧ c.toNat ≤ 90 then c.toNat + 32 else c.toNat := by
  unfold Char.toLower
  split
  · next h =>
    have hA : 65 ≤ c.toNat := h.1
    have hZ : c.val.toNat ≤ 90 := h.2
    have hdiff : ('a'.val - 'A'.val).toNat = 32 := by decide
    rw [if_pos ⟨hA, hZ⟩]
    show (c.val + ('a'.val - 'A'.val)).toNat = c.val.toNat + 32
    rw [UInt32.toNat_add]
    omega
  · next h => exact (if_neg h).symm

lemma isAlpha_iff {c : Char} : c.isAlpha = true ↔
    (65 ≤ c.toNat ∧ c.toNat ≤ 90) ∨ (97 ≤ c.toNat ∧ c.toNat ≤ 122) := by
  have hupper : c.isUpper = decide ('A'.val ≤ c.val ∧ c.val ≤ 'Z'.val) := rfl
  have hlower : c.isLower = (decide ('a'.val ≤ c.val) && decide (c.val ≤ 'z'.val)) := rfl
  have halpha : c.isAlpha = (c.isUpper || c.isLower) := rfl
  simp only [halpha, hupper, hlower, Bool.or_eq_true, Bool.and_eq_true, decide_eq_true_eq,
    UInt32.le_iff_toNat_le]
  exact Iff.rfl

lemma isAlpha_toLower {c : Char} (h : c.isAlpha = true) : c.toLower.isAlpha = true := by
  rw [isAlpha_iff] at h
  rw [isAlpha_iff, toNat_toLower]
  split <;> omega

/-- Only a letter becomes a letter in lower case. -/
lemma toLower_beq {c d : Char} (hd : d.isAlpha = false) : (c.toLower == d) = (c == d) := by
  rw [← Bool.not_eq_true, isAlpha_iff] at hd
  rw [Bool.eq_iff_iff, beq_iff_eq, beq_iff_eq, ← Char.toNat_inj, ← Char.toNat_inj, toNat_toLower]
  split <;> omega

lemma toLower_toLower (c : Char) : c.toLower.toLower = c.toLower := by
  rw [← Char.toNat_inj, toNat_toLower c.toLower, if_neg]
  rw [toNat_toLower]
  split <;> omega

lemma lower_lower (s : Text) : lower (lower s) = lower s := by
  simp only [lower, List.map_map]
  exact List.map_congr_left fun c _ => toLower_toLower c

lemma isBlank_toLower (c : Char) : isBlank c.toLower = isBlank c := by
  simp only [isBlank, toLower_beq (by decide : Char.isAlpha ' ' = false),
    toLower_beq (by decide : Char.isAlpha '\t' = false),
    toLower_beq (by decide : Char.isAlpha '\n' = false),
    toLower_beq (by decide : Char.isAlpha '\x0c' = false),
    toLower_beq (by decide : Char.isAlpha '\r' = false)]

lemma isNameChar_toLower (c : Char) : isNameChar c.toLower = isNameChar c := by
  simp only [isNameChar, isBlank_toLower, toLower_beq (by decide : Char.isAlpha '/' = false),
    toLower_beq (by decide : Char.isAlpha '>' = false)]

lemma isAttributeChar_toLower (c : Char) : isAttributeChar c.toLower = isAttributeChar c := by
  simp only [isAttributeChar, isBlank_toLower, toLower_beq (by decide : Char.isAlpha '/' = false),
    toLower_beq (by decide : Char.isAlpha '>' = false),
    toLower_beq (by decide : Char.isAlpha '=' = false)]

/-! ### Names -/

lemma isNameChar_of_isAlphanum {c : Char} (h : c.isAlphanum = true) : isNameChar c = true := by
  have hne (d : Char) (hd : ¬d.isAlphanum = true) : (c == d) = false :=
    beq_false_of_ne (by rintro rfl; exact hd h)
  simp [isNameChar, isBlank, hne ' ' (by decide), hne '\t' (by decide), hne '\n' (by decide),
    hne '\x0c' (by decide), hne '\r' (by decide), hne '/' (by decide), hne '>' (by decide)]

lemma isNameChar_of_isAlpha {c : Char} (h : c.isAlpha = true) : isNameChar c = true :=
  isNameChar_of_isAlphanum (by simp [Char.isAlphanum, h])

/-- Element names as actions give them begin with a letter, and reading does not cut them short. -/
lemma exists_cons_of_isElementName {s : Text} (h : isElementName s = true) :
    ∃ c r, s = c :: r ∧ c.isAlpha = true ∧ ∀ d ∈ s, isNameChar d = true := by
  cases s with
  | nil => simp [isElementName] at h
  | cons c r =>
    rw [isElementName, Bool.and_eq_true, List.all_eq_true] at h
    refine ⟨c, r, rfl, h.1, fun d hd => ?_⟩
    rcases List.mem_cons.1 hd with rfl | hd
    · exact isNameChar_of_isAlpha h.1
    · have hchar := h.2 d hd
      simp only [Bool.or_eq_true, beq_iff_eq] at hchar
      rcases hchar with (((h | rfl) | rfl) | rfl) | rfl
      · exact isNameChar_of_isAlphanum h
      all_goals decide

/-- A name in lower case, if it begins with a letter, is one that reading gives. -/
lemma isReadName_lower {c : Char} {s : Text} (hc : c.isAlpha = true)
    (hs : ∀ d ∈ c :: s, isNameChar d = true) : IsReadName (lower (c :: s)) := by
  refine ⟨⟨c.toLower, lower s, rfl, isAlpha_toLower hc⟩, ?_, lower_lower _⟩
  rw [List.all_eq_true]
  intro d hd
  obtain ⟨e, he, rfl⟩ := List.mem_map.1 hd
  rw [isNameChar_toLower]
  exact hs e he

/-- Reading an element name stops where its characters do. -/
lemma read?_append {name rest : Text} (hname : ∀ c ∈ name, isNameChar c = true)
    (hrest : ∀ c ∈ rest.head?, isNameChar c = false) :
    read? (name ++ rest) =
      (readAttributes? rest).map fun p => (⟨lower name, firstOfName p.1⟩, p.2) := by
  rw [read?, takeWhile_append_of_head hname hrest, dropWhile_append_of_head hname hrest]

/-! ### Attributes -/

lemma readQuoted?_append {q : Char} {raw : Text} (h : q ∉ raw) (rest : Text) :
    readQuoted? q (raw ++ q :: rest) = some (raw, rest) := by
  induction raw with
  | nil => simp [readQuoted?]
  | cons c raw ih =>
    rw [List.mem_cons, not_or] at h
    rw [List.cons_append, readQuoted?, if_neg (fun e => h.1 e.symm), ih h.2]
    rfl

/-- A name of an attribute in either case. -/
def IsAttributeName (s : Text) : Prop := s = ['='] ∨ s ≠ [] ∧ s.all isAttributeChar = true

/-- A name of an attribute begins where separators end, and is not the end of the tag. -/
lemma IsAttributeName.head {c : Char} {more : Text} (h : IsAttributeName (c :: more)) :
    isSeparator c = false ∧ c ≠ '>' := by
  rcases h with h | ⟨-, h⟩
  · obtain ⟨rfl, rfl⟩ := List.cons.inj h
    decide
  · rw [List.all_cons, Bool.and_eq_true] at h
    have hattr := h.1
    simp only [isAttributeChar, Bool.not_eq_true', Bool.or_eq_false_iff, beq_eq_false_iff_ne]
      at hattr
    simp [isSeparator, hattr]

/-- Reading a name of an attribute stops where its characters do. -/
lemma IsAttributeName.takeWhile {c : Char} {more t : Text} (h : IsAttributeName (c :: more))
    (ht : ∀ d ∈ t.head?, isAttributeChar d = false) :
    (if c = '=' then [] else (more ++ t).takeWhile isAttributeChar) = more := by
  rcases h with h | ⟨-, h⟩
  · obtain ⟨rfl, rfl⟩ := List.cons.inj h
    rfl
  · rw [List.all_cons, Bool.and_eq_true, List.all_eq_true] at h
    have hc : c ≠ '=' := by
      rintro rfl
      exact absurd h.1 (by decide)
    rw [if_neg hc, takeWhile_append_of_head h.2 ht]

lemma readAttribute?_append {c : Char} {more t r : Text} (h : IsAttributeName (c :: more))
    (ht : ∀ d ∈ t.head?, isAttributeChar d = false) (hr : t.dropWhile isBlank = '=' :: r) :
    readAttribute? c (more ++ t) =
      (readValue? (r.dropWhile isBlank)).map fun p => (⟨lower (c :: more), decode p.1⟩, p.2) := by
  simp only [readAttribute?, h.takeWhile ht, List.drop_left, hr]

lemma readAttribute?_append_of_ne {c : Char} {more t : Text} (h : IsAttributeName (c :: more))
    (ht : ∀ d ∈ t.head?, isAttributeChar d = false) (hr : ∀ r, t.dropWhile isBlank ≠ '=' :: r) :
    readAttribute? c (more ++ t) = some (⟨lower (c :: more), []⟩, t.dropWhile isBlank) := by
  simp only [readAttribute?, h.takeWhile ht, List.drop_left]

lemma readAttributes?_nil {s rest : Text} (hs : s.dropWhile isSeparator = '>' :: rest) :
    readAttributes? s = some ([], rest) := by
  rw [readAttributes?]
  split
  · next h => rw [hs] at h; cases h
  · next d t h =>
    obtain ⟨rfl, rfl⟩ := List.cons.inj (hs.symm.trans h)
    rw [if_pos rfl]

lemma readAttributes?_cons {s r rest : Text} {c : Char} {a : Attribute}
    (hs : s.dropWhile isSeparator = c :: r) (hc : c ≠ '>')
    (ha : readAttribute? c r = some (a, rest)) :
    readAttributes? s = (readAttributes? rest).map fun p => (a :: p.1, p.2) := by
  rw [readAttributes?]
  split
  · next h => rw [hs] at h; cases h
  · next d t h =>
    obtain ⟨rfl, rfl⟩ := List.cons.inj (hs.symm.trans h)
    rw [if_neg hc]
    split
    · next h => rw [ha] at h; cases h
    · next h => rw [ha] at h; cases h; rfl

/-- **A quoted attribute** after a space is read, whatever case its name has and however its value
is spelled. -/
theorem readAttributes?_quoted {name raw : Text} (hname : IsAttributeName name) (hraw : '"' ∉ raw)
    (rest : Text) :
    readAttributes? (' ' :: name ++ "=\"".toList ++ raw ++ '"' :: rest) =
      (readAttributes? rest).map fun p => (⟨lower name, decode raw⟩ :: p.1, p.2) := by
  obtain ⟨c, more, rfl⟩ : ∃ c more, name = c :: more := by
    rcases hname with rfl | ⟨h, -⟩
    · exact ⟨'=', [], rfl⟩
    · exact List.exists_cons_of_ne_nil h
  have hvalue : readValue? ('"' :: (raw ++ '"' :: rest)) = some (raw, rest) :=
    readQuoted?_append hraw rest
  have hread : readAttribute? c (more ++ '=' :: '"' :: (raw ++ '"' :: rest)) =
      some (⟨lower (c :: more), decode raw⟩, rest) := by
    rw [readAttribute?_append (r := '"' :: (raw ++ '"' :: rest)) hname (by simp; decide)
      (List.dropWhile_cons_of_neg (by decide)), List.dropWhile_cons_of_neg (by decide), hvalue]
    rfl
  refine readAttributes?_cons ?_ hname.head.2 hread
  simp [hname.head.1, show isSeparator ' ' = true by decide]

/-- Attributes with quoted values are read up to the end of the tag. -/
lemma readAttributes?_quoted_gt {as : List (Text × Text)}
    (h : ∀ a ∈ as, IsAttributeName a.1 ∧ '"' ∉ a.2) (rest : Text) :
    readAttributes? ((as.flatMap fun a => ' ' :: a.1 ++ "=\"".toList ++ a.2 ++ ['"']) ++
      '>' :: rest) = some (as.map fun a => ⟨lower a.1, decode a.2⟩, rest) := by
  induction as with
  | nil => exact readAttributes?_nil (List.dropWhile_cons_of_neg (by decide))
  | cons a as ih =>
    obtain ⟨⟨hname, hvalue⟩, has⟩ := List.forall_mem_cons.1 h
    rw [List.flatMap_cons, List.append_assoc, List.append_assoc (_ ++ a.2), List.singleton_append,
      readAttributes?_quoted hname hvalue, ih has]
    rfl

/-- The attributes of a tag as they are written are read back. -/
lemma readAttributes?_markup {as : List Attribute} (h : ∀ a ∈ as, IsReadAttributeName a.name)
    (rest : Text) :
    readAttributes? (as.flatMap Attribute.markup ++ '>' :: rest) = some (as, rest) := by
  have hquoted : ∀ a ∈ as.map fun a => (a.name, escapeValue a.value),
      IsAttributeName a.1 ∧ '"' ∉ a.2 := by
    intro a ha
    obtain ⟨b, hb, rfl⟩ := List.mem_map.1 ha
    exact ⟨(h b hb).1, quote_notMem_escapeValue b.value⟩
  have hread := readAttributes?_quoted_gt hquoted rest
  have hmeant : ∀ a ∈ as, (⟨lower a.name, decode (escapeValue a.value)⟩ : Attribute) = a :=
    fun a ha => by rw [(h a ha).2, decode_escapeValue]
  rw [List.flatMap_map, List.map_map] at hread
  exact hread.trans (congrArg (fun bs => some (bs, rest)) ((List.map_congr_left hmeant).trans
    (List.map_id as)))

lemma firstOfName_of_nodup {as : List Attribute} (h : (as.map Attribute.name).Nodup) :
    firstOfName as = as := by
  induction as with
  | nil => rfl
  | cons a as ih =>
    rw [List.map_cons, List.nodup_cons] at h
    rw [firstOfName, ih h.2, List.filter_eq_self.2]
    intro b hb
    have hne : b.name ≠ a.name := fun e => h.1 (e ▸ List.mem_map_of_mem hb)
    simpa using hne

/-- **A written start tag is read back.** -/
theorem read?_markup {tag : Tag} (h : tag.WellFormed) (rest : Text) :
    read? (tag.name ++ tag.attributes.flatMap Attribute.markup ++ '>' :: rest) =
      some (tag, rest) := by
  obtain ⟨⟨-, hname, hlower⟩, hattrs, hdistinct⟩ := h
  rw [List.all_eq_true] at hname
  have hrest : ∀ c ∈ (tag.attributes.flatMap Attribute.markup ++ '>' :: rest).head?,
      isNameChar c = false := by
    cases tag.attributes with
    | nil => simp; decide
    | cons a as => simp [Attribute.markup]; decide
  rw [List.append_assoc, read?_append hname hrest, readAttributes?_markup hattrs, Option.map_some,
    hlower, firstOfName_of_nodup hdistinct]

/-! ### What is read -/

lemma mem_of_mem_firstOfName {a : Attribute} {as : List Attribute} (h : a ∈ firstOfName as) :
    a ∈ as := by
  induction as with
  | nil => exact h
  | cons b as ih =>
    rcases List.mem_cons.1 h with rfl | h
    · exact List.mem_cons_self
    · exact List.mem_cons_of_mem b (ih (List.mem_filter.1 h).1)

lemma nodup_firstOfName (as : List Attribute) :
    ((firstOfName as).map Attribute.name).Nodup := by
  induction as with
  | nil => exact List.nodup_nil
  | cons a as ih =>
    rw [firstOfName, List.map_cons, List.nodup_cons]
    constructor
    · intro hmem
      obtain ⟨b, hb, hname⟩ := List.mem_map.1 hmem
      have := (List.mem_filter.1 hb).2
      simp [hname] at this
    · exact ih.sublist (List.filter_sublist.map Attribute.name)

/-- Each name is read once, in the order in which names come first. -/
lemma map_name_firstOfName (as : List Attribute) :
    (firstOfName as).map Attribute.name = (as.map Attribute.name).eraseDups := by
  -- Erasing behind the head leaves fewer names, so the claim is about any of them.
  suffices h : ∀ q : Text → Bool, ((firstOfName as).filter fun b => q b.name).map Attribute.name =
      ((as.map Attribute.name).filter q).eraseDups by
    have hall := h fun _ => true
    rwa [List.filter_eq_self.2 fun _ _ => rfl, List.filter_eq_self.2 fun _ _ => rfl] at hall
  intro q
  induction as generalizing q with
  | nil => rfl
  | cons a as ih =>
    rw [firstOfName, List.map_cons]
    cases hq : q a.name with
    | true =>
      rw [List.filter_cons_of_pos (a := a) hq, List.filter_cons_of_pos hq, List.map_cons,
        List.eraseDups_cons, List.filter_filter, List.filter_filter,
        ← ih fun n => (!n == a.name) && q n]
      simp only [bne, Bool.and_comm]
    | false =>
      rw [List.filter_cons_of_neg (a := a) (by simp [hq]), List.filter_cons_of_neg (by simp [hq]),
        List.filter_filter, ← ih q]
      congr 1
      refine List.filter_congr fun b _ => ?_
      cases hb : q b.name with
      | false => rfl
      | true =>
        have hne : b.name ≠ a.name := by
          intro e
          rw [e, hq] at hb
          cases hb
        simpa using hne

/-- What is read for a name is what comes first with it. -/
lemma find?_of_mem_firstOfName {a : Attribute} {as : List Attribute} (h : a ∈ firstOfName as) :
    (as.find? fun b => b.name == a.name) = some a := by
  induction as with
  | nil => cases h
  | cons b as ih =>
    rcases List.mem_cons.1 h with rfl | h
    · exact List.find?_cons_of_pos (by simp)
    · obtain ⟨hmem, hne⟩ := List.mem_filter.1 h
      have hname : b.name ≠ a.name := by
        intro e
        simp [e] at hne
      rw [List.find?_cons_of_neg (by simpa using hname), ih hmem]

lemma isReadAttributeName_readAttribute? {c : Char} {s : Text} {p : Attribute × Text}
    (hsep : isSeparator c = false) (hgt : c ≠ '>') (h : readAttribute? c s = some p) :
    IsReadAttributeName p.1.name := by
  have hname : p.1.name = lower (c :: if c = '=' then [] else s.takeWhile isAttributeChar) := by
    simp only [readAttribute?] at h
    split at h
    · obtain ⟨v, -, rfl⟩ := Option.map_eq_some_iff.1 h
      rfl
    · cases h
      rfl
  rw [hname]
  refine ⟨?_, lower_lower _⟩
  by_cases hc : c = '='
  · left
    subst hc
    rfl
  · right
    have hattr : isAttributeChar c = true := by
      simp only [isSeparator, Bool.or_eq_false_iff] at hsep
      simp [isAttributeChar, hsep, hgt, hc]
    refine ⟨by simp, ?_⟩
    rw [if_neg hc, List.all_eq_true]
    intro d hd
    obtain ⟨e, he, rfl⟩ := List.mem_map.1 hd
    rw [isAttributeChar_toLower]
    rcases List.mem_cons.1 he with rfl | he
    · exact hattr
    · exact List.all_eq_true.1 List.all_takeWhile e he

lemma isReadAttributeName_readAttributes? {s : Text} {p : List Attribute × Text}
    (h : readAttributes? s = some p) : ∀ a ∈ p.1, IsReadAttributeName a.name := by
  fun_induction readAttributes? s generalizing p with
  | case1 => cases h
  | case2 => cases h; simp
  | case3 => cases h
  | case4 s c r hr hc a rest ha ih =>
    obtain ⟨q, hq, rfl⟩ := Option.map_eq_some_iff.1 h
    have hsep : isSeparator c = false := by
      have := List.head?_dropWhile_not isSeparator s
      rw [hr] at this
      exact this
    intro b hb
    rcases List.mem_cons.1 hb with rfl | hb
    · exact isReadAttributeName_readAttribute? hsep hc ha
    · exact ih hq b hb

/-- **A start tag that is read is well-formed** if it begins with a letter. -/
theorem wellFormed_of_read? {s : Text} {p : Tag × Text}
    (hs : (s.head?.map Char.isAlpha).getD false = true) (h : read? s = some p) :
    p.1.WellFormed := by
  obtain ⟨q, hq, rfl⟩ := Option.map_eq_some_iff.1 h
  obtain ⟨c, s, rfl⟩ : ∃ c r, s = c :: r := by
    cases s with
    | nil => simp at hs
    | cons c r => exact ⟨c, r, rfl⟩
  have hc : c.isAlpha = true := by simpa using hs
  refine ⟨?_, fun a ha => ?_, nodup_firstOfName q.1⟩
  · rw [List.takeWhile_cons_of_pos (isNameChar_of_isAlpha hc)]
    refine isReadName_lower hc fun d hd => ?_
    rcases List.mem_cons.1 hd with rfl | hd
    · exact isNameChar_of_isAlpha hc
    · exact List.all_eq_true.1 List.all_takeWhile d hd
  · exact isReadAttributeName_readAttributes? hq a (mem_of_mem_firstOfName ha)

end RichText.StartTag
