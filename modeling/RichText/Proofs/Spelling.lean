import Mathlib.Tactic.Lemma
import RichText.Proofs.StartTag

/-!
The ways to write a start tag. Names may be in either case, values quoted either way or bare, and
blanks and `/` may stand between attributes as long as they do not run into a bare value. However
it is spelled, the tag is read the same: of attributes with one name the first counts.
-/

namespace RichText.StartTag

open Ascii

/-! ### Spellings -/

/-- A value between quotation marks of either kind, or bare. -/
inductive RawValue where
  | double (raw : Text)
  | single (raw : Text)
  | bare (raw : Text)
  deriving DecidableEq, Repr

namespace RawValue

def raw : RawValue → Text
  | double raw | single raw | bare raw => raw

def text : RawValue → Text
  | double raw => '"' :: raw ++ ['"']
  | single raw => '\x27' :: raw ++ ['\x27']
  | bare raw => raw

def isBare : RawValue → Bool
  | bare _ => true
  | _ => false

/-- A quoted value may hold anything but its quotation mark; a bare one ends at a blank or `>`, and
begins with no quotation mark. -/
def Allowed : RawValue → Prop
  | double raw => '"' ∉ raw
  | single raw => '\x27' ∉ raw
  | bare raw => raw ≠ [] ∧ (∀ c ∈ raw, isBareChar c = true) ∧ raw.head? ≠ some '"' ∧
      raw.head? ≠ some '\x27'

-- Through `List.all`, here and below, so that no instance ranges over all characters.
instance : DecidablePred RawValue.Allowed
  | double raw => inferInstanceAs (Decidable ('"' ∉ raw))
  | single raw => inferInstanceAs (Decidable ('\x27' ∉ raw))
  | bare raw =>
    decidable_of_iff (raw ≠ [] ∧ raw.all isBareChar = true ∧ raw.head? ≠ some '"' ∧
      raw.head? ≠ some '\x27') (by rw [List.all_eq_true]; rfl)

end RawValue

/-- A value with the blanks around the `=` before it. -/
structure Assigned where
  before : Text
  after : Text
  value : RawValue
  deriving DecidableEq, Repr

namespace Assigned

def text (v : Assigned) : Text := v.before ++ '=' :: v.after ++ v.value.text

structure Allowed (v : Assigned) : Prop where
  before : ∀ c ∈ v.before, isBlank c = true
  after : ∀ c ∈ v.after, isBlank c = true
  value : v.value.Allowed

instance (v : Assigned) : Decidable v.Allowed :=
  decidable_of_iff (v.before.all isBlank = true ∧ v.after.all isBlank = true ∧ v.value.Allowed) (by
    rw [List.all_eq_true, List.all_eq_true]
    exact ⟨fun ⟨hb, ha, hv⟩ => ⟨hb, ha, hv⟩, fun ⟨hb, ha, hv⟩ => ⟨hb, ha, hv⟩⟩)

end Assigned

/-- An attribute as it is written, with what separates it from what is before. -/
structure Spelled where
  separator : Text
  name : Text
  assigned : Option Assigned
  deriving DecidableEq, Repr

namespace Spelled

/-- What is behind the name. -/
def assignedText (a : Spelled) : Text := a.assigned.elim [] Assigned.text

def text (a : Spelled) : Text := a.separator ++ a.name ++ a.assignedText

def endsBare (a : Spelled) : Bool := a.assigned.any fun v => v.value.isBare

/-- The attribute that is meant. Without a value it has the empty one. -/
def meant (a : Spelled) : Attribute :=
  ⟨lower a.name, a.assigned.elim [] fun v => decode v.value.raw⟩

structure Allowed (a : Spelled) : Prop where
  nonempty : a.name ≠ []
  name : ∀ c ∈ a.name, isAttributeChar c = true
  assigned : ∀ v ∈ a.assigned, v.Allowed

instance (a : Spelled) : Decidable a.Allowed :=
  decidable_of_iff (a.name ≠ [] ∧ a.name.all isAttributeChar = true ∧
      ∀ v ∈ a.assigned, v.Allowed) (by
    rw [List.all_eq_true]
    exact ⟨fun ⟨he, hn, ha⟩ => ⟨he, hn, ha⟩, fun ⟨he, hn, ha⟩ => ⟨he, hn, ha⟩⟩)

end Spelled

/-- Blanks and slashes. Behind a bare value they begin with a blank, a slash being part of it. -/
structure Separates (afterBare : Bool) (s : Text) : Prop where
  chars : ∀ c ∈ s, isSeparator c = true
  blank : afterBare = true → ∀ c ∈ s.head?, isBlank c = true

instance (afterBare : Bool) (s : Text) : Decidable (Separates afterBare s) :=
  decidable_of_iff (s.all isSeparator = true ∧ (afterBare = true → s.head?.all isBlank = true)) (by
    rw [List.all_eq_true, Option.all_eq_true]
    exact ⟨fun ⟨hc, hb⟩ => ⟨hc, hb⟩, fun ⟨hc, hb⟩ => ⟨hc, hb⟩⟩)

/-- Attributes that may stand one behind the other, and what may stand between them and the `>`. -/
def AllowedFrom (afterBare : Bool) (closing : Text) : List Spelled → Prop
  | [] => Separates afterBare closing
  | a :: as => a.separator ≠ [] ∧ Separates afterBare a.separator ∧ a.Allowed ∧
      AllowedFrom a.endsBare closing as

instance AllowedFrom.decide (afterBare : Bool) (closing : Text) :
    (as : List Spelled) → Decidable (AllowedFrom afterBare closing as)
  | [] => inferInstanceAs (Decidable (Separates afterBare closing))
  | a :: as =>
    have := AllowedFrom.decide a.endsBare closing as
    inferInstanceAs (Decidable (a.separator ≠ [] ∧ Separates afterBare a.separator ∧ a.Allowed ∧
      AllowedFrom a.endsBare closing as))

/-- A tag as it is written behind its `<`. -/
structure Spelling where
  name : Text
  attributes : List Spelled
  closing : Text
  deriving DecidableEq, Repr

namespace Spelling

def text (t : Spelling) : Text :=
  t.name ++ (t.attributes.flatMap Spelled.text ++ (t.closing ++ ['>']))

structure Allowed (t : Spelling) : Prop where
  name : ∀ c ∈ t.name, isNameChar c = true
  attributes : AllowedFrom false t.closing t.attributes

instance (t : Spelling) : Decidable t.Allowed :=
  decidable_of_iff (t.name.all isNameChar = true ∧ AllowedFrom false t.closing t.attributes) (by
    rw [List.all_eq_true]
    exact ⟨fun ⟨hn, ha⟩ => ⟨hn, ha⟩, fun ⟨hn, ha⟩ => ⟨hn, ha⟩⟩)

end Spelling

/-! ### Values -/

namespace RawValue

variable {v : RawValue}

lemma Allowed.exists_cons (h : v.Allowed) : ∃ c r, v.text = c :: r ∧ isBlank c = false := by
  cases v with
  | double raw => exact ⟨'"', raw ++ ['"'], rfl, by decide⟩
  | single raw => exact ⟨'\x27', raw ++ ['\x27'], rfl, by decide⟩
  | bare raw =>
    obtain ⟨hne, hchars, -⟩ := h
    obtain ⟨c, r, rfl⟩ := List.exists_cons_of_ne_nil hne
    have hc := hchars c List.mem_cons_self
    simp only [isBareChar, Bool.not_eq_true', Bool.or_eq_false_iff] at hc
    exact ⟨c, r, rfl, hc.1⟩

/-- A value is read whole, and a bare one no further than to what ends it. -/
lemma Allowed.readValue? (h : v.Allowed) {t : Text}
    (ht : v.isBare = true → ∀ c ∈ t.head?, isBareChar c = false) :
    readValue? (v.text ++ t) = some (v.raw, t) := by
  cases v with
  | double raw =>
    have htext : (double raw).text ++ t = '"' :: (raw ++ '"' :: t) := by simp [text]
    rw [htext]
    exact readQuoted?_append h t
  | single raw =>
    have htext : (single raw).text ++ t = '\x27' :: (raw ++ '\x27' :: t) := by simp [text]
    rw [htext]
    exact readQuoted?_append h t
  | bare raw =>
    obtain ⟨hne, hchars, hdouble, hsingle⟩ := h
    obtain ⟨c, r, rfl⟩ := List.exists_cons_of_ne_nil hne
    rw [text, StartTag.readValue?, takeWhile_append_of_head hchars (ht rfl),
      dropWhile_append_of_head hchars (ht rfl)]
    · rfl
    all_goals
      intro s hs
      cases hs
      contradiction

end RawValue

/-! ### Attributes -/

lemma isSeparator_of_isBlank {c : Char} (h : isBlank c = true) : isSeparator c = true := by
  simp [isSeparator, h]

lemma isNameChar_eq_false {c : Char} (h : isSeparator c = true ∨ c = '>') :
    isNameChar c = false := by
  rcases h with h | rfl
  · simp only [isSeparator] at h
    simp [isNameChar, h]
  · decide

lemma isAttributeChar_eq_false {c : Char} (h : isSeparator c = true ∨ c = '>') :
    isAttributeChar c = false := by
  have hname := isNameChar_eq_false h
  simp only [isNameChar] at hname
  simp [isAttributeChar, hname]

lemma dropWhile_isSeparator_dropWhile_isBlank (t : Text) :
    (t.dropWhile isBlank).dropWhile isSeparator = t.dropWhile isSeparator := by
  induction t with
  | nil => rfl
  | cons c t ih =>
    cases hc : isBlank c with
    | true =>
      rw [List.dropWhile_cons_of_pos hc, List.dropWhile_cons_of_pos (isSeparator_of_isBlank hc), ih]
    | false => rw [List.dropWhile_cons_of_neg (by simp [hc])]

/-- What may follow an attribute: it goes on neither with its name nor with its value. -/
structure Behind (afterBare : Bool) (t : Text) : Prop where
  head : ∀ c ∈ t.head?, isSeparator c = true ∨ c = '>'
  assigned : ∀ r, t.dropWhile isBlank ≠ '=' :: r
  value : afterBare = true → ∀ c ∈ t.head?, isBareChar c = false

/-- Separators end at no `=`. -/
lemma dropWhile_isBlank_ne {s : Text} (hs : ∀ c ∈ s, isSeparator c = true) {c : Char}
    (hblank : isBlank c = false) (hc : c ≠ '=') (t r : Text) :
    (s ++ c :: t).dropWhile isBlank ≠ '=' :: r := by
  induction s with
  | nil =>
    rw [List.nil_append, List.dropWhile_cons_of_neg (by simp [hblank])]
    rintro ⟨⟩
    exact hc rfl
  | cons d s ih =>
    obtain ⟨hd, hs⟩ := List.forall_mem_cons.1 hs
    rw [List.cons_append]
    cases hdblank : isBlank d with
    | true =>
      rw [List.dropWhile_cons_of_pos hdblank]
      exact ih hs
    | false =>
      rw [List.dropWhile_cons_of_neg (by simp [hdblank])]
      rintro ⟨⟩
      exact absurd hd (by decide)

/-- The end of the tag may follow at once, an attribute only behind a separator. -/
lemma Separates.behind {afterBare : Bool} {s : Text} (h : Separates afterBare s) {c : Char}
    (hc : c = '>' ∨ s ≠ [] ∧ isAttributeChar c = true) (t : Text) :
    Behind afterBare (s ++ c :: t) := by
  have hchar : isBlank c = false ∧ c ≠ '=' := by
    rcases hc with rfl | ⟨-, hc⟩
    · decide
    · simp only [isAttributeChar, Bool.not_eq_true', Bool.or_eq_false_iff, beq_eq_false_iff_ne]
        at hc
      exact ⟨hc.1.1.1, hc.2⟩
  refine ⟨?_, dropWhile_isBlank_ne h.chars hchar.1 hchar.2 t, ?_⟩
  · cases s with
    | nil =>
      rintro d ⟨⟩
      exact .inr (hc.resolve_right fun h => h.1 rfl)
    | cons d s =>
      rintro e ⟨⟩
      exact .inl (h.chars d List.mem_cons_self)
  · intro hbare
    cases s with
    | nil =>
      rintro d ⟨⟩
      rw [hc.resolve_right fun h => h.1 rfl]
      decide
    | cons d s =>
      rintro e ⟨⟩
      simp [isBareChar, h.blank hbare d rfl]

namespace Spelled

variable {a : Spelled}

lemma Allowed.isAttributeName (h : a.Allowed) : IsAttributeName a.name :=
  .inr ⟨h.nonempty, List.all_eq_true.2 h.name⟩

/-- An attribute is read as it is meant, up to blanks behind it. -/
lemma Allowed.readAttribute? (h : a.Allowed) {c : Char} {more t : Text} (hname : a.name = c :: more)
    (ht : Behind a.endsBare t) :
    ∃ r, readAttribute? c (more ++ (a.assignedText ++ t)) = some (a.meant, r) ∧
      r.dropWhile isSeparator = t.dropWhile isSeparator := by
  have hread := h.isAttributeName
  have hallowed := h.assigned
  obtain ⟨separator, name, assigned⟩ := a
  subst hname
  cases assigned with
  | none =>
    refine ⟨t.dropWhile isBlank, ?_, dropWhile_isSeparator_dropWhile_isBlank t⟩
    exact readAttribute?_append_of_ne hread
      (fun d hd => isAttributeChar_eq_false (ht.head d hd)) ht.assigned
  | some v =>
    obtain ⟨hbefore, hafter, hvalue⟩ := hallowed v rfl
    refine ⟨t, ?_, rfl⟩
    have htext : Option.elim (some v) [] Assigned.text ++ t =
        v.before ++ '=' :: (v.after ++ (v.value.text ++ t)) := by
      simp [Assigned.text]
    have hhead : ∀ d ∈ (v.before ++ '=' :: (v.after ++ (v.value.text ++ t))).head?,
        isAttributeChar d = false := by
      cases hb : v.before with
      | nil =>
        rintro d ⟨⟩
        decide
      | cons b bs =>
        rintro d ⟨⟩
        have hblank : isBlank b = true := hbefore b (by simp [hb])
        exact isAttributeChar_eq_false (.inl (isSeparator_of_isBlank hblank))
    have hequals : (v.before ++ '=' :: (v.after ++ (v.value.text ++ t))).dropWhile isBlank =
        '=' :: (v.after ++ (v.value.text ++ t)) := by
      rw [List.dropWhile_append_of_pos hbefore, List.dropWhile_cons_of_neg (by decide)]
    have hblanks : (v.after ++ (v.value.text ++ t)).dropWhile isBlank = v.value.text ++ t := by
      obtain ⟨b, bs, hb, hblank⟩ := hvalue.exists_cons
      rw [List.dropWhile_append_of_pos hafter, hb, List.cons_append,
        List.dropWhile_cons_of_neg (by simp [hblank])]
    rw [assignedText, htext, readAttribute?_append hread hhead hequals, hblanks,
      hvalue.readValue? ht.value]
    rfl

end Spelled

namespace AllowedFrom

variable {afterBare : Bool} {closing : Text} {as : List Spelled}

lemma behind (h : AllowedFrom afterBare closing as) (rest : Text) :
    Behind afterBare (as.flatMap Spelled.text ++ (closing ++ '>' :: rest)) := by
  cases as with
  | nil => exact Separates.behind h (.inl rfl) rest
  | cons a as =>
    obtain ⟨hne, hsep, ha, -⟩ := h
    obtain ⟨c, more, hname⟩ := List.exists_cons_of_ne_nil ha.nonempty
    have htext : (a :: as).flatMap Spelled.text ++ (closing ++ '>' :: rest) =
        a.separator ++ c :: (more ++ (a.assignedText ++
          (as.flatMap Spelled.text ++ (closing ++ '>' :: rest)))) := by
      simp [Spelled.text, hname]
    rw [htext]
    exact hsep.behind (.inr ⟨hne, ha.name c (by simp [hname])⟩) _

/-- Attributes are read one by one, whatever is left of the separators before them. -/
lemma readAttributes? (h : AllowedFrom afterBare closing as) {s rest : Text}
    (hs : s.dropWhile isSeparator =
      (as.flatMap Spelled.text ++ (closing ++ '>' :: rest)).dropWhile isSeparator) :
    readAttributes? s = some (as.map Spelled.meant, rest) := by
  induction as generalizing afterBare s with
  | nil =>
    refine readAttributes?_nil (hs.trans ?_)
    rw [List.flatMap_nil, List.nil_append, List.dropWhile_append_of_pos (Separates.chars h),
      List.dropWhile_cons_of_neg (by decide)]
  | cons a as ih =>
    obtain ⟨-, hsep, ha, has⟩ := h
    obtain ⟨c, more, hname⟩ := List.exists_cons_of_ne_nil ha.nonempty
    obtain ⟨hc, hgt⟩ := (hname ▸ ha.isAttributeName).head
    obtain ⟨r, hread, hr⟩ := ha.readAttribute? hname (has.behind rest)
    have hstart : s.dropWhile isSeparator = c :: (more ++ (a.assignedText ++
        (as.flatMap Spelled.text ++ (closing ++ '>' :: rest)))) := by
      rw [hs, List.flatMap_cons, Spelled.text, hname, List.append_assoc, List.append_assoc,
        List.append_assoc, List.dropWhile_append_of_pos hsep.chars, List.cons_append,
        List.dropWhile_cons_of_neg (by simp [hc])]
    rw [readAttributes?_cons hstart hgt hread, ih has hr]
    rfl

end AllowedFrom

/-! ### Tags -/

namespace Spelling

variable {t : Spelling}

lemma Allowed.read? (h : t.Allowed) (rest : Text) :
    read? (t.text ++ rest) =
      some (⟨lower t.name, firstOfName (t.attributes.map Spelled.meant)⟩, rest) := by
  have htext : t.text ++ rest =
      t.name ++ (t.attributes.flatMap Spelled.text ++ (t.closing ++ '>' :: rest)) := by
    simp [text]
  rw [htext, read?_append h.name fun c hc =>
    isNameChar_eq_false ((h.attributes.behind rest).head c hc), h.attributes.readAttributes? rfl]
  rfl

end Spelling

/-- **However a tag is spelled**, it is read as it is meant, and no further than its `>`: the names
come in lower case, each once and in the order in which they come first, and what is first with a
name gives its value. -/
theorem read?_text {t : Spelling} (h : t.Allowed) (rest : Text) :
    ∃ as : List Attribute,
      read? (t.text ++ rest) = some (⟨lower t.name, as⟩, rest) ∧
      as.map Attribute.name = (t.attributes.map fun a => lower a.name).eraseDups ∧
      ∀ a ∈ as, ((t.attributes.map Spelled.meant).find? fun b => b.name == a.name) = some a := by
  refine ⟨firstOfName (t.attributes.map Spelled.meant), h.read? rest, ?_, fun a ha =>
    find?_of_mem_firstOfName ha⟩
  rw [map_name_firstOfName, List.map_map]
  rfl

/-- All three kinds of value, a name without one and a name that comes again in another case. -/
theorem read?_text_mixed :
    let t : Spelling := ⟨"INPUT".toList,
      [⟨"/".toList, "Type".toList, some ⟨" ".toList, "\n".toList, .single "a>\"".toList⟩⟩,
        ⟨" ".toList, "class".toList, some ⟨[], [], .bare "x=/&lt;/".toList⟩⟩,
        ⟨"\t/ ".toList, "hidden".toList, none⟩,
        ⟨"/".toList, "CLASS".toList, some ⟨[], " ".toList, .double "y".toList⟩⟩],
      "/".toList⟩
    t.Allowed ∧
      t.text = "INPUT/Type =\n\x27a>\"\x27 class=x=/&lt;/\t/ hidden/CLASS= \"y\"/>".toList ∧
      read? (t.text ++ ">".toList) =
        some (⟨"input".toList, [⟨"type".toList, "a>\"".toList⟩, ⟨"class".toList, "x=/</".toList⟩,
          ⟨"hidden".toList, []⟩]⟩, ">".toList) := by
  intro t
  have ht : t.Allowed := by decide +kernel
  obtain ⟨as, hread, hnames, hfirst⟩ := read?_text ht ">".toList
  have has : as.map some = [⟨"type".toList, "a>\"".toList⟩, ⟨"class".toList, "x=/</".toList⟩,
      ⟨"hidden".toList, []⟩].map some := by
    let first (n : Text) := (t.attributes.map Spelled.meant).find? fun b => b.name == n
    calc
      as.map some = as.map fun a => first a.name :=
        List.map_congr_left fun a ha => (hfirst a ha).symm
      _ = (as.map Attribute.name).map first := by
        rw [List.map_map]
        rfl
      _ = _ := by
        rw [hnames]
        decide +kernel
  rw [(List.map_inj_right fun _ _ => Option.some.inj).1 has] at hread
  exact ⟨ht, by decide +kernel, hread⟩

end RichText.StartTag
