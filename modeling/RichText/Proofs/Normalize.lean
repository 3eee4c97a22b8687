import Mathlib.Tactic.Lemma
import RichText.Markup.Printer
import RichText.Markup.WellFormed
import RichText.Document.Normal

/-!
Normalizing a document: the result is normal, a normal document stays as it is, and joining two
documents may be done before or after. Neither the markup nor the text of a document changes.
-/

namespace RichText

/-! ### A text before nodes -/

@[simp] lemma consText_nil (ns : List Node) : consText [] ns = ns := by
  rcases consText_cases [] ns with ⟨-, h⟩ | ⟨t, ms, rfl, h⟩ | ⟨hs, -, -⟩
  · exact h
  · exact h
  · exact absurd rfl hs

lemma consText_of_head {s : Text} (hs : s ≠ []) {ns : List Node}
    (h : ns.head?.any Node.isText = false) : consText s ns = .text s :: ns := by
  rcases consText_cases s ns with ⟨rfl, -⟩ | ⟨t, ms, rfl, -⟩ | ⟨-, -, hcons⟩
  · exact absurd rfl hs
  · cases h
  · exact hcons

lemma consText_consText (s t : Text) (ns : List Node) :
    consText s (consText t ns) = consText (s ++ t) ns := by
  rcases consText_cases t ns with ⟨rfl, h⟩ | ⟨u, ms, rfl, h⟩ | ⟨ht, hhead, h⟩
  · rw [h, List.append_nil]
  · simp [consText]
  · rw [h, consText_of_head (List.append_ne_nil_of_right_ne_nil s ht) hhead]
    rfl

lemma isNormal_cons {n : Node} {ns : List Node} :
    IsNormal (n :: ns) ↔
      n.IsNormal ∧ ¬(n.isText = true ∧ ns.head?.any Node.isText = true) ∧ IsNormal ns :=
  Iff.rfl

lemma isNormal_consText (s : Text) {ns : List Node} (h : IsNormal ns) :
    IsNormal (consText s ns) := by
  rcases consText_cases s ns with ⟨-, hcons⟩ | ⟨t, ms, rfl, hcons⟩ | ⟨hs, hhead, hcons⟩
  · rwa [hcons]
  · obtain ⟨ht, hseam, hms⟩ := h
    rw [hcons]
    exact ⟨List.append_ne_nil_of_right_ne_nil s ht, hseam, hms⟩
  · rw [hcons]
    exact ⟨hs, by simp [hhead], h⟩

lemma consText_of_isNormal {s : Text} {ns : List Node} (h : IsNormal (.text s :: ns)) :
    consText s ns = .text s :: ns := by
  obtain ⟨hs, hhead, -⟩ := h
  exact consText_of_head hs (by simpa using hhead)

/-! ### Normal documents -/

theorem isNormal_normalize (ns : List Node) : IsNormal (normalize ns) := by
  induction ns using Node.induction with
  | nil => trivial
  | text s ns ih => exact isNormal_consText s ih
  | comment s ns ih =>
    rw [normalize_comment]
    exact ⟨trivial, by simp, ih⟩
  | element tag inside ns ihin ih =>
    rw [normalize_element]
    exact ⟨ihin, by simp, ih⟩

theorem normalize_of_isNormal {ns : List Node} (h : IsNormal ns) : normalize ns = ns := by
  induction ns using Node.induction with
  | nil => rfl
  | text s ns ih => rw [normalize_text, ih h.2.2, consText_of_isNormal h]
  | comment s ns ih => rw [normalize_comment, ih h.2.2]
  | element tag inside ns ihin ih => rw [normalize_element, ihin h.1, ih h.2.2]

theorem isNormal_iff {ns : List Node} : IsNormal ns ↔ normalize ns = ns :=
  ⟨normalize_of_isNormal, fun h => h ▸ isNormal_normalize ns⟩

@[simp] theorem normalize_normalize (ns : List Node) : normalize (normalize ns) = normalize ns :=
  normalize_of_isNormal (isNormal_normalize ns)

/-- Normal documents join to a normal one, unless two texts meet. -/
theorem isNormal_append {ms ns : List Node} :
    IsNormal (ms ++ ns) ↔ IsNormal ms ∧ IsNormal ns ∧
      ¬(ms.getLast?.any Node.isText = true ∧ ns.head?.any Node.isText = true) := by
  induction ms with
  | nil => simp
  | cons m ms ih =>
    rw [List.cons_append, isNormal_cons, ih, isNormal_cons]
    cases ms with
    | nil => simp [and_comm]
    | cons k ms =>
      rw [List.getLast?_cons_cons]
      simp [and_assoc]

lemma isNormal_of_append_left {ms ns : List Node} (h : IsNormal (ms ++ ns)) : IsNormal ms :=
  (isNormal_append.1 h).1

lemma isNormal_of_append_right {ms ns : List Node} (h : IsNormal (ms ++ ns)) : IsNormal ns :=
  (isNormal_append.1 h).2.1

/-! ### Joining documents -/

lemma normalize_consText_append (s : Text) (ms ns : List Node) :
    normalize (consText s ms ++ ns) = consText s (normalize (ms ++ ns)) := by
  rcases consText_cases s ms with ⟨rfl, h⟩ | ⟨t, ks, rfl, h⟩ | ⟨-, -, h⟩
  · rw [h, consText_nil]
  · rw [h]
    exact (consText_consText s t (normalize (ks ++ ns))).symm
  · rw [h]
    rfl

theorem normalize_normalize_append (ms ns : List Node) :
    normalize (normalize ms ++ ns) = normalize (ms ++ ns) := by
  induction ms with
  | nil => rfl
  | cons m ms ih =>
    cases m with
    | text s => rw [normalize_text, normalize_consText_append, ih]; rfl
    | comment s => simp [ih]
    | element tag inside => simp [ih]

theorem normalize_append_normalize (ms ns : List Node) :
    normalize (ms ++ normalize ns) = normalize (ms ++ ns) := by
  induction ms with
  | nil => simp
  | cons m ms ih => cases m <;> simp [ih]

lemma normalize_append_congr {ms ms' ns ns' : List Node} (hm : normalize ms = normalize ms')
    (hn : normalize ns = normalize ns') : normalize (ms ++ ns) = normalize (ms' ++ ns') := by
  calc normalize (ms ++ ns) = normalize (normalize ms ++ normalize ns) := by
        rw [normalize_normalize_append, normalize_append_normalize]
    _ = normalize (normalize ms' ++ normalize ns') := by rw [hm, hn]
    _ = normalize (ms' ++ ns') := by
        rw [normalize_normalize_append, normalize_append_normalize]

/-! ### What stays -/

lemma markup_consText (s : Text) (ns : List Node) :
    markup (consText s ns) = escapeText s ++ markup ns := by
  rcases consText_cases s ns with ⟨rfl, h⟩ | ⟨t, ms, rfl, h⟩ | ⟨-, -, h⟩
  · rw [h, escapeText_nil, List.nil_append]
  · simp [h, Node.markup]
  · rw [h]
    rfl

theorem markup_normalize (ns : List Node) : markup (normalize ns) = markup ns := by
  induction ns using Node.induction with
  | nil => rfl
  | text s ns ih => rw [normalize_text, markup_consText, ih]; rfl
  | comment s ns ih => rw [normalize_comment, markup_cons, markup_cons, ih]
  | element tag inside ns ihin ih =>
    rw [normalize_element, markup_cons, markup_cons, ih, Node.markup, Node.markup, ihin]

theorem plainText_normalize (ns : List Node) : plainText (normalize ns) = plainText ns := by
  induction ns using Node.induction with
  | nil => rfl
  | text s ns ih => simp [ih]
  | comment s ns ih => simp [ih]
  | element tag inside ns ihin ih => simp [ihin, ih]

lemma wellFormed_consText {s : Text} {ns : List Node} (h : WellFormed ns) :
    WellFormed (consText s ns) := by
  rcases consText_cases s ns with ⟨-, hcons⟩ | ⟨t, ms, rfl, hcons⟩ | ⟨-, -, hcons⟩
  · rwa [hcons]
  · rw [hcons]
    exact ⟨trivial, h.2⟩
  · rw [hcons]
    exact ⟨trivial, h⟩

theorem wellFormed_normalize {ns : List Node} (h : WellFormed ns) : WellFormed (normalize ns) := by
  induction ns using Node.induction with
  | nil => trivial
  | text s ns ih => exact wellFormed_consText (ih h.2)
  | comment s ns ih => exact ⟨h.1, ih h.2⟩
  | element tag inside ns ihin ih =>
    obtain ⟨⟨htag, hvoid, hin⟩, hns⟩ := h
    exact ⟨⟨htag, fun hv => by rw [hvoid hv]; rfl, ihin hin⟩, ih hns⟩

end RichText
