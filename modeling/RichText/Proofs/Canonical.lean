import Mathlib.Tactic.Lemma
import RichText.Proofs.Normalize

/-!
Normal forms. Documents that differ only in how their texts are cut up are one document, and the
normal one among them is what normalizing gives. It can be made from the left as well, each node put
behind those that are kept so far; what is kept at any time is the normal form of what was read.
-/

namespace RichText

/-! ### Cutting texts up -/

/-- The same document up to how its texts are cut up, at any depth. -/
inductive Recut : List Node → List Node → Prop
  | refl (ns : List Node) : Recut ns ns
  | symm {ms ns : List Node} (h : Recut ms ns) : Recut ns ms
  | trans {ks ms ns : List Node} (h : Recut ks ms) (h' : Recut ms ns) : Recut ks ns
  | empty (ns : List Node) : Recut (.text [] :: ns) ns
  | join (s t : Text) (ns : List Node) :
    Recut (.text s :: .text t :: ns) (.text (s ++ t) :: ns)
  | cons (n : Node) {ms ns : List Node} (h : Recut ms ns) : Recut (n :: ms) (n :: ns)
  | inside (tag : Tag) {ms ns : List Node} (h : Recut ms ns) (after : List Node) :
    Recut (.element tag ms :: after) (.element tag ns :: after)

lemma recut_consText (s : Text) (ns : List Node) : Recut (.text s :: ns) (consText s ns) := by
  rcases consText_cases s ns with ⟨rfl, h⟩ | ⟨t, ms, rfl, h⟩ | ⟨-, -, h⟩
  · rw [h]
    exact .empty ns
  · rw [h]
    exact .join s t ms
  · rw [h]
    exact .refl _

lemma recut_normalize (ns : List Node) : Recut ns (normalize ns) := by
  induction ns using Node.induction with
  | nil => exact .refl []
  | text s ns ih => exact (Recut.cons (.text s) ih).trans (recut_consText s (normalize ns))
  | comment s ns ih => exact .cons (.comment s) ih
  | element tag inside ns ihin ih =>
    exact (Recut.inside tag ihin ns).trans (.cons (.element tag (normalize inside)) ih)

lemma Recut.normalize_eq {ms ns : List Node} (h : Recut ms ns) : normalize ms = normalize ns := by
  induction h with
  | refl ns => rfl
  | symm _ ih => exact ih.symm
  | trans _ _ ih ih' => exact ih.trans ih'
  | empty ns => exact consText_nil (normalize ns)
  | join s t ns => exact consText_consText s t (normalize ns)
  | cons n _ ih => exact normalize_append_congr (rfl : normalize [n] = normalize [n]) ih
  | inside tag _ after ih => rw [normalize_element, normalize_element, ih]

/-- **Two documents have one normal form** just if they differ in how texts are cut up. -/
theorem normalize_eq_iff_recut {ms ns : List Node} : normalize ms = normalize ns ↔ Recut ms ns := by
  refine ⟨fun h => ?_, Recut.normalize_eq⟩
  have hms := recut_normalize ms
  rw [h] at hms
  exact hms.trans (recut_normalize ns).symm

/-! ### From the left -/

/-- Puts a text behind nodes, joined to their last if that is a text. -/
def concatText (kept : List Node) (s : Text) : List Node :=
  if s.isEmpty then kept
  else
    match kept.getLast? with
    | some (.text t) => kept.dropLast ++ [.text (t ++ s)]
    | _ => kept ++ [.text s]

mutual

def Node.gather (kept : List Node) : Node → List Node
  | .text s => concatText kept s
  | .comment s => kept ++ [.comment s]
  | .element tag inside => kept ++ [.element tag (gather [] inside)]

/-- Puts nodes one after another behind those that are kept, and those inside an element behind
none. -/
def gather (kept : List Node) : List Node → List Node
  | [] => kept
  | n :: ns => gather (n.gather kept) ns

end

lemma normalize_concatText (kept : List Node) (s : Text) (ns : List Node) :
    normalize (concatText kept s ++ ns) = normalize (kept ++ .text s :: ns) := by
  rw [concatText]
  split
  · next hs =>
    rw [List.isEmpty_iff.1 hs]
    exact normalize_append_congr rfl (consText_nil _).symm
  · split
    · next t ht =>
      obtain ⟨ms, rfl⟩ := List.getLast?_eq_some_iff.1 ht
      rw [List.dropLast_concat, List.append_assoc, List.append_assoc]
      exact normalize_append_congr rfl (consText_consText t s (normalize ns)).symm
    · rw [List.append_assoc]
      rfl

lemma isNormal_concat {kept : List Node} (hkept : IsNormal kept) {n : Node} (hn : n.IsNormal)
    (hseam : ¬(kept.getLast?.any Node.isText = true ∧ n.isText = true)) :
    IsNormal (kept ++ [n]) :=
  isNormal_append.2 ⟨hkept, ⟨hn, by simp, trivial⟩, hseam⟩

lemma isNormal_concatText {kept : List Node} (h : IsNormal kept) (s : Text) :
    IsNormal (concatText kept s) := by
  rw [concatText]
  split
  · exact h
  · next hs =>
    have hs : s ≠ [] := by simpa using hs
    split
    · next t ht =>
      -- the longer text meets what the shorter one met
      obtain ⟨ms, rfl⟩ := List.getLast?_eq_some_iff.1 ht
      obtain ⟨hms, -, hseam⟩ := isNormal_append.1 h
      rw [List.dropLast_concat]
      exact isNormal_concat hms (show t ++ s ≠ [] by simp [hs]) hseam
    · next hlast =>
      refine isNormal_concat h hs fun ⟨htext, _⟩ => ?_
      obtain ⟨n, hn, hisText⟩ := (Option.any_eq_true _ _).1 htext
      cases n with
      | text t => exact hlast t hn
      | comment t => cases hisText
      | element tag inside => cases hisText

/-- What is kept when all nodes are read is the normal form of the whole. -/
theorem gather_eq_normalize {kept : List Node} (h : IsNormal kept) (ns : List Node) :
    gather kept ns = normalize (kept ++ ns) := by
  induction ns using Node.induction generalizing kept with
  | nil => rw [List.append_nil, normalize_of_isNormal h]; rfl
  | text s ns ih =>
    rw [← normalize_concatText, ← ih (isNormal_concatText h s)]
    rfl
  | comment s ns ih =>
    have hkept : IsNormal (kept ++ [.comment s]) := isNormal_concat h trivial (by simp)
    rw [List.append_cons, ← ih hkept]
    rfl
  | element tag inside ns ihin ih =>
    have hinside : gather [] inside = normalize inside := ihin isNormal_nil
    have hkept : IsNormal (kept ++ [.element tag (normalize inside)]) :=
      isNormal_concat h (isNormal_normalize inside) (by simp)
    calc gather kept (.element tag inside :: ns)
        = gather (kept ++ [.element tag (gather [] inside)]) ns := rfl
      _ = normalize (kept ++ .element tag (normalize inside) :: ns) := by
        rw [hinside, ih hkept, List.append_assoc, List.singleton_append]
      _ = normalize (kept ++ .element tag inside :: ns) := by
        refine normalize_append_congr rfl ?_
        rw [normalize_element, normalize_element, normalize_normalize]

/-! ### The normal form -/

/-- **Normalizing gives a normal form.** The result is normal, stays as it is, and has the markup,
the text and the number of characters of the document; documents have the same one just if they
differ in how texts are cut up. Documents may be normalized before they are joined, or the second
one read behind the normal form of the first. -/
theorem normalize_canonical (ms ns : List Node) :
    IsNormal (normalize ns) ∧ normalize (normalize ns) = normalize ns ∧
      markup (normalize ns) = markup ns ∧ plainText (normalize ns) = plainText ns ∧
      textLength (normalize ns) = textLength ns ∧
      (normalize ms = normalize ns ↔ Recut ms ns) ∧
      normalize (ms ++ ns) = normalize (normalize ms ++ normalize ns) ∧
      normalize (ms ++ ns) = gather (normalize ms) ns := by
  have hlength : textLength (normalize ns) = textLength ns := by
    rw [← length_plainText, ← length_plainText, plainText_normalize]
  have hjoin : normalize (ms ++ ns) = normalize (normalize ms ++ normalize ns) := by
    rw [normalize_normalize_append, normalize_append_normalize]
  have hgather : normalize (ms ++ ns) = gather (normalize ms) ns := by
    rw [gather_eq_normalize (isNormal_normalize ms), normalize_normalize_append]
  exact ⟨isNormal_normalize ns, normalize_normalize ns, markup_normalize ns, plainText_normalize ns,
    hlength, normalize_eq_iff_recut, hjoin, hgather⟩

/-- An empty text does not keep two others apart, and what is inside a void element is normal too. -/
example :
    let lineBreak : Tag := ⟨"br".toList, []⟩
    normalize [.text "a".toList, .text [], .text "b".toList,
        .element lineBreak [.text "c".toList, .text "d".toList]] =
      [.text "ab".toList, .element lineBreak [.text "cd".toList]] :=
  rfl

end RichText
