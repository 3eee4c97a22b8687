import Mathlib.Tactic.Lemma
import RichText.Document.Splice
import RichText.Proofs.Normalize

/-!
Flattening a document to tokens and rebuilding it. Flattening and rebuilding normalizes, and what is
rebuilt from well-formed tokens is well-formed; so an edit of the tokens stays among the well-formed
documents as long as what is put in is well-formed.
-/

namespace RichText

/-! ### Rows -/

/-- Of two beginnings of a row the longer one has the shorter one for its beginning. -/
lemma exists_append_of_length_le {α : Type} {us ws vs rs : List α} (h : us ++ ws = vs ++ rs)
    (hle : us.length ≤ vs.length) : ∃ as, vs = us ++ as ∧ ws = as ++ rs := by
  obtain ⟨as, rfl⟩ := List.prefix_of_prefix_length_le (h ▸ List.prefix_append us ws)
    (List.prefix_append vs rs) hle
  rw [List.append_assoc, List.append_cancel_left_eq] at h
  exact ⟨as, rfl, h⟩

lemma Node.tokens_void {tag : Tag} (hv : tag.isVoid = true) (inside : List Node) :
    (Node.element tag inside).tokens = [.leaf (.element tag inside)] :=
  if_pos hv

lemma Node.tokens_element {tag : Tag} (hv : ¬tag.isVoid = true) (inside : List Node) :
    (Node.element tag inside).tokens = .start tag :: (RichText.tokens inside ++ [.stop]) :=
  if_neg hv

/-! ### Rebuilding undoes flattening -/

lemma foldr_cons_chars (s : Text) (l : Levels) :
    (s.map Token.char).foldr Levels.cons l = ⟨consText s l.nodes, l.around⟩ := by
  induction s with
  | nil => simp
  | cons c s ih => rw [List.map_cons, List.foldr_cons, ih, Levels.cons, consText_consText]; rfl

/-- The tokens of nodes put the nodes before those of the current level. -/
lemma foldr_cons_tokens (ns : List Node) (l : Levels) :
    ∃ ms, (tokens ns).foldr Levels.cons l = ⟨ms, l.around⟩ ∧
      normalize ms = normalize (ns ++ l.nodes) := by
  induction ns using Node.induction generalizing l with
  | nil => exact ⟨l.nodes, rfl, rfl⟩
  | text s ns ih =>
    obtain ⟨ms, hfold, hms⟩ := ih l
    refine ⟨consText s ms, ?_, ?_⟩
    · rw [tokens_cons, List.foldr_append, hfold]
      exact foldr_cons_chars s _
    · have hcons := normalize_consText_append s ms []
      rw [List.append_nil, List.append_nil, hms] at hcons
      exact hcons
  | comment s ns ih =>
    obtain ⟨ms, hfold, hms⟩ := ih l
    refine ⟨.comment s :: ms, ?_, ?_⟩
    · rw [tokens_cons, List.foldr_append, hfold]
      rfl
    · rw [List.cons_append, normalize_comment, normalize_comment, hms]
  | element tag inside ns ihin ih =>
    obtain ⟨ms, hfold, hms⟩ := ih l
    rw [tokens_cons, List.foldr_append, hfold, Node.tokens]
    by_cases hv : tag.isVoid = true
    · refine ⟨.element tag inside :: ms, by rw [if_pos hv]; rfl, ?_⟩
      rw [List.cons_append, normalize_element, normalize_element, hms]
    · -- the end tag opens a level, on which what is inside is read, and the start tag closes it
      obtain ⟨ks, hin, hks⟩ := ihin ⟨[], ms :: l.around⟩
      refine ⟨.element tag ks :: ms, ?_, ?_⟩
      · rw [if_neg hv, List.cons_append, List.foldr_cons, List.foldr_append]
        exact congrArg (Levels.cons (.start tag)) hin
      · rw [List.append_nil] at hks
        rw [List.cons_append, normalize_element, normalize_element, hks, hms]

/-- **Flattening and rebuilding** a document normalizes it. -/
theorem ofTokens_tokens (ns : List Node) : ofTokens (tokens ns) = normalize ns := by
  obtain ⟨ms, hfold, hms⟩ := foldr_cons_tokens ns {}
  rw [ofTokens, hfold, Levels.all, List.flatten_nil, List.append_nil, hms, List.append_nil]

/-- A normal document is known by its row. -/
lemma eq_of_tokens_eq {ms ns : List Node} (hms : IsNormal ms) (hns : IsNormal ns)
    (h : tokens ms = tokens ns) : ms = ns := by
  rw [← normalize_of_isNormal hms, ← normalize_of_isNormal hns, ← ofTokens_tokens, h,
    ofTokens_tokens]

theorem isNormal_ofTokens (ts : List Token) : IsNormal (ofTokens ts) := by
  rw [ofTokens]
  exact isNormal_normalize _

@[simp] lemma charsOf_map_char (s : Text) : charsOf (s.map .char) = s := by
  induction s with
  | nil => rfl
  | cons c s ih => rw [List.map_cons, charsOf_char, ih]

lemma charsOf_reverse (ts : List Token) : charsOf ts.reverse = (charsOf ts).reverse := by
  induction ts with
  | nil => rfl
  | cons t ts ih => cases t <;> simp [charsOf_append, ih, charsOf]

/-! ### Void elements -/

mutual

def Node.VoidsEmpty : Node → Prop
  | .text _ => True
  | .comment _ => True
  | .element tag inside => (tag.isVoid = true → inside = []) ∧ VoidsEmpty inside

/-- Nothing is inside void elements, at any depth. -/
def VoidsEmpty : List Node → Prop
  | [] => True
  | n :: ns => n.VoidsEmpty ∧ VoidsEmpty ns

end

lemma WellFormed.voidsEmpty {ns : List Node} (h : WellFormed ns) : VoidsEmpty ns := by
  induction ns using Node.induction with
  | nil => trivial
  | text s ns ih => exact ⟨trivial, ih h.2⟩
  | comment s ns ih => exact ⟨trivial, ih h.2⟩
  | element tag inside ns ihin ih =>
    obtain ⟨⟨-, hvoid, hinside⟩, hns⟩ := h
    exact ⟨⟨hvoid, ihin hinside⟩, ih hns⟩

/-- It is enough to look at the leaves of the row. -/
lemma voidsEmpty_iff {ns : List Node} :
    VoidsEmpty ns ↔ ∀ tag inside, .leaf (.element tag inside) ∈ tokens ns → inside = [] := by
  induction ns using Node.induction with
  | nil => exact ⟨fun _ _ _ h => (List.not_mem_nil h).elim, fun _ => trivial⟩
  | text s ns ih =>
    have hns : VoidsEmpty (.text s :: ns) ↔ VoidsEmpty ns := and_iff_right trivial
    simp [hns, ih, Node.tokens]
  | comment s ns ih =>
    have hns : VoidsEmpty (.comment s :: ns) ↔ VoidsEmpty ns := and_iff_right trivial
    simp [hns, ih, Node.tokens]
  | element tag inside ns ihin ih =>
    have hns : VoidsEmpty (.element tag inside :: ns) ↔
        ((tag.isVoid = true → inside = []) ∧ VoidsEmpty inside) ∧ VoidsEmpty ns := Iff.rfl
    by_cases hv : tag.isVoid = true
    · have hinside : (inside = [] ∧ VoidsEmpty inside) ↔ inside = [] :=
        and_iff_left_of_imp fun h => h ▸ trivial
      simp [hns, ih, Node.tokens, hv, hinside, or_imp, forall_and]
    · simp [hns, ih, ihin, Node.tokens, hv, or_imp, forall_and]

lemma voidsEmpty_append {ms ns : List Node} :
    VoidsEmpty (ms ++ ns) ↔ VoidsEmpty ms ∧ VoidsEmpty ns := by
  simp only [voidsEmpty_iff, tokens_append, List.mem_append, or_imp, forall_and]

/-- The characters of a document's tokens are its text, nothing being inside void elements. -/
lemma charsOf_tokens {ns : List Node} (h : VoidsEmpty ns) : charsOf (tokens ns) = plainText ns := by
  induction ns using Node.induction with
  | nil => rfl
  | text s ns ih => rw [tokens_cons, charsOf_append, Node.tokens, charsOf_map_char, ih h.2]; rfl
  | comment s ns ih => exact ih h.2
  | element tag inside ns ihin ih =>
    obtain ⟨⟨hvoid, hinside⟩, hns⟩ := h
    rw [tokens_cons, charsOf_append, ih hns, Node.tokens]
    split
    · next hv => rw [hvoid hv]; rfl
    · rw [List.cons_append, charsOf_start, charsOf_append, ihin hinside, charsOf_stop, charsOf_nil,
        List.append_nil, plainText_element]

/-! ### Well-formed tokens -/

def Token.WellFormed : Token → Prop
  | .char _ => True
  | .start tag => tag.WellFormed ∧ tag.isVoid = false
  | .stop => True
  | .leaf n => n.WellFormed

lemma wellFormed_of_mem_tokens {ns : List Node} (h : WellFormed ns) :
    ∀ t ∈ tokens ns, t.WellFormed := by
  induction ns using Node.induction with
  | nil => exact fun t ht => by cases ht
  | text s ns ih =>
    intro t ht
    rcases List.mem_append.1 ht with ht | ht
    · obtain ⟨c, -, rfl⟩ := List.mem_map.1 ht
      trivial
    · exact ih h.2 t ht
  | comment s ns ih =>
    intro t ht
    rcases List.mem_cons.1 ht with rfl | ht
    · exact h.1
    · exact ih h.2 t ht
  | element tag inside ns ihin ih =>
    obtain ⟨⟨htag, hvoid, hinside⟩, hns⟩ := h
    intro t ht
    rcases List.mem_append.1 ht with ht | ht
    · rw [Node.tokens] at ht
      split at ht
      · obtain rfl := List.mem_singleton.1 ht
        exact ⟨htag, hvoid, hinside⟩
      · next hv =>
        rw [List.cons_append, List.mem_cons, List.mem_append, List.mem_singleton] at ht
        rcases ht with rfl | ht | rfl
        · exact ⟨htag, by simpa using hv⟩
        · exact ihin hinside t ht
        · trivial
    · exact ih hns t ht

namespace Levels

structure WellFormed (l : Levels) : Prop where
  nodes : RichText.WellFormed l.nodes
  around : ∀ ns ∈ l.around, RichText.WellFormed ns

lemma WellFormed.cons {l : Levels} (h : l.WellFormed) {t : Token} (ht : t.WellFormed) :
    (l.cons t).WellFormed := by
  obtain ⟨nodes, around⟩ := l
  obtain ⟨hnodes, haround⟩ := h
  cases t with
  | char c => exact ⟨wellFormed_consText hnodes, haround⟩
  | leaf n => exact ⟨⟨ht, hnodes⟩, haround⟩
  | stop => exact ⟨trivial, List.forall_mem_cons.2 ⟨hnodes, haround⟩⟩
  | start tag =>
    have helement : (Node.element tag nodes).WellFormed := ⟨ht.1, by simp [ht.2], hnodes⟩
    cases around with
    | nil => exact ⟨⟨helement, trivial⟩, haround⟩
    | cons outer rest =>
      obtain ⟨houter, hrest⟩ := List.forall_mem_cons.1 haround
      exact ⟨⟨helement, houter⟩, hrest⟩

lemma wellFormed_foldr {ts : List Token} (h : ∀ t ∈ ts, t.WellFormed) :
    (ts.foldr Levels.cons {}).WellFormed := by
  induction ts with
  | nil => exact ⟨trivial, by simp⟩
  | cons t ts ih =>
    obtain ⟨ht, hts⟩ := List.forall_mem_cons.1 h
    exact (ih hts).cons ht

lemma WellFormed.all {l : Levels} (h : l.WellFormed) : RichText.WellFormed l.all := by
  have hflat (nss : List (List Node)) (hnss : ∀ ns ∈ nss, RichText.WellFormed ns) :
      RichText.WellFormed nss.flatten := by
    induction nss with
    | nil => trivial
    | cons ns nss ih =>
      obtain ⟨hns, hrest⟩ := List.forall_mem_cons.1 hnss
      exact wellFormed_append.2 ⟨hns, ih hrest⟩
  exact wellFormed_append.2 ⟨h.nodes, hflat l.around h.around⟩

end Levels

/-- **Well-formed tokens make a well-formed document**, whether or not they are matched. -/
theorem wellFormed_ofTokens {ts : List Token} (h : ∀ t ∈ ts, t.WellFormed) :
    WellFormed (ofTokens ts) := by
  rw [ofTokens]
  exact wellFormed_normalize (Levels.wellFormed_foldr h).all

/-! ### Cutting and putting in -/

lemma Unmatched.mem_foldl_starts {ts : List Token} {u : Unmatched} {tag : Tag}
    (h : tag ∈ (ts.foldl Unmatched.step u).starts) : tag ∈ u.starts ∨ .start tag ∈ ts := by
  induction ts generalizing u with
  | nil => exact .inl h
  | cons t ts ih =>
    rcases ih h with h | h
    · cases t with
      | char c => exact .inl h
      | leaf n => exact .inl h
      | start other =>
        rcases List.mem_cons.1 h with rfl | h
        · exact .inr List.mem_cons_self
        · exact .inl h
      | stop =>
        obtain ⟨stops, starts⟩ := u
        cases starts with
        | nil => exact .inl h
        | cons other rest => exact .inl (List.mem_cons_of_mem other h)
    · exact .inr (List.mem_cons_of_mem t h)

/-- A cut leaves tokens that were there, and end tags. -/
lemma Span.mem_erase {r : Span} {ts : List Token} {t : Token} (h : t ∈ r.erase ts) :
    t = .stop ∨ t ∈ ts := by
  have hinside : ∀ t ∈ r.inside ts, t ∈ ts := fun t ht =>
    List.mem_of_mem_take (List.mem_of_mem_drop ht)
  simp only [Span.erase, List.mem_append] at h
  rcases h with ((h | h) | h) | h
  · exact .inr (List.mem_of_mem_take h)
  · exact .inl (List.eq_of_mem_replicate h)
  · obtain ⟨tag, htag, rfl⟩ := List.mem_map.1 h
    rcases Unmatched.mem_foldl_starts (List.mem_reverse.1 htag) with hnone | hin
    · cases hnone
    · exact .inr (hinside _ hin)
  · exact .inr (List.mem_of_mem_drop h)

lemma mem_insertNodes {ts : List Token} {boundary : Nat} {ns : List Node} {t : Token}
    (h : t ∈ insertNodes ts boundary ns) : t ∈ ts ∨ t ∈ tokens ns := by
  simp only [insertNodes, List.mem_append] at h
  rcases h with (h | h) | h
  · exact .inl (List.mem_of_mem_take h)
  · exact .inr h
  · exact .inl (List.mem_of_mem_drop h)

lemma nodes_replaceSelected (ns new : List Node) (sel : Selection) (reach : Reach) :
    (replaceSelected ns sel reach new).nodes =
      ofTokens (insertNodes ((sel.span reach (tokens ns)).erase (tokens ns))
        ((sel.span reach (tokens ns)).collapse (tokens ns)) new) := by
  simp only [replaceSelected]

/-- **Replacing a selection** in a well-formed document by a well-formed one gives a third. -/
theorem wellFormed_replaceSelected {ns new : List Node} (h : WellFormed ns) (hnew : WellFormed new)
    (sel : Selection) (reach : Reach) : WellFormed (replaceSelected ns sel reach new).nodes := by
  rw [nodes_replaceSelected]
  refine wellFormed_ofTokens fun t ht => ?_
  rcases mem_insertNodes ht with ht | ht
  · rcases Span.mem_erase ht with rfl | ht
    · trivial
    · exact wellFormed_of_mem_tokens h t ht
  · exact wellFormed_of_mem_tokens hnew t ht

theorem isNormal_replaceSelected (ns new : List Node) (sel : Selection) (reach : Reach) :
    IsNormal (replaceSelected ns sel reach new).nodes := by
  rw [nodes_replaceSelected]
  exact isNormal_ofTokens _

end RichText
