import Mathlib.Tactic.Lemma
import RichText.Proofs.Reading

/-!
Writing a document and reading it again. Whatever markup is read, the document is normal and
well-formed, and the documents that come back from their markup are just those.
-/

namespace RichText

namespace Event

/-! ### What is read -/

lemma readComment_isPrefix (s : Text) : (readComment s).1 <+: s := by
  fun_induction readComment s with
  | case1 => exact List.nil_prefix
  | case2 s => exact List.nil_prefix
  | case3 c s _ ih => exact (List.prefix_cons_inj c).2 ih

/-- A comment that is read ends before the first `-->`. -/
lemma not_isInfix_readComment (s : Text) : ¬"-->".toList <:+: (readComment s).1 := by
  fun_induction readComment s with
  | case1 => decide
  | case2 s => exact (by decide : ¬"-->".toList <:+: [])
  | case3 c s hfirst ih =>
    intro hin
    rcases List.infix_cons_iff.1 hin with hpre | hin
    · obtain ⟨t, ht⟩ := hpre.trans ((List.prefix_cons_inj c).2 (readComment_isPrefix s))
      obtain ⟨hc, hs⟩ := List.cons.inj ht
      exact hfirst t hc.symm hs.symm
    · exact ih hin

lemma wellFormed_readTag {s : Text} {e : Event} (h : (readTag s).1 = some e) : e.WellFormed := by
  unfold readTag at h
  split at h
  · next r => cases h; exact not_isInfix_readComment r
  · cases h
  · cases h
  · split at h
    · cases h; trivial
    · cases h
  · split at h
    · next halpha =>
      split at h
      · next tag rest hread =>
        cases h
        exact StartTag.wellFormed_of_read? halpha hread
      · cases h
    · cases h; trivial

/-- **All that is read is well-formed**, one event at a time. -/
theorem wellFormed_of_mem_ofMarkup {s : Text} {e : Event} (h : e ∈ ofMarkup s) : e.WellFormed := by
  fun_induction ofMarkup s with
  | case1 => cases h
  | case2 r ih =>
    rcases List.mem_append.1 h with h | h
    · exact wellFormed_readTag (Option.mem_toList.1 h)
    · exact ih h
  | case3 c r hc ih =>
    rcases List.mem_cons.1 h with rfl | h
    · trivial
    · exact ih h

end Event

/-! ### Writing and reading -/

theorem isNormal_parse (s : Text) : IsNormal (parse s) := isNormal_normalize _

theorem wellFormed_parse (s : Text) : WellFormed (parse s) :=
  wellFormed_normalize (wellFormed_ofEvents fun _ he => Event.wellFormed_of_mem_ofMarkup he)

theorem parse_markup {ns : List Node} (h : WellFormed ns) : parse (markup ns) = normalize ns :=
  (reads_markup h).parse_eq fun _ => Event.break_nil

/-- What reading markup can give. -/
structure Readable (ns : List Node) : Prop where
  isNormal : IsNormal ns
  wellFormed : WellFormed ns

lemma readable_parse (s : Text) : Readable (parse s) := ⟨isNormal_parse s, wellFormed_parse s⟩

lemma Readable.parse_markup {ns : List Node} (h : Readable ns) : parse (markup ns) = ns := by
  rw [RichText.parse_markup h.wellFormed, normalize_of_isNormal h.isNormal]

/-- **Round trip.** A document comes back from its markup in normal form just when that form is
well-formed; what is parsed is normal and well-formed, hence the normal well-formed documents are
those that can be parsed, and parsing them once more changes nothing. -/
theorem parse_markup_iff_wellFormed :
    (∀ ns, parse (markup ns) = normalize ns ↔ WellFormed (normalize ns)) ∧
      (∀ s, IsNormal (parse s) ∧ WellFormed (parse s)) ∧
      (∀ ns, (∃ s, parse s = ns) ↔ IsNormal ns ∧ WellFormed ns) ∧
      ∀ s, parse (markup (parse s)) = parse s := by
  refine ⟨fun ns => ⟨fun h => ?_, fun h => ?_⟩, fun s => ⟨isNormal_parse s, wellFormed_parse s⟩,
    fun ns => ⟨?_, ?_⟩, fun s => ?_⟩
  · rw [← h]
    exact wellFormed_parse _
  · rw [← markup_normalize, parse_markup h, normalize_normalize]
  · rintro ⟨s, rfl⟩
    exact ⟨isNormal_parse s, wellFormed_parse s⟩
  · rintro ⟨hn, hwf⟩
    exact ⟨markup ns, Readable.parse_markup ⟨hn, hwf⟩⟩
  · exact (readable_parse s).parse_markup

end RichText
