import Mathlib.Tactic.Lemma

/-!
Outcomes of computations that may fail: when a chain of two succeeds, what becomes of an outcome if
errors are told in other words, and how success and failure are told apart once all cases are known.
-/

namespace RichText

variable {ε ε' α β : Type} {x : Except ε α}

lemma bind_eq_ok {f : α → Except ε β} {b : β} :
    (x >>= f) = .ok b ↔ ∃ a, x = .ok a ∧ f a = .ok b := by
  cases x <;> simp [bind, Except.bind]

lemma mapError_eq_error {f : ε → ε'} {e : ε'} :
    x.mapError f = .error e ↔ ∃ d, x = .error d ∧ f d = e := by
  constructor
  · intro h
    cases x with
    | ok a => cases h
    | error d => exact ⟨d, rfl, Except.error.inj h⟩
  · rintro ⟨d, rfl, rfl⟩
    rfl

/-- A computation succeeds and fails just where it is known to, once these are all cases. -/
lemma outcome_iff_of_total {P : α → Prop} {Q : ε → Prop}
    (hok : ∀ a, P a → x = .ok a) (herror : ∀ e, Q e → x = .error e)
    (htotal : (∃ a, P a) ∨ ∃ e, Q e) :
    (∀ a, x = .ok a ↔ P a) ∧ ∀ e, x = .error e ↔ Q e := by
  rcases htotal with ⟨b, hb⟩ | ⟨d, hd⟩
  · obtain rfl := hok b hb
    exact ⟨fun a => ⟨fun h => Except.ok.inj h ▸ hb, hok a⟩, fun e => ⟨nofun, herror e⟩⟩
  · obtain rfl := herror d hd
    exact ⟨fun a => ⟨nofun, hok a⟩, fun e => ⟨fun h => Except.error.inj h ▸ hd, herror e⟩⟩

end RichText
