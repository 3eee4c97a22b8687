import Mathlib.Data.List.Nodup
import Mathlib.Tactic.Lemma
import RichText.Proofs.Outcomes
import RichText.Registry.Standard
import RichText.Session

/-!
What a registry is after registering: the actions that it had and the new ones behind them, or an
error if two of them have one name.
-/

namespace RichText

namespace Registry

variable {r s : Registry}

lemma isSome_find?_iff {name : String} : (r.find? name).isSome = true ↔ name ∈ r.names := by
  simp only [find?, names, List.find?_isSome, beq_iff_eq, List.mem_map]

lemma mem_of_find?_eq_some {name : String} {a : Action} (h : r.find? name = some a) :
    a ∈ r.actions ∧ a.name = name :=
  ⟨List.mem_of_find?_eq_some h, by simpa using List.find?_some h⟩

/-- Under distinct names each action is found by its own. -/
lemma find?_eq_some_iff (h : r.names.Nodup) {name : String} {a : Action} :
    r.find? name = some a ↔ a ∈ r.actions ∧ a.name = name := by
  refine ⟨mem_of_find?_eq_some, ?_⟩
  rintro ⟨ha, rfl⟩
  have hname : a.name ∈ r.names := List.mem_map_of_mem ha
  obtain ⟨b, hb⟩ := Option.isSome_iff_exists.1 (isSome_find?_iff.2 hname)
  obtain ⟨hmem, heq⟩ := mem_of_find?_eq_some hb
  rw [hb, List.inj_on_of_nodup_map h hmem ha heq]

lemma register_eq_ok_iff {a : Action} :
    r.register a = .ok s ↔ a.name ∉ r.names ∧ s = { r with actions := r.actions ++ [a] } := by
  rw [register, ← isSome_find?_iff]
  split
  · next h => simp [h]
  · next h => simp [h, eq_comm]

/-- **Registering** succeeds just if all names are distinct. -/
theorem registerAll_eq_ok_iff (hr : r.names.Nodup) {as : List Action} :
    r.registerAll as = .ok s ↔
      (r.names ++ as.map Action.name).Nodup ∧ s = { r with actions := r.actions ++ as } := by
  induction as generalizing r with
  | nil => simp [registerAll, hr, pure, Except.pure, eq_comm]
  | cons a as ih =>
    have hnames : ({ r with actions := r.actions ++ [a] } : Registry).names = r.names ++ [a.name] :=
      List.map_append
    have hcons : r.registerAll (a :: as) = r.register a >>= fun t => t.registerAll as :=
      List.foldlM_cons
    have happend : r.names ++ (a :: as).map Action.name =
        r.names ++ [a.name] ++ as.map Action.name := by simp
    rw [hcons, bind_eq_ok, happend]
    constructor
    · rintro ⟨t, ht, hrest⟩
      obtain ⟨hnew, rfl⟩ := register_eq_ok_iff.1 ht
      have hnodup : (r.names ++ [a.name]).Nodup := by
        rw [List.nodup_append_comm]
        exact List.nodup_cons.2 ⟨hnew, hr⟩
      obtain ⟨hall, rfl⟩ := (ih (hnames ▸ hnodup)).1 hrest
      rw [hnames] at hall
      exact ⟨hall, by simp⟩
    · rintro ⟨hall, rfl⟩
      have hnodup : (r.names ++ [a.name]).Nodup := (List.nodup_append.1 hall).1
      have hnew : a.name ∉ r.names := by
        rw [List.nodup_append_comm] at hnodup
        exact (List.nodup_cons.1 hnodup).1
      refine ⟨_, register_eq_ok_iff.2 ⟨hnew, rfl⟩, (ih (hnames ▸ hnodup)).2 ⟨?_, by simp⟩⟩
      rw [hnames]
      exact hall

end Registry

/-- The names of the standard actions do not depend on the settings. -/
lemma Standard.nodup_names (settings : Settings) :
    ((Standard.actions settings).map Action.name).Nodup := by
  have hnames : (Standard.actions settings).map Action.name =
      (Standard.actions {}).map Action.name := rfl
  rw [hnames]
  decide +kernel

/-- **A registry can be made** of the standard actions and others just if all names are distinct. -/
theorem Registry.ofSettings_eq_ok_iff {settings : Settings} {extra : List Action} {r : Registry} :
    Registry.ofSettings settings extra = .ok r ↔
      ((Standard.actions settings ++ extra).map Action.name).Nodup ∧
        r = ⟨Standard.actions settings ++ extra, settings.policy⟩ := by
  rw [List.map_append]
  exact @Registry.registerAll_eq_ok_iff ⟨Standard.actions settings, settings.policy⟩ r
    (Standard.nodup_names settings) extra

namespace Session

variable {s : Session} {a : Action}

/-- Under distinct names an action is run as its transform. -/
lemma act_of_mem (h : s.registry.names.Nodup) (ha : a ∈ s.registry.actions) :
    s.act a.name = .ok (s.apply a.transform) := by
  have hfind : s.registry.find? a.name = some a := (Registry.find?_eq_some_iff h).2 ⟨ha, rfl⟩
  rw [act, hfind]

lemma step_act_of_mem (h : s.registry.names.Nodup) (ha : a ∈ s.registry.actions) :
    (s.step (.act a.name)).1 = (s.apply a.transform).1 := by
  rw [step, act_of_mem h ha]

end Session

end RichText
