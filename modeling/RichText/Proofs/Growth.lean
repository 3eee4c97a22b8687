import Mathlib.Data.List.Induction
import Mathlib.Logic.Relation
import Mathlib.Tactic.Lemma
import RichText.Proofs.Registering

/-!
Registries only grow. Making one fails at the first action whose name is taken already. One that has
been made gains actions at its end, by itself or in a session, and a call that fails leaves it as it
is; so an action that was found once is found ever after.
-/

namespace RichText

/-- The names of the standard actions. -/
def Standard.names : List String :=
  ["makeTextH1", "makeTextH2", "makeTextH3", "makeTextH4", "makeTextAlignLeft",
    "makeTextAlignCenter", "makeTextAlignRight", "makeTextAlignJustify", "makeTextBold",
    "makeTextItalic", "makeTextUnderline", "makeTextStrikethrough", "makeTextQuote", "makeCodeBox",
    "makeAlertSuccess", "makeAlertInfo", "makeAlertWarning", "makeAlertDanger", "makeLink",
    "makeImage", "makeNewLine", "deleteText", "remoteTextTags", "removeTextTags"]

lemma Standard.map_name_actions (settings : Settings) :
    (Standard.actions settings).map Action.name = Standard.names := rfl

namespace Registry

variable {r s : Registry}

/-! ### The name that is refused -/

lemma register_eq_error_iff {a : Action} {e : ActionError} :
    r.register a = .error e ↔ a.name ∈ r.names ∧ e = .duplicate a.name := by
  rw [register, ← isSome_find?_iff]
  split
  · next h => simp [h, eq_comm]
  · next h => simp [h]

/-- The first action that has one of the given names, or that of an action before it. -/
def FirstTaken (names : List String) (as : List Action) (a : Action) : Prop :=
  ∃ before after, as = before ++ a :: after ∧ (names ++ before.map Action.name).Nodup ∧
    a.name ∈ names ++ before.map Action.name

lemma exists_firstTaken {names : List String} (hnames : names.Nodup) {as : List Action}
    (h : ¬(names ++ as.map Action.name).Nodup) : ∃ a, FirstTaken names as a := by
  induction as using List.reverseRecOn with
  | nil => exact absurd (by simpa using hnames) h
  | append_singleton as a ih =>
    by_cases has : (names ++ as.map Action.name).Nodup
    · refine ⟨a, as, [], rfl, has, ?_⟩
      by_contra hnew
      refine h ?_
      rw [List.map_append, ← List.append_assoc]
      exact List.nodup_append_comm.1 (List.nodup_cons.2 ⟨hnew, has⟩)
    · obtain ⟨b, before, after, rfl, hbefore⟩ := ih has
      exact ⟨b, before, after ++ [a], by simp, hbefore⟩

lemma registerAll_of_firstTaken (hr : r.names.Nodup) {as : List Action} {a : Action}
    (h : FirstTaken r.names as a) : r.registerAll as = .error (.duplicate a.name) := by
  obtain ⟨before, after, rfl, hbefore, ha⟩ := h
  have happend : r.registerAll (before ++ a :: after) =
      r.registerAll before >>= fun t => t.registerAll (a :: after) := List.foldlM_append
  have hcons (t : Registry) : t.registerAll (a :: after) =
      t.register a >>= fun u => u.registerAll after := List.foldlM_cons
  have htaken : a.name ∈ ({ r with actions := r.actions ++ before } : Registry).names := by
    rwa [names, List.map_append]
  rw [happend, (registerAll_eq_ok_iff hr).2 ⟨hbefore, rfl⟩]
  change registerAll _ (a :: after) = _
  rw [hcons, register_eq_error_iff.2 ⟨htaken, rfl⟩]
  rfl

/-- **Registering fails** at the first name that is taken. -/
theorem registerAll_eq_error_iff (hr : r.names.Nodup) {as : List Action} {e : ActionError} :
    r.registerAll as = .error e ↔ ∃ a, FirstTaken r.names as a ∧ e = .duplicate a.name := by
  have htotal : (∃ s, (r.names ++ as.map Action.name).Nodup ∧
      s = { r with actions := r.actions ++ as }) ∨
        ∃ e, ∃ a, FirstTaken r.names as a ∧ e = ActionError.duplicate a.name := by
    by_cases h : (r.names ++ as.map Action.name).Nodup
    · exact .inl ⟨_, h, rfl⟩
    · obtain ⟨a, ha⟩ := exists_firstTaken hr h
      exact .inr ⟨_, a, ha, rfl⟩
  refine (outcome_iff_of_total (fun s => (registerAll_eq_ok_iff hr).2) ?_ htotal).2 e
  rintro e ⟨a, ha, rfl⟩
  exact registerAll_of_firstTaken hr ha

/-! ### Later calls -/

/-- A registry after a call that registers an action. One that fails leaves it as it is. -/
def offer (r : Registry) (a : Action) : Registry :=
  match r.register a with
  | .ok s => s
  | .error _ => r

/-- What may happen to a registry: an action is registered, or a session that has it takes a step. -/
inductive Call : Registry → Registry → Prop
  | register (r : Registry) (a : Action) : Call r (r.offer a)
  | session (s : Session) (step : Session.Step) : Call s.registry (s.step step).1.registry

/-- Made of the standard actions and others, then changed by any calls. -/
def Reachable (r : Registry) : Prop :=
  ∃ settings extra made, ofSettings settings extra = .ok made ∧ Relation.ReflTransGen Call made r

/-- All actions are there still, in their order; names that were distinct are so again. -/
structure Grows (r s : Registry) : Prop where
  actions : r.actions <+: s.actions
  nodup : r.names.Nodup → s.names.Nodup

lemma grows_refl (r : Registry) : Grows r r := ⟨List.prefix_refl _, id⟩

lemma Grows.trans {t : Registry} (h : Grows r s) (h' : Grows s t) : Grows r t :=
  ⟨h.actions.trans h'.actions, h'.nodup ∘ h.nodup⟩

lemma Grows.find? (h : Grows r s) {name : String} {a : Action} (ha : r.find? name = some a) :
    s.find? name = some a := h.actions.find?_eq_some ha

lemma grows_offer (r : Registry) (a : Action) : Grows r (r.offer a) := by
  rw [offer]
  split
  · next s hs =>
    obtain ⟨hnew, rfl⟩ := register_eq_ok_iff.1 hs
    refine ⟨List.prefix_append _ _, fun h => ?_⟩
    rw [names, List.map_append]
    exact List.nodup_append_comm.1 (List.nodup_cons.2 ⟨hnew, h⟩)
  · exact grows_refl r

end Registry

namespace Session

/-- A session's registry changes when an action is registered, and in no other step. -/
lemma registry_step (s : Session) (step : Step) :
    (s.step step).1.registry = s.registry ∨
      ∃ a, step = .register a ∧ (s.step step).1.registry = s.registry.offer a := by
  cases step with
  | register a =>
    refine .inr ⟨a, rfl, ?_⟩
    rw [Session.step, register, Registry.offer]
    cases s.registry.register a <;> rfl
  | act name =>
    rw [step_act]
    split <;> exact .inl rfl
  | _ => exact .inl rfl

lemma step_register_of_error {s : Session} {a : Action} {e : ActionError}
    (h : s.registry.register a = .error e) : s.step (.register a) = (s, .failed e) := by
  rw [step, register, h]
  rfl

end Session

namespace Registry

variable {r s : Registry}

lemma Call.grows (h : Call r s) : Grows r s := by
  cases h with
  | register _ a => exact grows_offer r a
  | session s step =>
    rcases s.registry_step step with hsame | ⟨a, -, hoffer⟩
    · rw [hsame]
      exact grows_refl _
    · rw [hoffer]
      exact grows_offer _ a

lemma grows_of_calls (h : Relation.ReflTransGen Call r s) : Grows r s := by
  induction h with
  | refl => exact grows_refl r
  | tail _ hcall ih => exact ih.trans hcall.grows

lemma Reachable.nodup (h : Reachable r) : r.names.Nodup := by
  obtain ⟨settings, extra, made, hmade, hcalls⟩ := h
  obtain ⟨hnodup, rfl⟩ := ofSettings_eq_ok_iff.1 hmade
  exact (grows_of_calls hcalls).nodup hnodup

/-- **A registry is an append-only map.** It can be made of the standard actions and others just if
all names are distinct, and has them in that order, each found by its name; otherwise the first name
that is taken is refused. Whatever happens to it later, names stay distinct, a call that fails
changes nothing, and what was found is found again. -/
theorem append_only (settings : Settings) (extra : List Action) :
    ((∃ r, ofSettings settings extra = .ok r) ↔
        (Standard.names ++ extra.map Action.name).Nodup) ∧
      (∀ r, ofSettings settings extra = .ok r →
        r.names = Standard.names ++ extra.map Action.name ∧
          ∀ name a, r.find? name = some a ↔
            a ∈ Standard.actions settings ++ extra ∧ a.name = name) ∧
      (∀ e, ofSettings settings extra = .error e ↔
        ∃ a, FirstTaken Standard.names extra a ∧ e = .duplicate a.name) ∧
      ∀ r, Reachable r → r.names.Nodup ∧
        (∀ a e, r.register a = .error e → r.offer a = r ∧
          ∀ views, (⟨r, views⟩ : Session).step (.register a) = (⟨r, views⟩, .failed e)) ∧
        ∀ s, Relation.ReflTransGen Call r s →
          r.names <+: s.names ∧ ∀ name a, r.find? name = some a → s.find? name = some a := by
  refine ⟨?_, fun r hr => ?_, fun e => ?_, fun r hr => ⟨hr.nodup, fun a e he => ?_, fun s hs => ?_⟩⟩
  · rw [← Standard.map_name_actions settings, ← List.map_append]
    exact ⟨fun ⟨r, hr⟩ => (ofSettings_eq_ok_iff.1 hr).1,
      fun h => ⟨_, ofSettings_eq_ok_iff.2 ⟨h, rfl⟩⟩⟩
  · obtain ⟨hnodup, rfl⟩ := ofSettings_eq_ok_iff.1 hr
    refine ⟨?_, fun name a => find?_eq_some_iff (r := ⟨_, settings.policy⟩) hnodup⟩
    rw [names, List.map_append, Standard.map_name_actions]
  · exact registerAll_eq_error_iff (r := ⟨Standard.actions settings, settings.policy⟩)
      (Standard.nodup_names settings)
  · refine ⟨?_, fun views => Session.step_register_of_error he⟩
    rw [offer, he]
  · have hgrows := grows_of_calls hs
    exact ⟨hgrows.actions.map Action.name, fun name a => hgrows.find?⟩

/-- A mark is registered and found ever after; a second action for bold text is refused, when the
registry is made and later. -/
theorem append_only_mark :
    let mark : Action := ⟨"makeTextMark", .wrap "mark".toList⟩
    let bold : Action := ⟨"makeTextBold", .wrap "strong".toList⟩
    ofSettings {} [mark, bold, mark] = .error (.duplicate "makeTextBold") ∧
      ∃ r, ofSettings {} [mark] = .ok r ∧ Reachable r ∧
        r.register bold = .error (.duplicate "makeTextBold") ∧ r.offer bold = r ∧
        ∀ s, Relation.ReflTransGen Call r s → s.find? "makeTextMark" = some mark := by
  intro mark bold
  obtain ⟨-, -, hrefused, -⟩ := append_only {} [mark, bold, mark]
  obtain ⟨hmade, hfound, -, hlater⟩ := append_only {} [mark]
  have hdistinct : (Standard.names ++ [mark].map Action.name).Nodup := by decide +kernel
  obtain ⟨r, hr⟩ := hmade.2 hdistinct
  have hreach : Reachable r := ⟨{}, [mark], r, hr, .refl⟩
  obtain ⟨-, hfails, hkeeps⟩ := hlater r hreach
  have hmark : r.find? "makeTextMark" = some mark :=
    ((hfound r hr).2 _ _).2 ⟨List.mem_append_right _ List.mem_cons_self, rfl⟩
  have hbold : r.register bold = .error (.duplicate "makeTextBold") := by
    refine register_eq_error_iff.2 ⟨?_, rfl⟩
    rw [(hfound r hr).1]
    decide +kernel
  refine ⟨(hrefused _).2 ⟨bold, ⟨[mark], [mark], rfl, hdistinct, by decide +kernel⟩, rfl⟩, r, hr,
    hreach, hbold, (hfails _ _ hbold).1, fun s hs => (hkeeps s hs).2 _ _ hmark⟩

end Registry

end RichText
