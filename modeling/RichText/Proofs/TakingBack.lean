import Mathlib.Tactic.Lemma
import RichText.Proofs.Registering
import RichText.Proofs.Splice
import RichText.Proofs.Typing
import RichText.Session

/-!
Taking back what was typed. A text goes in where the caret stands, which may be behind leaves or in
an empty element; it is found again by counting characters. In the row of tokens its characters
stand together, so when they are selected and deleted just they are taken out, and the two halves
of a text that was split around them are joined.
-/

namespace RichText

open Boundary

variable {sel : Selection} {s : Text}

/-- **Taking out what was put in** at a caret gives the document back, in normal form. -/
theorem replaceSelected_text_nothing {ns : List Node} (h : VoidsEmpty ns) {n : Nat}
    (hn : n ≤ (plainText ns).length) (hs : s ≠ []) (hsel : sel.ordered = ⟨n, n + s.length⟩) :
    (replaceSelected (replaceSelected ns (.caret n) .inner [.text s]).nodes sel .inner []).nodes =
      normalize ns := by
  obtain ⟨hstart, hstop⟩ := Selection.mk.inj hsel
  rw [← charsOf_tokens h] at hn
  have hvoids : VoidsEmpty [.text s] := ⟨trivial, trivial⟩
  have hrow : tokens (replaceSelected ns (.caret n) .inner [.text s]).nodes =
      (tokens ns).take (caret n (tokens ns)) ++ s.map .char ++
        (tokens ns).drop (caret n (tokens ns)) := by
    rw [tokens_replaceSelected_caret h hvoids hn, insertNodes]
    simp [Node.tokens]
  have hbefore : (charsOf ((tokens ns).take (caret n (tokens ns)))).length = n :=
    (offset_caret n (tokens ns)).trans (Nat.min_eq_left hn)
  rw [nodes_replaceSelected_of_chars hs hrow (hstart.trans hbefore.symm)
    (by rw [hstop, hbefore]), tokens_nil, List.append_nil, List.take_append_drop, ofTokens_tokens]

/-- Deleting is one edit, whether or not anything is selected. -/
lemma Transform.run_delete {σ : Type} [Surface σ] (policy : Policy) (s : σ) :
    (Transform.delete.run policy s).1 = Surface.edit s (.replace .nothing) := by
  simp only [Transform.run, Transform.needsText, Bool.and_false]
  rfl

namespace Views

variable {v : Canvas}

lemma typed_caret (h : VoidsEmpty v.nodes) (hhost : v.host.interface ≠ .unavailable) (n : Nat)
    (s : Text) :
    typed (v.select (some (.caret n))) s =
      ⟨(replaceSelected v.nodes (.caret (min n v.length)) .inner [.text s]).nodes,
        [.caret (min n v.length + s.length)], v.host⟩ := by
  have hprimary : (v.select (some (.caret n))).primary? = some (.caret (min n v.length)) := rfl
  have hstart : min (Selection.caret (min n v.length)).start v.length = min n v.length := by
    rw [Selection.start_caret]
    exact Nat.min_eq_left (Nat.min_le_right _ _)
  rw [typed_eq (v := v.select (some (.caret n))) h hhost hprimary]
  exact congrArg (fun i => (⟨_, [.caret (i + s.length)], v.host⟩ : Canvas)) hstart

/-- What was typed at a caret is selected, and nothing is put in its place. -/
lemma nodes_typed_nothing (h : VoidsEmpty v.nodes) (hhost : v.host.interface ≠ .unavailable)
    {n : Nat} (hs : s ≠ [])
    (hsel : sel.ordered = ⟨min n v.length, min n v.length + s.length⟩) :
    (((typed (v.select (some (.caret n))) s).select (some sel)).edit (.replace .nothing)).nodes =
      normalize v.nodes := by
  have hvoids : VoidsEmpty [.text s] := ⟨trivial, trivial⟩
  have hle : min n v.length ≤ (plainText v.nodes).length := Nat.min_le_right _ _
  -- the selection is inside the longer text, so it stays as it is
  have hclamp : sel.clamp (plainText
      (replaceSelected v.nodes (.caret (min n v.length)) .inner [.text s]).nodes).length = sel := by
    have hlen := stop_replaceSelected_le h hvoids (.caret (min n v.length)) .inner
    rw [Selection.start_caret, Nat.min_eq_left hle, plainText_text, plainText_nil,
      List.append_nil] at hlen
    exact Selection.clamp_of_stop_le ((Selection.mk.inj hsel).2.trans_le hlen)
  rw [typed_caret h hhost]
  refine (Canvas.nodes_edit_replace (v := Canvas.select ⟨_, _, v.host⟩ (some sel)) hhost
    (congrArg some hclamp) (i := .nothing) trivial).trans ?_
  rw [Insertion.pasted_nothing]
  exact replaceSelected_text_nothing h hle hs hsel

end Views

namespace Session

/-- **Deleting what was typed** at a caret, when it is selected in either direction, gives back the
document as it was, and its markup. -/
theorem run_type_delete {settings : Settings} {extra : List Action} {r : Registry}
    (hr : Registry.ofSettings settings extra = .ok r) {d : Views}
    (hnormal : IsNormal d.canvas.nodes) (h : VoidsEmpty d.canvas.nodes)
    (hhost : d.canvas.host.interface ≠ .unavailable) {n : Nat} (hs : s ≠ [])
    (hsel : sel.ordered = ⟨min n d.canvas.length, min n d.canvas.length + s.length⟩) :
    let after := ((⟨r, d⟩ : Session).run [.selectRendered (some (.caret n)), .typeRendered s,
      .selectRendered (some sel), .act "deleteText"]).views
    after.canvas.nodes = d.canvas.nodes ∧ after.source.content = d.canvas.markup := by
  intro after
  obtain ⟨hall, rfl⟩ := Registry.ofSettings_eq_ok_iff.1 hr
  have hnames : (⟨Standard.actions settings ++ extra, settings.policy⟩ : Registry).names.Nodup :=
    hall
  have hmem : (⟨"deleteText", .delete⟩ : Action) ∈ Standard.actions settings ++ extra :=
    List.mem_append_left _ (by simp [Standard.mem_actions, Standard.plainEdits])
  let e := ((d.selectRendered (some (.caret n))).typeRendered s).selectRendered (some sel)
  have hafter : after = (e.apply .delete settings.policy).1 :=
    congrArg Session.views (step_act_of_mem (s := ⟨_, e⟩) hnames hmem)
  have hcanvas : after.canvas = e.canvas.edit (.replace .nothing) := by
    rw [hafter, Views.canvas_apply_rendered rfl, Transform.run_delete]
    rfl
  have hnodes : after.canvas.nodes = d.canvas.nodes := by
    rw [hcanvas]
    exact (Views.nodes_typed_nothing h hhost hs hsel).trans (normalize_of_isNormal hnormal)
  refine ⟨hnodes, ?_⟩
  rw [Canvas.markup, ← hnodes, hafter, Views.content_apply_rendered rfl,
    Views.canvas_apply_rendered rfl]
  rfl

/-- Behind the break at the end of a paragraph, before an empty element; the typed text looks like
markup and is selected backwards. -/
theorem run_type_delete_break :
    let d : Views := .ofMarkup "<p>a<br></p><i></i>b".toList .legacy
    let r : Registry := ⟨Standard.actions {}, .verbatim⟩
    let typed : List Step := [.selectRendered (some (.caret 1)), .typeRendered "<b>&".toList]
    let after := ((⟨r, d⟩ : Session).run (typed ++
      [.selectRendered (some ⟨5, 1⟩), .act "deleteText"])).views
    IsNormal d.canvas.nodes ∧ VoidsEmpty d.canvas.nodes ∧
      ((⟨r, d⟩ : Session).run typed).views.source.content =
        "<p>a<br>&lt;b&gt;&amp;</p><i></i>b".toList ∧
      after.canvas.nodes = d.canvas.nodes ∧ after.source.content = d.canvas.markup := by
  intro d r typed after
  have hnormal : IsNormal d.canvas.nodes := isNormal_normalize _
  have hvoids : VoidsEmpty d.canvas.nodes :=
    (wellFormed_normalize (wellFormed_parse _)).voidsEmpty
  have hr : Registry.ofSettings {} [] = .ok r := rfl
  exact ⟨hnormal, hvoids, by decide +kernel,
    run_type_delete (n := 1) hr hnormal hvoids nofun nofun (by decide +kernel)⟩

end Session

end RichText
