import Mathlib.Tactic.Lemma
import RichText.Proofs.Conservation
import RichText.Proofs.Registering
import RichText.Proofs.StandardActions
import RichText.Proofs.Writing
import RichText.Session

/-!
The source after a text was put between tags. Its tags are written as the action spells them, with
the escaped text between, and around them stands what is left of the source when the text is
deleted.
-/

namespace RichText

/-! ### Spelled as written -/

namespace Transform

/-- The opening and the closing tag between which a transform puts the text. -/
def tags? : Transform → Option (Text × Text)
  | wrap name => some (name, name)
  | enclose opening closing => some (opening, closing)
  | _ => none

/-- Tags that are spelled as an element is written. -/
def Written (opening closing : Text) : Prop :=
  ∃ tag : Tag, tag.WellFormed ∧ tag.isVoid = false ∧
    opening = tag.name ++ tag.attributes.flatMap Attribute.markup ∧ closing = tag.name

lemma Written.enclosed_eq {opening closing : Text} (h : Written opening closing) :
    ∃ tag : Tag, tag.WellFormed ∧ tag.isVoid = false ∧ ∀ s,
      enclosed opening closing (escapeText s) = markup [.element tag [.text s]] := by
  obtain ⟨tag, hwf, hv, rfl, rfl⟩ := h
  refine ⟨tag, hwf, hv, fun s => ?_⟩
  rw [markup_cons, markup_nil, List.append_nil, markup_element hv, markup_cons, markup_nil,
    List.append_nil, Node.markup]

/-- Reading tags that are written so, around an escaped text, and writing them again. -/
lemma Written.markup_parse {opening closing : Text} (h : Written opening closing) (s : Text) :
    markup (parse (enclosed opening closing (escapeText s))) =
      enclosed opening closing (escapeText s) := by
  obtain ⟨tag, hwf, hv, henclosed⟩ := h.enclosed_eq
  have hnode : WellFormed [.element tag [.text s]] :=
    ⟨⟨hwf, by simp [hv], wellFormed_textNode s⟩, trivial⟩
  rw [henclosed, parse_markup hnode, markup_normalize]

lemma written_of_attributes {opening name : Text} (attributes : List Attribute)
    (hname : isElementName name = true ∧ Ascii.lower name = name ∧ isVoidName name = false)
    (hopening : opening = name ++ attributes.flatMap Attribute.markup)
    (h : ∀ n ∈ attributes.map Attribute.name, IsReadAttributeName n)
    (hnodup : (attributes.map Attribute.name).Nodup) : Written opening name := by
  obtain ⟨helement, hlower, hvoid⟩ := hname
  have hplain := wellFormed_plainTag helement
  rw [hlower] at hplain
  exact ⟨⟨name, attributes⟩, ⟨hplain.name, fun a ha => h a.name (List.mem_map_of_mem ha), hnodup⟩,
    hvoid, hopening, rfl⟩

lemma written_name {name : Text} (hname : isElementName name = true ∧ Ascii.lower name = name ∧
    isVoidName name = false) : Written name name :=
  written_of_attributes [] hname (by simp) (by simp) List.nodup_nil

lemma written_of_mem_actions {settings : Settings}
    (hlink : ∀ c ∈ settings.linkTarget, c ≠ '"' ∧ c ≠ '&' ∧ c ≠ '<' ∧ c ≠ '>') {a : Action}
    (ha : a ∈ Standard.actions settings) (hname : a.name ≠ "makeImage") {opening closing : Text}
    (h : a.transform.tags? = some (opening, closing)) : Written opening closing := by
  simp only [Standard.mem_actions, Standard.headings, Standard.alignments, Standard.styles,
    Standard.boxes, Standard.plainEdits, List.mem_cons, List.not_mem_nil, or_false] at ha
  rcases ha with ha | ha | ha | ha | rfl | rfl | ha
  · rcases ha with rfl | rfl | rfl | rfl <;> cases h <;> exact written_name (by decide)
  · have hp {opening : Text} (value : Text)
        (ho : opening = "p".toList ++ Attribute.markup ⟨"class".toList, value⟩) :
        Written opening "p".toList :=
      written_of_attributes [⟨"class".toList, value⟩] (by decide) (by simpa using ho)
        (show ∀ n ∈ ["class".toList], _ by decide) (show ["class".toList].Nodup by decide)
    rcases ha with rfl | rfl | rfl | rfl <;> cases h
    · exact hp "text-left".toList (by decide +kernel)
    · exact hp "text-center".toList (by decide +kernel)
    · exact hp "text-right".toList (by decide +kernel)
    · exact hp "text-justify".toList (by decide +kernel)
  · rcases ha with rfl | rfl | rfl | rfl <;> cases h <;> exact written_name (by decide)
  · have halert {opening : Text} (value : Text)
        (ho : opening = "div".toList ++ Attribute.markup ⟨"class".toList, value⟩ ++
          Attribute.markup ⟨"role".toList, "alert".toList⟩) : Written opening "div".toList :=
      written_of_attributes [⟨"class".toList, value⟩, ⟨"role".toList, "alert".toList⟩] (by decide)
        (by simpa using ho) (show ∀ n ∈ ["class".toList, "role".toList], _ by decide)
        (show ["class".toList, "role".toList].Nodup by decide)
    rcases ha with rfl | rfl | rfl | rfl | rfl | rfl <;> cases h
    · exact written_of_attributes [⟨"class".toList, "well".toList⟩,
        ⟨"style".toList, "color: white;".toList⟩] (by decide) (by decide +kernel) (by decide)
        (by decide)
    · exact halert "alert alert-success".toList (by decide +kernel)
    · exact halert "alert alert-info".toList (by decide +kernel)
    · exact halert "alert alert-warning".toList (by decide +kernel)
    · exact halert "alert alert-danger".toList (by decide +kernel)
  · cases h
    refine written_of_attributes [⟨"target".toList, "_blank".toList⟩,
      ⟨"href".toList, settings.linkTarget⟩] (by decide) ?_
      (show ∀ n ∈ ["target".toList, "href".toList], _ by decide)
      (show ["target".toList, "href".toList].Nodup by decide)
    have hblank : escapeValue "_blank".toList = "_blank".toList := by decide +kernel
    rw [List.flatMap_cons, List.flatMap_cons, List.flatMap_nil, Attribute.markup, Attribute.markup,
      hblank, escapeValue_eq_self hlink]
    simp
  · exact absurd rfl hname
  · rcases ha with rfl | rfl | rfl | rfl <;> cases h

/-- Either way to put a text between tags is one insertion. -/
lemma edits_of_tags? {t : Transform} {opening closing : Text}
    (h : t.tags? = some (opening, closing)) (content : Text) :
    ∃ i : Insertion, t.edits content = [.replace i] ∧
      i.pasted = parse (enclosed opening closing content) ∧
      (t.Plain → '<' ∉ content → i.Plain) := by
  cases t with
  | wrap name =>
    cases h
    exact ⟨.element opening content, rfl, rfl, fun ht hlt => ⟨ht.1, ht.2, hlt⟩⟩
  | enclose o c =>
    cases h
    exact ⟨.tagged opening closing content, rfl, rfl, fun _ _ => trivial⟩
  | _ => cases h

end Transform

/-! ### In the canvas and in the source -/

/-- What is put in place of the primary range is written between two pieces of markup that are
there whatever it is. -/
lemma Canvas.markup_edit_replace {v : Canvas} {sel : Selection}
    (hhost : v.host.interface ≠ .unavailable) (hsel : v.primary? = some sel) :
    ∃ before after : Text, ∀ i : Insertion, i.Plain →
      (v.edit (.replace i)).markup = before ++ RichText.markup i.pasted ++ after := by
  obtain ⟨before, after, h⟩ := markup_replaceSelected v.nodes sel .inner
  refine ⟨before, after, fun i hi => ?_⟩
  rw [markup, nodes_edit_replace hhost hsel hi, h]

namespace Session

variable {settings : Settings} {d : Views} {a : Action}

/-- An action of one insertion in the canvas writes the source anew from what that leads to. -/
lemma act_of_edits (ha : a ∈ Standard.actions settings) (hd : d.active = .rendered)
    (hne : d.canvas.selectedText ≠ []) {i : Insertion}
    (hedits : a.transform.edits (settings.policy.content d.canvas.selectedText) = [.replace i]) :
    ∃ next : Session,
      act ⟨⟨Standard.actions settings, settings.policy⟩, d⟩ a.name = .ok (next, true) ∧
        next.views.source.content = (d.canvas.edit (.replace i)).markup := by
  have hnames : (⟨Standard.actions settings, settings.policy⟩ : Registry).names.Nodup :=
    Standard.nodup_names settings
  have hselected : Surface.selectedText d.canvas = d.canvas.selectedText := rfl
  have hrun := Transform.run_of_selected hselected hne a.transform settings.policy
  refine ⟨⟨⟨Standard.actions settings, settings.policy⟩,
    (d.apply a.transform settings.policy).1⟩, ?_, ?_⟩
  · have hanswer : (d.apply a.transform settings.policy).2 = true := by
      rw [Views.answer_apply_rendered hd, hrun]
    rw [act_of_mem hnames ha, ← hanswer]
    rfl
  · rw [Views.content_apply_rendered hd, hrun, hedits]
    rfl

/-- **Formatting writes the tags around the text** and nothing else: where deleting the selected
text leaves two pieces of markup, a standard action other than that of an image puts its opening
tag, the escaped text and its closing tag between the two. -/
theorem source_act_encloses {r : Registry} (hr : Registry.ofSettings settings [] = .ok r)
    (hpolicy : settings.policy = .escaped)
    (hlink : ∀ c ∈ settings.linkTarget, c ≠ '"' ∧ c ≠ '&' ∧ c ≠ '<' ∧ c ≠ '>')
    (hd : d.active = .rendered) (hne : d.canvas.selectedText ≠ [])
    (ha : a ∈ Standard.actions settings) (hname : a.name ≠ "makeImage") {opening closing : Text}
    (htags : a.transform.tags? = some (opening, closing)) :
    ∃ (before after : Text) (next gone : Session),
      (⟨r, d⟩ : Session).act a.name = .ok (next, true) ∧
      (⟨r, d⟩ : Session).act "deleteText" = .ok (gone, true) ∧
      gone.views.source.content = before ++ after ∧
      next.views.source.content =
        before ++ enclosed opening closing (escapeText d.canvas.selectedText) ++ after := by
  obtain rfl : ⟨Standard.actions settings, settings.policy⟩ = r := Except.ok.inj hr
  obtain ⟨hhost, sel, hsel, -⟩ := Canvas.exists_primary_of_selectedText hne
  obtain ⟨before, after, hmarkup⟩ := Canvas.markup_edit_replace hhost hsel
  obtain ⟨i, hedits, hpasted, hplain⟩ :=
    Transform.edits_of_tags? htags (settings.policy.content d.canvas.selectedText)
  obtain ⟨next, hnext, hsource⟩ := act_of_edits ha hd hne hedits
  have hdelete : (⟨"deleteText", .delete⟩ : Action) ∈ Standard.actions settings :=
    Standard.mem_actions.2 (by simp [Standard.plainEdits])
  obtain ⟨gone, hgone, hrest⟩ := act_of_edits hdelete hd hne rfl
  refine ⟨before, after, next, gone, hnext, hgone, ?_, ?_⟩
  · rw [hrest, hmarkup .nothing trivial, Insertion.pasted_nothing, markup_nil, List.append_nil]
  · have hwritten := Transform.written_of_mem_actions hlink ha hname htags
    have hcontent : settings.policy.content d.canvas.selectedText =
        escapeText d.canvas.selectedText := by rw [hpolicy]; rfl
    rw [hcontent] at hpasted hplain
    have hi : i.Plain := hplain (Transform.plain_of_mem_actions ha) (lt_notMem_escapeText _)
    rw [hsource, hmarkup i hi, hpasted, hwritten.markup_parse]

/-- A link is made of a backward selection that leaves one element and enters another. -/
theorem source_act_encloses_link :
    let settings : Settings := { policy := .escaped }
    let r : Registry := ⟨Standard.actions settings, .escaped⟩
    let d : Views := (Views.ofCanvas (.ofMarkup "<p>a<b>b&lt;</b></p><i>c</i>d".toList
      .legacy)).selectRendered (some ⟨4, 1⟩)
    let a := Standard.link settings.linkTarget
    d.canvas.selectedText = "b<c".toList ∧
      ((⟨r, d⟩ : Session).act "deleteText").toOption.map (fun s => s.1.views.source.content) =
        some "<p>a<b></b></p><i></i>d".toList ∧
      ((⟨r, d⟩ : Session).act a.name).toOption.map (fun s => s.1.views.source.content) =
        some ("<p>a<b></b></p><a target=\"_blank\" href=\"https://example.com\">b&lt;c</a>" ++
          "<i></i>d").toList ∧
      ∃ (before after : Text) (next gone : Session),
        (⟨r, d⟩ : Session).act a.name = .ok (next, true) ∧
        (⟨r, d⟩ : Session).act "deleteText" = .ok (gone, true) ∧
        gone.views.source.content = before ++ after ∧
        next.views.source.content = before ++ enclosed
          ("a target=\"_blank\" href=\"".toList ++ settings.linkTarget ++ ['"']) "a".toList
          (escapeText d.canvas.selectedText) ++ after := by
  intro settings r d a
  have hlink : ∀ c ∈ settings.linkTarget, c ≠ '"' ∧ c ≠ '&' ∧ c ≠ '<' ∧ c ≠ '>' := by
    simp [settings]
  have ha : a ∈ Standard.actions settings := Standard.mem_actions.2 (by simp [a])
  have hne : d.canvas.selectedText ≠ [] := by decide +kernel
  exact ⟨by decide +kernel, by decide +kernel, by decide +kernel,
    source_act_encloses rfl rfl hlink rfl hne ha (by decide) rfl⟩

end Session

end RichText
