import Mathlib.Tactic.Lemma
import RichText.Proofs.Edits
import RichText.Proofs.Place
import RichText.Proofs.Rewriting
import RichText.Proofs.Splice
import RichText.Proofs.StandardActions
import RichText.Views

/-!
Editing a word in the canvas and editing the same word in the source. In the canvas it is a run of
characters in a row of tokens, in the source a run of characters of the markup; either edit puts the
same nodes in place of the word, between the two halves of the text it was in.
-/

namespace RichText

open Place

/-! ### In the canvas -/

/-- A part of a text in a place is selected. -/
structure Canvas.Selects (v : Canvas) (p : Place) (x y z : Text) : Prop where
  nodes : v.nodes = p.fill [.text (x ++ y ++ z)]
  selected : ∃ sel, v.primary? = some sel ∧ sel.start = p.textBefore.length + x.length ∧
    sel.stop = p.textBefore.length + x.length + y.length

namespace Canvas

variable {v : Canvas} {p : Place} {x y z : Text}

lemma tokens_fill_text (hp : p.Open) :
    tokens (p.fill [.text (x ++ y ++ z)]) =
      (p.tokensBefore ++ x.map .char) ++ y.map .char ++ (z.map .char ++ p.tokensAfter) := by
  rw [tokens_fill hp]
  simp [Node.tokens]

lemma length_charsBefore (hwf : WellFormed (p.fill [.text (x ++ y ++ z)])) :
    (charsOf (p.tokensBefore ++ x.map .char)).length = p.textBefore.length + x.length := by
  rw [charsOf_append, charsOf_map_char, charsOf_tokensBefore hwf.voidsEmpty, List.length_append]

/-- **Replacing the selected part** leaves what is put in between the two halves of the text. -/
lemma Selects.replaceSelected (h : v.Selects p x y z) (hwf : WellFormed v.nodes) (hy : y ≠ [])
    {sel : Selection} (hsel : v.primary? = some sel) (new : List Node) :
    (replaceSelected v.nodes sel .inner new).nodes =
      normalize (p.fill (.text x :: new ++ [.text z])) := by
  rw [h.nodes] at hwf ⊢
  obtain ⟨sel', hsel', hstart, hstop⟩ := h.selected
  obtain rfl := Option.some.inj (hsel.symm.trans hsel')
  have hp := open_of_wellFormed (List.cons_ne_nil _ _) hwf
  rw [nodes_replaceSelected_of_chars hy (tokens_fill_text hp)
    (by rw [length_charsBefore hwf, hstart]) (by rw [length_charsBefore hwf, hstop]),
    ← ofTokens_tokens, tokens_fill hp]
  simp [Node.tokens]

lemma Selects.selectedText (h : v.Selects p x y z) (hwf : WellFormed v.nodes) (hy : y ≠ [])
    (hhost : v.host.interface ≠ .unavailable) : v.selectedText = y := by
  obtain ⟨sel, hsel, hstart, hstop⟩ := h.selected
  have htext : v.textIn sel = y := by
    rw [h.nodes] at hwf
    have hp := open_of_wellFormed (List.cons_ne_nil _ _) hwf
    rw [textIn, h.nodes, tokens_fill_text hp]
    exact text_of_chars hy (by rw [length_charsBefore hwf, hstart])
      (by rw [length_charsBefore hwf, hstop])
  rw [Canvas.selectedText, readPrimary_eq hhost hsel, htext]

lemma Selects.edit (h : v.Selects p x y z) (hwf : WellFormed v.nodes) (hy : y ≠ [])
    (hhost : v.host.interface ≠ .unavailable) {i : Insertion} (hi : i.Plain) :
    (v.edit (.replace i)).nodes = normalize (p.fill (.text x :: i.pasted ++ [.text z])) := by
  obtain ⟨sel, hsel, -⟩ := h.selected
  rw [nodes_edit_replace hhost hsel hi, h.replaceSelected hwf hy hsel]

end Canvas

/-! ### In the source -/

/-- The same part of the text is selected in the markup, in which it is spelled as it is. -/
structure Source.Selects (v : Source) (p : Place) (x y z : Text) : Prop where
  content : v.content = markup (p.fill [.text (x ++ y ++ z)])
  start : v.selection.start = p.markupBefore.length + (escapeText x).length
  stop : v.selection.stop = p.markupBefore.length + (escapeText x).length + y.length

namespace Source

variable {v : Source} {p : Place} {x y z : Text}

lemma Selects.covers (h : v.Selects p x y z) (hp : p.Open) (hy : escapeText y = y) :
    v.Covers (p.markupBefore ++ escapeText x) y (escapeText z ++ p.markupAfter) := by
  refine ⟨?_, ?_⟩
  · rw [h.content, markup_fill hp]
    simp [Node.markup, hy]
  · rw [Selection.ordered, h.start, h.stop, List.length_append]

lemma Selects.selectedText (h : v.Selects p x y z) (hp : p.Open) (hy : escapeText y = y) :
    v.selectedText = y :=
  (h.covers hp hy).selectedText

lemma Selects.content_splice (h : v.Selects p x y z) (hp : p.Open) (hy : escapeText y = y)
    (s : Text) :
    (v.splice s).content =
      p.markupBefore ++ (escapeText x ++ s ++ escapeText z) ++ p.markupAfter := by
  rw [(h.covers hp hy).splice]
  simp

/-- **Splicing markup over the selected part**: what is read then has the nodes of the markup
between the two halves of the text. -/
theorem Selects.parse_splice (h : v.Selects p x y z) (hy : escapeText y = y)
    (hread : Readable (p.fill [.text (x ++ y ++ z)])) {s : Text} (hs : Standalone s) :
    parse (v.splice s).content = normalize (p.fill (.text x :: parse s ++ [.text z])) := by
  have hp := open_of_wellFormed (List.cons_ne_nil _ _) hread.wellFormed
  rw [h.content_splice hp hy]
  exact (reads_fill rfl hread (hs.reads_between x z)).parse_eq Event.break_nil

end Source

/-! ### Transforms that put something in place of the text -/

/-- A transform that puts one insertion in place of the selection, and markup that is read the same
everywhere: a wrap in an element with an end tag, the tags of a standard action, a line break, or
nothing. -/
inductive Transform.Inserts (settings : Settings) : Transform → Prop
  | wrap {name : Text} (hname : isElementName name = true) (hvoid : isVoidName name = false) :
    Inserts settings (.wrap name)
  | enclose {a : Action} {opening closing : Text} (ha : a ∈ Standard.actions settings)
    (h : a.transform = .enclose opening closing) : Inserts settings (.enclose opening closing)
  | lineBreak : Inserts settings .lineBreak
  | delete : Inserts settings .delete

/-- Such a transform is one insertion of standalone markup, which both interfaces make the same
nodes of. -/
lemma Transform.Inserts.edits {settings : Settings} (hlink : '"' ∉ settings.linkTarget)
    (himage : '"' ∉ settings.imageSource) {t : Transform} (ht : t.Inserts settings) {content : Text}
    (hlt : '<' ∉ content) :
    ∃ i : Insertion, t.edits content = [.replace i] ∧ i.Plain ∧ i.pasted = parse i.markup ∧
      Standalone i.markup := by
  cases ht with
  | @wrap name hname hvoid =>
    exact ⟨.element name content, rfl, ⟨hname, hvoid, hlt⟩, rfl,
      (reads_element hname hvoid hlt).standalone (Event.break_lt _)⟩
  | @enclose a o c ha h =>
    obtain ⟨hc, attributes, hattrs, rfl⟩ := spelled_of_mem_actions hlink himage ha o c h
    exact ⟨.tagged (opening c attributes) c content, rfl, trivial, rfl,
      standalone_enclosed hc hattrs hlt⟩
  | lineBreak => exact ⟨.lineBreak, rfl, trivial, rfl, reads_br.standalone (Event.break_lt _)⟩
  | delete => exact ⟨.nothing, rfl, trivial, rfl, standalone_nil⟩

/-! ### Both paths -/

/-- A word without the characters that are escaped is put into markup as it is. -/
lemma Policy.content_eq_self {y : Text} (hy : ∀ c ∈ y, c ≠ '&' ∧ c ≠ '<' ∧ c ≠ '>')
    (policy : Policy) : policy.content y = y := by
  cases policy with
  | verbatim => rfl
  | escaped => exact escapeText_eq_self hy

namespace Views

variable {settings : Settings} {d e : Views} {p : Place} {x y z : Text} {t : Transform}

lemma nodes_apply_markup (he : e.active = .markup) (t : Transform) (policy : Policy) :
    (e.apply t policy).1.canvas.nodes = normalize (parse (t.run policy e.source).1.content) := by
  obtain ⟨v, source, active⟩ := e
  obtain rfl : active = .markup := he
  rfl

/-- The canvas path: the nodes of the insertion stand between the two halves of the text. -/
lemma nodes_apply_of_canvas (hd : d.active = .rendered) (hcanvas : d.canvas.Selects p x y z)
    (hwf : WellFormed d.canvas.nodes) (hne : y ≠ [])
    (hhost : d.canvas.host.interface ≠ .unavailable) {policy : Policy} {i : Insertion}
    (hedits : t.edits (policy.content y) = [.replace i]) (hplain : i.Plain) :
    (d.apply t policy).1.canvas.nodes = normalize (p.fill (.text x :: i.pasted ++ [.text z])) := by
  have hselected : Surface.selectedText d.canvas = y := hcanvas.selectedText hwf hne hhost
  rw [canvas_apply_rendered hd, Transform.run_of_selected hselected hne, hedits]
  exact hcanvas.edit hwf hne hhost hplain

/-- The source path: so do the nodes that its markup is read as. -/
lemma nodes_apply_of_source (he : e.active = .markup) (hsource : e.source.Selects p x y z)
    (hread : Readable (p.fill [.text (x ++ y ++ z)])) (hne : y ≠ []) (hy : escapeText y = y)
    {policy : Policy} {i : Insertion} (hedits : t.edits (policy.content y) = [.replace i])
    (hi : Standalone i.markup) :
    (e.apply t policy).1.canvas.nodes =
      normalize (p.fill (.text x :: parse i.markup ++ [.text z])) := by
  have hselected : Surface.selectedText e.source = y :=
    hsource.selectedText (open_of_wellFormed (List.cons_ne_nil _ _) hread.wellFormed) hy
  have hparse := hsource.parse_splice hy hread hi
  rw [nodes_apply_markup he, Transform.run_of_selected hselected hne, hedits,
    ← normalize_normalize (p.fill _), ← hparse]
  rfl

/-- **The canvas and the source agree about an edit of a word.** A text holds a word without
characters that are escaped, and the word is selected in the canvas of one pair of views and in the
source of another; then a transform that inserts leaves the same document in both. -/
theorem apply_rendered_eq_apply_markup (hlink : '"' ∉ settings.linkTarget)
    (himage : '"' ∉ settings.imageSource) (ht : t.Inserts settings)
    (hread : Readable (p.fill [.text (x ++ y ++ z)])) (hne : y ≠ [])
    (hy : ∀ c ∈ y, c ≠ '&' ∧ c ≠ '<' ∧ c ≠ '>') (hd : d.active = .rendered)
    (hcanvas : d.canvas.Selects p x y z) (hhost : d.canvas.host.interface ≠ .unavailable)
    (he : e.active = .markup) (hsource : e.source.Selects p x y z) (policy : Policy) :
    (d.apply t policy).1.canvas.nodes = (e.apply t policy).1.canvas.nodes := by
  have hlt : '<' ∉ y := fun h => (hy _ h).2.1 rfl
  obtain ⟨i, hedits, hplain, hpasted, hstandalone⟩ := ht.edits hlink himage hlt
  rw [← policy.content_eq_self hy] at hedits
  have hwfd : WellFormed d.canvas.nodes := by rw [hcanvas.nodes]; exact hread.wellFormed
  calc (d.apply t policy).1.canvas.nodes
      = normalize (p.fill (.text x :: i.pasted ++ [.text z])) :=
        nodes_apply_of_canvas hd hcanvas hwfd hne hhost hedits hplain
    _ = normalize (p.fill (.text x :: parse i.markup ++ [.text z])) := by rw [hpasted]
    _ = (e.apply t policy).1.canvas.nodes :=
        (nodes_apply_of_source he hsource hread hne (escapeText_eq_self hy) hedits
          hstandalone).symm

/-- A word between others in a paragraph is made bold, by a name in upper case. -/
theorem apply_rendered_eq_apply_markup_bold :
    let p : Place := .within [] ⟨"p".toList, []⟩ (.here [] []) []
    let ns := p.fill [.text ("a ".toList ++ "b".toList ++ " & c".toList)]
    let d : Views := (ofCanvas (.ofNodes ns .modern)).selectRendered (some ⟨3, 2⟩)
    let e : Views := (ofMarkup (markup ns) .legacy).selectMarkup ⟨5, 6⟩
    Readable ns ∧ d.canvas.Selects p "a ".toList "b".toList " & c".toList ∧
      e.source.Selects p "a ".toList "b".toList " & c".toList ∧
      (d.apply (.wrap "B".toList) .escaped).1.canvas.nodes =
        (e.apply (.wrap "B".toList) .escaped).1.canvas.nodes ∧
      (d.apply (.wrap "B".toList) .escaped).1.source.content =
        "<p>a <b>b</b> &amp; c</p>".toList := by
  intro p ns d e
  have hread : Readable ns :=
    ⟨isNormal_iff.2 (by decide +kernel),
      ⟨⟨@wellFormed_plainTag "p".toList rfl, nofun, trivial, trivial⟩, trivial⟩⟩
  have hcanvas : d.canvas.Selects p "a ".toList "b".toList " & c".toList :=
    ⟨by decide +kernel, ⟨3, 2⟩, by decide +kernel, rfl, rfl⟩
  have hsource : e.source.Selects p "a ".toList "b".toList " & c".toList :=
    ⟨rfl, by decide +kernel, by decide +kernel⟩
  have hlink : '"' ∉ ({} : Settings).linkTarget := by decide +kernel
  have himage : '"' ∉ ({} : Settings).imageSource := by decide +kernel
  have hword : ∀ c ∈ "b".toList, c ≠ '&' ∧ c ≠ '<' ∧ c ≠ '>' := by simp
  exact ⟨hread, hcanvas, hsource,
    apply_rendered_eq_apply_markup hlink himage (.wrap rfl rfl) hread nofun hword rfl hcanvas nofun
      rfl hsource .escaped, by decide +kernel⟩

end Views

end RichText
