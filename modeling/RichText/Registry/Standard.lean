import RichText.Registry

/-!
The standard actions of a toolbar: headings, alignment, styles, boxes, a link and an image, and
edits that insert no text.
-/

namespace RichText

/-- What the standard actions depend on. -/
structure Settings where
  linkTarget : Text := "https://example.com".toList
  imageSource : Text := "https://example.com/image.png".toList
  policy : Policy := .verbatim
  deriving DecidableEq, Repr

namespace Standard

def wrap (name tag : String) : Action := ⟨name, .wrap tag.toList⟩

def enclose (name opening closing : String) : Action :=
  ⟨name, .enclose opening.toList closing.toList⟩

def headings : List Action :=
  [wrap "makeTextH1" "h1", wrap "makeTextH2" "h2", wrap "makeTextH3" "h3", wrap "makeTextH4" "h4"]

def alignments : List Action :=
  [enclose "makeTextAlignLeft" "p class=\"text-left\"" "p",
    enclose "makeTextAlignCenter" "p class=\"text-center\"" "p",
    enclose "makeTextAlignRight" "p class=\"text-right\"" "p",
    enclose "makeTextAlignJustify" "p class=\"text-justify\"" "p"]

def styles : List Action :=
  [wrap "makeTextBold" "b", wrap "makeTextItalic" "i", wrap "makeTextUnderline" "u",
    wrap "makeTextStrikethrough" "s"]

def boxes : List Action :=
  [⟨"makeTextQuote", .breakThen (.enclose "blockquote".toList "blockquote".toList)⟩,
    enclose "makeCodeBox" "div class=\"well\" style=\"color: white;\"" "div",
    enclose "makeAlertSuccess" "div class=\"alert alert-success\" role=\"alert\"" "div",
    enclose "makeAlertInfo" "div class=\"alert alert-info\" role=\"alert\"" "div",
    enclose "makeAlertWarning" "div class=\"alert alert-warning\" role=\"alert\"" "div",
    enclose "makeAlertDanger" "div class=\"alert alert-danger\" role=\"alert\"" "div"]

def link (target : Text) : Action :=
  ⟨"makeLink", .enclose ("a target=\"_blank\" href=\"".toList ++ target ++ ['"']) "a".toList⟩

/-- An image has no end tag; reading passes over the closing tag. -/
def image (source : Text) : Action :=
  ⟨"makeImage",
    .enclose ("img src=\"".toList ++ source ++ "\" class=\"img-responsive\"".toList) "img".toList⟩

def plainEdits : List Action :=
  [⟨"makeNewLine", .lineBreak⟩, ⟨"deleteText", .delete⟩, ⟨"remoteTextTags", .unformat⟩,
    ⟨"removeTextTags", .unformat⟩]

def actions (s : Settings) : List Action :=
  headings ++ alignments ++ styles ++ boxes ++ [link s.linkTarget, image s.imageSource] ++
    plainEdits

theorem mem_actions {s : Settings} {a : Action} :
    a ∈ actions s ↔ a ∈ headings ∨ a ∈ alignments ∨ a ∈ styles ∨ a ∈ boxes ∨
      a = link s.linkTarget ∨ a = image s.imageSource ∨ a ∈ plainEdits := by
  simp only [actions, List.mem_append, List.mem_cons, List.not_mem_nil, or_false, or_assoc]

end Standard

/-- The standard actions, then further ones. -/
def Registry.ofSettings (s : Settings) (extra : List Action) : Except ActionError Registry :=
  registerAll ⟨Standard.actions s, s.policy⟩ extra

end RichText
