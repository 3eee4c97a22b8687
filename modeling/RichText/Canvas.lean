import RichText.Document.Splice
import RichText.Edit

/-!
The canvas is the rendered view: a document with selected ranges, of which the first is the primary
one. Ranges are in characters of its text.

The host of a canvas edits selections through one of two interfaces. The range interface makes
elements as such and keeps what it put in selected; the text range interface pastes markup and
leaves a caret behind it. A host without either edits nothing.
-/

namespace RichText

/-- The selection interfaces that a host offers. -/
structure Host where
  range : Bool
  textRange : Bool
  deriving DecidableEq, Repr

inductive Interface where
  | range
  | textRange
  | unavailable
  deriving DecidableEq, Repr

namespace Host

def modern : Host := ⟨true, false⟩

def legacy : Host := ⟨false, true⟩

def none : Host := ⟨false, false⟩

/-- Of two interfaces the range interface is used. -/
def interface (h : Host) : Interface :=
  if h.range then .range else if h.textRange then .textRange else .unavailable

end Host

structure Canvas where
  nodes : List Node
  ranges : List Selection
  host : Host
  deriving DecidableEq, Repr

namespace Canvas

def ofNodes (ns : List Node) (host : Host) : Canvas := ⟨normalize ns, [], host⟩

def ofMarkup (s : Text) (host : Host) : Canvas := ofNodes (parse s) host

/-- Shows another document, in which nothing is selected. -/
def setNodes (v : Canvas) (ns : List Node) : Canvas := { v with nodes := normalize ns, ranges := [] }

def markup (v : Canvas) : Text := RichText.markup v.nodes

def text (v : Canvas) : Text := plainText v.nodes

def length (v : Canvas) : Nat := v.text.length

/-! ### Ranges -/

def primary? (v : Canvas) : Option Selection := v.ranges.head?

def select (v : Canvas) (sel : Option Selection) : Canvas :=
  { v with ranges := (sel.map fun s => s.clamp v.length).toList }

def addRange (v : Canvas) (sel : Selection) : Canvas :=
  { v with ranges := v.ranges ++ [sel.clamp v.length] }

def textIn (v : Canvas) (sel : Selection) : Text :=
  let ts := tokens v.nodes
  (sel.span .inner ts).text ts

/-- The markup of a range, with the elements whose text is selected as a whole. -/
def markupIn (v : Canvas) (sel : Selection) : Text :=
  let ts := tokens v.nodes
  (sel.span .outer ts).markup ts

/-- What a reader makes of the primary range, if the host lets it be read. -/
def readPrimary (v : Canvas) (read : Selection → Text) : Text :=
  match v.host.interface, v.primary? with
  | .unavailable, _ | _, none => []
  | _, some sel => read sel

def selectedText (v : Canvas) : Text := v.readPrimary v.textIn

def selectedMarkup (v : Canvas) : Text := v.readPrimary v.markupIn

/-! ### Edits -/

/-- Puts nodes in place of a range. The ranges stay as they are. -/
def replaceRange (v : Canvas) (sel : Selection) (reach : Reach) (new : List Node) : Canvas :=
  { v with nodes := (replaceSelected v.nodes sel reach new).nodes }

/-- Puts nodes in place of a range and selects them. -/
def replaceSelecting (v : Canvas) (sel : Selection) (reach : Reach) (new : List Node) : Canvas :=
  let r := replaceSelected v.nodes sel reach new
  (v.replaceRange sel reach new).select (some ⟨r.start, r.stop⟩)

/-- Puts nodes in place of a range and leaves a caret behind them. -/
def replaceLeaving (v : Canvas) (sel : Selection) (reach : Reach) (new : List Node) : Canvas :=
  let r := replaceSelected v.nodes sel reach new
  (v.replaceRange sel reach new).select (some (.caret r.stop))

/-- Makes a range plain text. The text stays, and with it every offset. -/
def unformatRange (v : Canvas) (sel : Selection) : Canvas :=
  if sel.isCaret then v else v.replaceRange sel .outer [.text (v.textIn sel)]

/-- Makes all ranges plain text, one after the other, and keeps them. -/
def unformatRanges (v : Canvas) : Canvas :=
  let plain := v.ranges.foldl unformatRange v
  { plain with ranges := v.ranges.map fun s => s.clamp plain.length }

/-- Edits through the range interface. Only formatting is taken away from all ranges. -/
def editRange (v : Canvas) : Edit → Canvas
  | .unformat => v.unformatRanges
  | .replace i =>
    match v.primary?, i.built? with
    | some sel, some new => v.replaceSelecting sel .inner new
    | _, _ => v

/-- Edits through the text range interface, which knows the primary range only. -/
def editTextRange (v : Canvas) (e : Edit) : Canvas :=
  match v.primary?, e with
  | none, _ => v
  | some sel, .replace i => v.replaceLeaving sel .inner i.pasted
  | some sel, .unformat =>
    if sel.isCaret then v else v.replaceLeaving sel .outer [.text (v.textIn sel)]

def edit (v : Canvas) (e : Edit) : Canvas :=
  match v.host.interface with
  | .range => v.editRange e
  | .textRange => v.editTextRange e
  | .unavailable => v

instance : Surface Canvas where
  selectedText := selectedText
  selectedMarkup := selectedMarkup
  edit := edit

end Canvas

end RichText
