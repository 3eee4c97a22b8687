import RichText.Action
import RichText.Canvas
import RichText.Source

/-!
Two views of one document. The view that was last selected in or typed into is the active one, and
after a change the other one is made anew from it, as a whole.
-/

namespace RichText

inductive ViewKind where
  | rendered
  | markup
  deriving DecidableEq, Repr

structure Views where
  canvas : Canvas
  source : Source
  active : ViewKind
  deriving DecidableEq, Repr

namespace Views

def ofCanvas (v : Canvas) : Views := ⟨v, .ofText v.markup, .rendered⟩

/-- The source shows the markup as it is given. -/
def ofMarkup (s : Text) (host : Host) : Views := ⟨.ofMarkup s host, .ofText s, .markup⟩

def refreshSource (d : Views) : Views := { d with source := d.source.setContent d.canvas.markup }

/-- Nothing is selected in the new canvas. -/
def refreshCanvas (d : Views) : Views :=
  { d with canvas := d.canvas.setNodes (parse d.source.content) }

/-- Makes the view that is not active anew. -/
def refresh (d : Views) : Views :=
  match d.active with
  | .rendered => d.refreshSource
  | .markup => d.refreshCanvas

/-- Both views have the same markup once the source is read. -/
def agree (d : Views) : Bool := d.canvas.markup == markup (parse d.source.content)

/-! ### What a user does -/

def selectRendered (d : Views) (sel : Option Selection) : Views :=
  { d with canvas := d.canvas.select sel, active := .rendered }

def addRange (d : Views) (sel : Selection) : Views :=
  { d with canvas := d.canvas.addRange sel, active := .rendered }

def selectMarkup (d : Views) (sel : Selection) : Views :=
  { d with source := d.source.select sel, active := .markup }

/-- Typing in a canvas leaves a caret at the end of its primary range, on any host. -/
def typed (v : Canvas) (s : Text) : Canvas :=
  let v := v.edit (.replace (.text s))
  match v.primary? with
  | some sel => v.select (some (.caret sel.stop))
  | none => v

@[simp] theorem nodes_typed (v : Canvas) (s : Text) :
    (typed v s).nodes = (v.edit (.replace (.text s))).nodes := by
  rw [typed]
  split <;> rfl

@[simp] theorem host_typed (v : Canvas) (s : Text) :
    (typed v s).host = (v.edit (.replace (.text s))).host := by
  rw [typed]
  split <;> rfl

def typeRendered (d : Views) (s : Text) : Views :=
  refreshSource { d with canvas := typed d.canvas s, active := .rendered }

def typeMarkup (d : Views) (s : Text) : Views :=
  refreshCanvas { d with source := d.source.edit (.replace (.text s)), active := .markup }

def setMarkup (d : Views) (s : Text) : Views :=
  refreshCanvas { d with source := d.source.setContent s, active := .markup }

/-- Runs a transform on the active view. The other view is made anew even if there was nothing to
act on. -/
def apply (d : Views) (t : Transform) (policy : Policy) : Views × Bool :=
  match d.active with
  | .rendered =>
    let r := t.run policy d.canvas
    (refresh { d with canvas := r.1 }, r.2)
  | .markup =>
    let r := t.run policy d.source
    (refresh { d with source := r.1 }, r.2)

end Views

end RichText
