import RichText.Text.Ascii

/-!
Documents: lists of nodes. A node is an element, a text or a comment; an element has a tag, which
is its name and its attributes in order, and a list of nodes inside it.
-/

namespace RichText

structure Attribute where
  name : Text
  value : Text
  deriving DecidableEq, Repr

structure Tag where
  name : Text
  attributes : List Attribute
  deriving DecidableEq, Repr

inductive Node where
  | text (s : Text)
  | comment (s : Text)
  | element (tag : Tag) (inside : List Node)
  deriving Repr

/-- Induction on documents, with the nodes inside the first element as a document of their own. -/
theorem Node.induction {motive : List Node → Prop} (nil : motive [])
    (text : ∀ s ns, motive ns → motive (.text s :: ns))
    (comment : ∀ s ns, motive ns → motive (.comment s :: ns))
    (element : ∀ tag inside ns, motive inside → motive ns → motive (.element tag inside :: ns)) :
    ∀ ns, motive ns
  | [] => nil
  | .text s :: ns => text s ns (Node.induction nil text comment element ns)
  | .comment s :: ns => comment s ns (Node.induction nil text comment element ns)
  | .element tag inside :: ns =>
    element tag inside ns (Node.induction nil text comment element inside)
      (Node.induction nil text comment element ns)

/-! ### Names -/

/-- The elements that have no end tag, and nothing inside in markup. -/
def voidNames : List Text :=
  ["area", "base", "br", "col", "embed", "hr", "img", "input", "link", "meta", "param", "source",
    "track", "wbr"].map String.toList

def isVoidName (name : Text) : Bool := voidNames.contains (Ascii.lower name)

/-- A letter, then letters, digits, `-`, `_`, `.` and `:`. -/
def isElementName : Text → Bool
  | [] => false
  | c :: s => c.isAlpha &&
      s.all fun c => c.isAlphanum || c == '-' || c == '_' || c == '.' || c == ':'

namespace Tag

def isVoid (t : Tag) : Bool := isVoidName t.name

/-- The value of the first attribute of that name, in any case of its letters. -/
def value? (t : Tag) (name : Text) : Option Text :=
  (t.attributes.find? fun a => Ascii.sameLetters a.name name).map (·.value)

end Tag

/-! ### Text -/

mutual

def Node.plainText : Node → Text
  | .text s => s
  | .comment _ => []
  | .element _ inside => plainText inside

/-- The texts of a document, in order. -/
def plainText : List Node → Text
  | [] => []
  | n :: ns => n.plainText ++ plainText ns

end

@[simp] theorem plainText_nil : plainText [] = [] := rfl
@[simp] theorem plainText_text (s : Text) (ns : List Node) :
    plainText (.text s :: ns) = s ++ plainText ns := rfl
@[simp] theorem plainText_comment (s : Text) (ns : List Node) :
    plainText (.comment s :: ns) = plainText ns := rfl
@[simp] theorem plainText_element (tag : Tag) (inside ns : List Node) :
    plainText (.element tag inside :: ns) = plainText inside ++ plainText ns := rfl
@[simp] theorem plainText_append (ms ns : List Node) :
    plainText (ms ++ ns) = plainText ms ++ plainText ns := by
  induction ms with
  | nil => rfl
  | cons m ms ih => simp [plainText, ih]

mutual

def Node.textLength : Node → Nat
  | .text s => s.length
  | .comment _ => 0
  | .element _ inside => textLength inside

/-- The number of characters in the texts of a document, added up node by node. -/
def textLength : List Node → Nat
  | [] => 0
  | n :: ns => n.textLength + textLength ns

end

@[simp] theorem textLength_nil : textLength [] = 0 := rfl
@[simp] theorem textLength_text (s : Text) (ns : List Node) :
    textLength (.text s :: ns) = s.length + textLength ns := rfl
@[simp] theorem textLength_comment (s : Text) (ns : List Node) :
    textLength (.comment s :: ns) = textLength ns := Nat.zero_add _
@[simp] theorem textLength_element (tag : Tag) (inside ns : List Node) :
    textLength (.element tag inside :: ns) = textLength inside + textLength ns := rfl

theorem length_plainText (ns : List Node) : (plainText ns).length = textLength ns := by
  induction ns using Node.induction with
  | nil => rfl
  | text s ns ih => simp [ih]
  | comment s ns ih => simp [ih]
  | element tag inside ns ihin ih => simp [ihin, ih]

/-! ### Equality -/

mutual

def Node.decEq : (m n : Node) → Decidable (m = n)
  | .text s, .text t =>
    if h : s = t then isTrue (congrArg _ h) else isFalse fun e => h (Node.text.inj e)
  | .comment s, .comment t =>
    if h : s = t then isTrue (congrArg _ h) else isFalse fun e => h (Node.comment.inj e)
  | .element s ms, .element t ns =>
    if h : s = t then
      match Node.decEqList ms ns with
      | isTrue hs => isTrue (by rw [h, hs])
      | isFalse hs => isFalse fun e => hs (Node.element.inj e).2
    else isFalse fun e => h (Node.element.inj e).1
  | .text _, .comment _ | .text _, .element _ _ | .comment _, .text _
  | .comment _, .element _ _ | .element _ _, .text _ | .element _ _, .comment _ =>
    isFalse nofun

def Node.decEqList : (ms ns : List Node) → Decidable (ms = ns)
  | [], [] => isTrue rfl
  | m :: ms, n :: ns =>
    match Node.decEq m n, Node.decEqList ms ns with
    | isTrue h, isTrue hs => isTrue (by rw [h, hs])
    | isFalse h, _ => isFalse fun e => h (List.cons.inj e).1
    | _, isFalse hs => isFalse fun e => hs (List.cons.inj e).2
  | [], _ :: _ | _ :: _, [] => isFalse nofun

end

instance : DecidableEq Node := Node.decEq

end RichText
