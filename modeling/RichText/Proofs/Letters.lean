import Mathlib.Tactic.Lemma
import RichText.Document.Splice
import RichText.Proofs.Normalize

/-!
Other letters in a document: each character of its texts gives way to its image, and tags, attributes
and comments stay. What is found in a row of tokens by offsets depends on where characters stand and
not on which they are, so a replacement may be made before or after the letters are changed.
-/

namespace RichText

mutual

def Node.mapText (f : Char → Char) : Node → Node
  | .text s => .text (s.map f)
  | .comment s => .comment s
  | .element tag inside => .element tag (mapText f inside)

/-- The document with each character of its texts, at any depth, replaced by its image. -/
def mapText (f : Char → Char) : List Node → List Node
  | [] => []
  | n :: ns => n.mapText f :: mapText f ns

end

variable (f : Char → Char)

@[simp] lemma mapText_nil : mapText f [] = [] := rfl

@[simp] lemma mapText_cons (n : Node) (ns : List Node) :
    mapText f (n :: ns) = n.mapText f :: mapText f ns := rfl

@[simp] lemma Node.mapText_text (s : Text) : (Node.text s).mapText f = .text (s.map f) := rfl

@[simp] lemma Node.mapText_comment (s : Text) : (Node.comment s).mapText f = .comment s := rfl

@[simp] lemma Node.mapText_element (tag : Tag) (inside : List Node) :
    (Node.element tag inside).mapText f = .element tag (RichText.mapText f inside) := rfl

@[simp] lemma mapText_append (ms ns : List Node) :
    mapText f (ms ++ ns) = mapText f ms ++ mapText f ns := by
  induction ms with
  | nil => rfl
  | cons m ms ih => simp [ih]

lemma plainText_mapText (ns : List Node) : plainText (mapText f ns) = (plainText ns).map f := by
  induction ns using Node.induction with
  | nil => rfl
  | text s ns ih => simp [ih]
  | comment s ns ih => simp [ih]
  | element tag inside ns ihin ih => simp [ihin, ih]

/-! ### Normal documents -/

lemma consText_mapText (s : Text) (ns : List Node) :
    consText (s.map f) (mapText f ns) = mapText f (consText s ns) := by
  by_cases hs : s = []
  · subst hs; simp
  · match ns with
    | [] => simp [consText, hs]
    | .text t :: ns => simp [consText]
    | .comment t :: ns => simp [consText, hs]
    | .element tag inside :: ns => simp [consText, hs]

lemma normalize_mapText (ns : List Node) : normalize (mapText f ns) = mapText f (normalize ns) := by
  induction ns using Node.induction with
  | nil => rfl
  | text s ns ih => simp [ih, consText_mapText]
  | comment s ns ih => simp [ih]
  | element tag inside ns ihin ih => simp [ihin, ih]

/-! ### Rows of tokens -/

def Token.mapText (f : Char → Char) : Token → Token
  | .char c => .char (f c)
  | .leaf n => .leaf (n.mapText f)
  | t => t

namespace Token

@[simp] lemma isLeaf_mapText (t : Token) : (t.mapText f).isLeaf = t.isLeaf := by cases t <;> rfl

@[simp] lemma isStart_mapText (t : Token) : (t.mapText f).isStart = t.isStart := by cases t <;> rfl

@[simp] lemma isStop_mapText (t : Token) : (t.mapText f).isStop = t.isStop := by cases t <;> rfl

end Token

lemma tokens_mapText (ns : List Node) :
    tokens (mapText f ns) = (tokens ns).map (Token.mapText f) := by
  induction ns using Node.induction with
  | nil => rfl
  | text s ns ih => simp [ih, Node.tokens, Token.mapText, Function.comp_def]
  | comment s ns ih => simp [ih, Node.tokens, Token.mapText]
  | element tag inside ns ihin ih =>
    rw [mapText_cons, Node.mapText_element, tokens_cons, tokens_cons, ih, List.map_append,
      Node.tokens, Node.tokens]
    split
    · rfl
    · rw [ihin, List.map_append, List.map_cons]
      rfl

lemma charsOf_map_mapText (ts : List Token) :
    charsOf (ts.map (Token.mapText f)) = (charsOf ts).map f := by
  induction ts with
  | nil => rfl
  | cons t ts ih => cases t <;> simp [Token.mapText, ih]

lemma length_charsOf_map_mapText (ts : List Token) :
    (charsOf (ts.map (Token.mapText f))).length = (charsOf ts).length := by
  rw [charsOf_map_mapText, List.length_map]

namespace Levels

def mapText (f : Char → Char) (l : Levels) : Levels :=
  ⟨RichText.mapText f l.nodes, l.around.map (RichText.mapText f)⟩

lemma cons_mapText (t : Token) (l : Levels) :
    (l.mapText f).cons (t.mapText f) = (l.cons t).mapText f := by
  obtain ⟨nodes, around⟩ := l
  cases t with
  | char c => simp [cons, mapText, Token.mapText, ← consText_mapText]
  | leaf n => rfl
  | stop => rfl
  | start tag => cases around <;> rfl

lemma foldr_cons_map (ts : List Token) :
    (ts.map (Token.mapText f)).foldr cons {} = (ts.foldr cons {}).mapText f := by
  induction ts with
  | nil => rfl
  | cons t ts ih => rw [List.map_cons, List.foldr_cons, ih, cons_mapText, List.foldr_cons]

lemma all_mapText (l : Levels) : (l.mapText f).all = RichText.mapText f l.all := by
  have hflatten (nss : List (List Node)) :
      (nss.map (RichText.mapText f)).flatten = RichText.mapText f nss.flatten := by
    induction nss with
    | nil => rfl
    | cons ns nss ih => simp [ih]
  simp [all, mapText, hflatten]

end Levels

/-- **Rebuilding a document** from its row does not look at the letters. -/
theorem ofTokens_map_mapText (ts : List Token) :
    ofTokens (ts.map (Token.mapText f)) = mapText f (ofTokens ts) := by
  rw [ofTokens, ofTokens, Levels.foldr_cons_map, Levels.all_mapText, normalize_mapText]

/-! ### Places in a row -/

namespace Boundary

variable (n : Nat) (ts : List Token)

lemma offset_map : offset (ts.map (Token.mapText f)) n = offset ts n := by
  rw [offset, offset, ← List.map_take, length_charsOf_map_mapText]

lemma first_map : first n (ts.map (Token.mapText f)) = first n ts := by
  induction ts generalizing n with
  | nil => rfl
  | cons t ts ih =>
    cases n with
    | zero => rfl
    | succ n => cases t <;> simp [first, Token.mapText, ih]

lemma last_map : last n (ts.map (Token.mapText f)) = last n ts := by
  induction ts generalizing n with
  | nil => rfl
  | cons t ts ih =>
    cases t with
    | char c => cases n <;> simp [last, Token.mapText, ih]
    | _ => simp [last, Token.mapText, ih]

lemma outerStart_map : outerStart n (ts.map (Token.mapText f)) = outerStart n ts := by
  simp [outerStart, first_map, ← List.map_drop, List.takeWhile_map, Function.comp_def]

lemma outerStop_map : outerStop n (ts.map (Token.mapText f)) = outerStop n ts := by
  simp [outerStop, last_map, ← List.map_take, ← List.map_reverse, List.takeWhile_map,
    Function.comp_def]

lemma caret_map : caret n (ts.map (Token.mapText f)) = caret n ts := by
  simp [caret, first_map, last_map, ← List.map_take, ← List.map_drop, ← List.map_reverse,
    List.dropWhile_map, Function.comp_def]

end Boundary

open Boundary

/-- **The span of a selection** is found without looking at the letters. -/
theorem span_map (sel : Selection) (reach : Reach) (ts : List Token) :
    sel.span reach (ts.map (Token.mapText f)) = sel.span reach ts := by
  simp only [Selection.span, length_charsOf_map_mapText, caret_map, last_map, first_map,
    outerStart_map, outerStop_map]

/-! ### Cutting and putting in -/

lemma unmatched_map (ts : List Token) :
    Unmatched.ofTokens (ts.map (Token.mapText f)) = Unmatched.ofTokens ts := by
  have hstep (u : Unmatched) (t : Token) : u.step (t.mapText f) = u.step t := by cases t <;> rfl
  rw [Unmatched.ofTokens, List.foldl_map]
  simp only [hstep]
  rfl

namespace Span

variable (r : Span) (ts : List Token)

lemma inside_map : r.inside (ts.map (Token.mapText f)) = (r.inside ts).map (Token.mapText f) := by
  rw [inside, inside, List.map_drop, List.map_take]

lemma text_map : r.text (ts.map (Token.mapText f)) = (r.text ts).map f := by
  rw [text, text, inside_map, charsOf_map_mapText]

lemma collapse_map : r.collapse (ts.map (Token.mapText f)) = r.collapse ts := by
  rw [collapse, collapse, inside_map, unmatched_map]

/-- The tags that a cut keeps have no letters. -/
lemma erase_map : r.erase (ts.map (Token.mapText f)) = (r.erase ts).map (Token.mapText f) := by
  simp [erase, before, after, inside_map, unmatched_map, Unmatched.stopTokens,
    Unmatched.startTokens, Token.mapText]

end Span

lemma insertNodes_map (ts : List Token) (boundary : Nat) (ns : List Node) :
    insertNodes (ts.map (Token.mapText f)) boundary (mapText f ns) =
      (insertNodes ts boundary ns).map (Token.mapText f) := by
  simp [insertNodes, tokens_mapText]

/-- **Replacing a selection** may be done before or after the letters are changed. -/
theorem replaceSelected_mapText (ns new : List Node) (sel : Selection) (reach : Reach) :
    replaceSelected (mapText f ns) sel reach (mapText f new) =
      { replaceSelected ns sel reach new with
        nodes := mapText f (replaceSelected ns sel reach new).nodes } := by
  simp only [replaceSelected, tokens_mapText, span_map, Span.erase_map, Span.collapse_map,
    insertNodes_map, ofTokens_map_mapText, offset_map, List.length_map]

end RichText
