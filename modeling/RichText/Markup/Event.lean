import RichText.Markup.StartTag

/-!
Markup as a row of events: texts, comments, start tags and end tags, in the order written.

Any text can be read. Declarations (`<!` and `<?`) and end tags without a name are passed over, an
unfinished tag drops what is left of the markup, and a `<` that begins none of these is text.
-/

namespace RichText

inductive Event where
  | text (s : Text)
  | comment (s : Text)
  | start (tag : Tag)
  | stop (name : Text)
  deriving DecidableEq, Repr

namespace Event

open Ascii

/-- What follows the next `>`. -/
def skipTag (s : Text) : Text := (s.dropWhile (· != '>')).drop 1

/-- What stands before the next `-->`, and what follows it; a comment without an end takes all. -/
def readComment : Text → Text × Text
  | [] => ([], [])
  | '-' :: '-' :: '>' :: s => ([], s)
  | c :: s => (c :: (readComment s).1, (readComment s).2)

/-- Reads what a `<` begins, given what follows it. -/
def readTag (s : Text) : Option Event × Text :=
  match s with
  | '!' :: '-' :: '-' :: r => (some (comment (readComment r).1), (readComment r).2)
  | '!' :: r | '?' :: r => (none, skipTag r)
  | '/' :: r =>
    if (r.head?.map Char.isAlpha).getD false then
      (some (stop (lower (r.takeWhile StartTag.isNameChar))), skipTag r)
    else (none, skipTag r)
  | s =>
    if (s.head?.map Char.isAlpha).getD false then
      match StartTag.read? s with
      | some (tag, rest) => (some (start tag), rest)
      | none => (none, [])
    else (some (text ['<']), s)

theorem skipTag_length (s : Text) : (skipTag s).length ≤ s.length := by
  have := length_dropWhile_le (· != '>') s
  simp only [skipTag, List.length_drop]
  omega

theorem readComment_length (s : Text) : (readComment s).2.length ≤ s.length := by
  fun_induction readComment s with
  | case1 => simp
  | case2 s => simp only [List.length_cons]; omega
  | case3 c s _ ih => simp only [List.length_cons]; omega

theorem readTag_length (s : Text) : (readTag s).2.length ≤ s.length := by
  unfold readTag
  split
  · next r => have := readComment_length r; simp only [List.length_cons]; omega
  · next r _ => have := skipTag_length r; simp only [List.length_cons]; omega
  · next r => have := skipTag_length r; simp only [List.length_cons]; omega
  · next r =>
    have := skipTag_length r
    split <;> simp only [List.length_cons] <;> omega
  · split
    · split
      · next tag rest h => exact StartTag.read?_length h
      · simp
    · exact Nat.le_refl _

/-- Reads markup. Each text is decoded by itself. -/
def ofMarkup (s : Text) : List Event :=
  match s with
  | [] => []
  | c :: r =>
    if c = '<' then (readTag r).1.toList ++ ofMarkup (readTag r).2
    else text (decode (c :: r.takeWhile (· != '<'))) :: ofMarkup (r.dropWhile (· != '<'))
termination_by s.length
decreasing_by
  · have := readTag_length r; simp only [List.length_cons]; omega
  · have := length_dropWhile_le (· != '<') r; simp only [List.length_cons]; omega

end Event

end RichText
