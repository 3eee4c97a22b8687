import Mathlib.Tactic.Lemma
import RichText.Document.Splice
import RichText.Proofs.RoundTrip
import RichText.Proofs.Tokens

/-!
Places in a document: gaps between nodes, at any depth. A document with nodes in a place is
flattened, written and read part by part, and what stands before and after the place does not depend
on the nodes in it.
-/

namespace RichText

inductive Place where
  | here (before after : List Node)
  | within (before : List Node) (tag : Tag) (inside : Place) (after : List Node)

namespace Place

/-- The document with nodes put in. -/
def fill : Place → List Node → List Node
  | here before after, ns => before ++ ns ++ after
  | within before tag inside after, ns => before ++ .element tag (inside.fill ns) :: after

/-- The elements around a place are not void. -/
def Open : Place → Prop
  | here _ _ => True
  | within _ tag inside _ => tag.isVoid = false ∧ inside.Open

/-- A place with nodes in it is not in a void element. -/
lemma open_of_wellFormed {p : Place} {ns : List Node} (hne : ns ≠ []) (h : WellFormed (p.fill ns)) :
    p.Open := by
  induction p with
  | here before after => trivial
  | within before tag inside after ih =>
    obtain ⟨-, ⟨-, hvoid, hinside⟩, -⟩ := wellFormed_append.1 h
    have hfill : inside.fill ns ≠ [] := by
      cases inside with
      | here before after => simp [fill, hne]
      | within before tag inside after => simp [fill]
    refine ⟨?_, ih hinside⟩
    simpa using fun hv => hfill (hvoid hv)

/-! ### What stands around a place -/

def textBefore : Place → Text
  | here before _ => plainText before
  | within before _ inside _ => plainText before ++ inside.textBefore

def tokensBefore : Place → List Token
  | here before _ => tokens before
  | within before tag inside _ => tokens before ++ .start tag :: inside.tokensBefore

def tokensAfter : Place → List Token
  | here _ after => tokens after
  | within _ _ inside after => inside.tokensAfter ++ .stop :: tokens after

def markupBefore : Place → Text
  | here before _ => markup before
  | within before tag inside _ => markup before ++ tag.startMarkup ++ inside.markupBefore

def markupAfter : Place → Text
  | here _ after => markup after
  | within _ tag inside after => inside.markupAfter ++ tag.endMarkup ++ markup after

variable {p : Place}

lemma tokens_fill (hp : p.Open) (ns : List Node) :
    tokens (p.fill ns) = p.tokensBefore ++ tokens ns ++ p.tokensAfter := by
  induction p with
  | here before after => simp [fill, tokensBefore, tokensAfter]
  | within before tag inside after ih =>
    simp [fill, tokensBefore, tokensAfter, Node.tokens, hp.1, ih hp.2]

lemma markup_fill (hp : p.Open) (ns : List Node) :
    markup (p.fill ns) = p.markupBefore ++ markup ns ++ p.markupAfter := by
  induction p with
  | here before after => simp [fill, markupBefore, markupAfter]
  | within before tag inside after ih =>
    simp [fill, markupBefore, markupAfter, Node.markup, hp.1, ih hp.2]

lemma charsOf_tokensBefore {ns : List Node} (h : VoidsEmpty (p.fill ns)) :
    charsOf p.tokensBefore = p.textBefore := by
  induction p with
  | here before after =>
    rw [fill, List.append_assoc, voidsEmpty_append] at h
    exact charsOf_tokens h.1
  | within before tag inside after ih =>
    obtain ⟨hbefore, ⟨-, hinside⟩, -⟩ := voidsEmpty_append.1 h
    rw [tokensBefore, charsOf_append, charsOf_start, charsOf_tokens hbefore, ih hinside,
      textBefore]

/-- The place behind one more node. -/
def cons (n : Node) : Place → Place
  | here before after => here (n :: before) after
  | within before tag inside after => within (n :: before) tag inside after

lemma tokensBefore_cons (n : Node) (p : Place) :
    (p.cons n).tokensBefore = n.tokens ++ p.tokensBefore := by
  cases p <;> simp [cons, tokensBefore]

lemma tokensAfter_cons (n : Node) (p : Place) : (p.cons n).tokensAfter = p.tokensAfter := by
  cases p <;> rfl

lemma open_cons (n : Node) {p : Place} (h : p.Open) : (p.cons n).Open := by
  cases p <;> exact h

lemma fill_cons (n : Node) (p : Place) (ns : List Node) : (p.cons n).fill ns = n :: p.fill ns := by
  cases p <;> rfl

/-- A place stands between two rows. -/
def Between (us ws : List Token) : Prop :=
  ∃ p : Place, p.Open ∧ p.tokensBefore = us ∧ p.tokensAfter = ws

lemma Between.cons {us ws : List Token} (h : Between us ws) (n : Node) :
    Between (n.tokens ++ us) ws := by
  obtain ⟨p, hp, rfl, rfl⟩ := h
  exact ⟨p.cons n, open_cons n hp, tokensBefore_cons n p, tokensAfter_cons n p⟩

lemma Between.within {us ws : List Token} (h : Between us ws) {tag : Tag}
    (hv : ¬tag.isVoid = true) (ns : List Node) :
    Between (.start tag :: us) (ws ++ .stop :: tokens ns) := by
  obtain ⟨p, hp, rfl, rfl⟩ := h
  exact ⟨.within [] tag p ns, ⟨by simpa using hv, hp⟩, rfl, rfl⟩

/-- **Every boundary of the row** of a document is a place in it, also in a text. -/
theorem between_of_tokens_eq {ns : List Node} {us ws : List Token} (h : tokens ns = us ++ ws) :
    Between us ws := by
  induction ns using Node.induction generalizing us ws with
  | nil =>
    obtain ⟨rfl, rfl⟩ := List.append_eq_nil_iff.1 h.symm
    exact ⟨here [] [], trivial, rfl, rfl⟩
  | text s ns ih =>
    rcases List.append_eq_append_iff.1 h with ⟨us', rfl, hns⟩ | ⟨rest, hs, rfl⟩
    · exact (ih hns).cons (.text s)
    · obtain ⟨a, b, rfl, rfl, rfl⟩ := List.map_eq_append_iff.1 hs
      exact ⟨here [.text a] (.text b :: ns), trivial, by simp [tokensBefore, Node.tokens], rfl⟩
  | comment s ns ih =>
    cases us with
    | nil => exact ⟨here [] (.comment s :: ns), trivial, rfl, h⟩
    | cons t us =>
      obtain ⟨rfl, hns⟩ := List.cons.inj h
      exact (ih hns).cons (.comment s)
  | element tag inside ns ihin ih =>
    cases us with
    | nil => exact ⟨here [] (.element tag inside :: ns), trivial, rfl, h⟩
    | cons t us =>
      have hcons {us' : List Token} (hns : tokens ns = us' ++ ws) :=
        (ih hns).cons (.element tag inside)
      rw [tokens_cons] at h
      by_cases hv : tag.isVoid = true
      · rw [Node.tokens_void hv] at h hcons
        obtain ⟨rfl, hns⟩ := List.cons.inj h
        exact hcons hns
      · rw [Node.tokens_element hv, List.cons_append, List.append_assoc] at h
        rw [Node.tokens_element hv] at hcons
        obtain ⟨rfl, hrow⟩ := List.cons.inj h
        rcases Nat.lt_or_ge (tokens inside).length us.length with hlt | hge
        · obtain ⟨as, rfl, hstop⟩ := exists_append_of_length_le hrow (Nat.le_of_lt hlt)
          cases as with
          | nil => simp at hlt
          | cons t as =>
            obtain ⟨rfl, hns⟩ := List.cons.inj hstop
            simpa using hcons hns
        · obtain ⟨as, hin, rfl⟩ := exists_append_of_length_le hrow.symm hge
          exact (ihin hin).within hv ns

/-- Where a document begins with a character it begins with a text, if it is normal. -/
lemma exists_text_of_char {ns : List Node} (h : IsNormal ns) {c : Char} {ws : List Token}
    (htokens : tokens ns = .char c :: ws) : ns.head?.any Node.isText = true := by
  cases ns with
  | nil => cases htokens
  | cons n ns =>
    cases n with
    | text s => rfl
    | comment s => cases htokens
    | element tag inside =>
      by_cases hv : tag.isVoid = true
      · rw [tokens_cons, Node.tokens_void hv] at htokens
        cases htokens
      · rw [tokens_cons, Node.tokens_element hv] at htokens
        cases htokens

/-- Behind a row of tokens, characters stand in one text of a document. -/
def TextBehind (ns : List Node) (us : List Token) (s : Text) : Prop :=
  ∃ (p : Place) (before after : Text), p.Open ∧ ns = p.fill [.text (before ++ s ++ after)] ∧
    us = p.tokensBefore ++ before.map .char

lemma TextBehind.cons {ns : List Node} {us : List Token} {s : Text} (h : TextBehind ns us s)
    (n : Node) : TextBehind (n :: ns) (n.tokens ++ us) s := by
  obtain ⟨p, before, after, hp, rfl, rfl⟩ := h
  refine ⟨p.cons n, before, after, open_cons n hp, (fill_cons n p _).symm, ?_⟩
  rw [tokensBefore_cons, List.append_assoc]

lemma TextBehind.within {inside : List Node} {us : List Token} {s : Text}
    (h : TextBehind inside us s) {tag : Tag} (hv : ¬tag.isVoid = true) (ns : List Node) :
    TextBehind (.element tag inside :: ns) (.start tag :: us) s := by
  obtain ⟨p, before, after, hp, rfl, rfl⟩ := h
  exact ⟨.within [] tag p ns, before, after, ⟨by simpa using hv, hp⟩, rfl, rfl⟩

lemma map_char_inj {s t : Text} (h : s.map Token.char = t.map Token.char) : s = t := by
  simpa using congrArg charsOf h

variable {ns : List Node} {us ws : List Token} {s : Text}

/-- Characters that begin in a text are in it, for the next node is no text. -/
lemma TextBehind.of_text {t : Text} (h : IsNormal (.text t :: ns))
    (htokens : t.map .char ++ tokens ns = us ++ (s.map .char ++ ws))
    (hlt : us.length < (t.map Token.char).length) : TextBehind (.text t :: ns) us s := by
  obtain ⟨as, hmap, hrest⟩ := exists_append_of_length_le htokens.symm (Nat.le_of_lt hlt)
  obtain ⟨before, b, rfl, rfl, rfl⟩ := List.map_eq_append_iff.1 hmap
  rcases Nat.lt_or_ge b.length s.length with hlt' | hge
  · obtain ⟨as, hmap', hns⟩ :=
      exists_append_of_length_le hrest.symm (by simpa using Nat.le_of_lt hlt')
    obtain ⟨b', x, rfl, hb, rfl⟩ := List.map_eq_append_iff.1 hmap'
    obtain rfl := map_char_inj hb
    cases x with
    | nil => simp at hlt'
    | cons d x => exact absurd ⟨rfl, exists_text_of_char h.2.2 hns⟩ h.2.1
  · obtain ⟨as, hmap', -⟩ := exists_append_of_length_le hrest (by simpa using hge)
    obtain ⟨s', after, rfl, hs', rfl⟩ := List.map_eq_append_iff.1 hmap'
    obtain rfl := map_char_inj hs'
    exact ⟨here [] ns, before, after, trivial, by simp [fill], rfl⟩

/-- Characters do not reach over the end of an element. -/
lemma length_le_of_stop {as : List Token} (h : s.map .char ++ ws = as ++ .stop :: us) :
    s.length ≤ as.length := by
  refine Nat.not_lt.1 fun hlt => ?_
  obtain ⟨bs, hmap, hstop⟩ :=
    exists_append_of_length_le h.symm (by simpa using Nat.le_of_lt hlt)
  cases bs with
  | nil =>
    have hlen := congrArg List.length hmap
    simp only [List.length_map, List.append_nil] at hlen
    omega
  | cons b bs =>
    obtain ⟨rfl, -⟩ := List.cons.inj hstop
    have hmem : Token.stop ∈ s.map Token.char := hmap ▸ by simp
    obtain ⟨c, -, hc⟩ := List.mem_map.1 hmem
    cases hc

/-- **Neighbouring characters** of the row of a normal document are in one of its texts. -/
theorem textBehind_of_tokens_eq (h : IsNormal ns) (hs : s ≠ [])
    (htokens : tokens ns = us ++ (s.map .char ++ ws)) : TextBehind ns us s := by
  have hhead {t : Token} {ts ws : List Token} (ht : t.isChar = false) :
      t :: ts ≠ [] ++ (s.map .char ++ ws) := by
    obtain ⟨c, s, rfl⟩ := List.exists_cons_of_ne_nil hs
    intro heq
    obtain ⟨rfl, -⟩ := List.cons.inj heq
    cases ht
  induction ns using Node.induction generalizing us ws with
  | nil => simp [hs] at htokens
  | text t ns ih =>
    rcases Nat.lt_or_ge us.length (t.map Token.char).length with hlt | hge
    · exact .of_text h htokens hlt
    · obtain ⟨as, rfl, hns⟩ := exists_append_of_length_le htokens hge
      exact (ih h.2.2 hns).cons (.text t)
  | comment t ns ih =>
    cases us with
    | nil => exact absurd htokens (hhead rfl)
    | cons u us =>
      obtain ⟨rfl, hns⟩ := List.cons.inj htokens
      exact (ih h.2.2 hns).cons (.comment t)
  | element tag inside ns ihin ih =>
    have hcons {us' : List Token} (hns : tokens ns = us' ++ (s.map .char ++ ws)) :=
      (ih h.2.2 hns).cons (.element tag inside)
    rw [tokens_cons] at htokens
    by_cases hv : tag.isVoid = true
    · rw [Node.tokens_void hv] at htokens hcons
      cases us with
      | nil => exact absurd htokens (hhead rfl)
      | cons u us =>
        obtain ⟨rfl, hns⟩ := List.cons.inj htokens
        exact hcons hns
    · rw [Node.tokens_element hv, List.cons_append, List.append_assoc] at htokens
      rw [Node.tokens_element hv] at hcons
      cases us with
      | nil => exact absurd htokens (hhead rfl)
      | cons u us =>
        obtain ⟨rfl, hrow⟩ := List.cons.inj htokens
        rcases Nat.lt_or_ge (tokens inside).length us.length with hlt | hge
        · obtain ⟨as, rfl, hstop⟩ := exists_append_of_length_le hrow (Nat.le_of_lt hlt)
          cases as with
          | nil => simp at hlt
          | cons t as =>
            obtain ⟨rfl, hns⟩ := List.cons.inj hstop
            simpa using hcons hns
        · obtain ⟨as, hin, hrest⟩ := exists_append_of_length_le hrow.symm hge
          have hle := length_le_of_stop hrest
          obtain ⟨bs, rfl, -⟩ := exists_append_of_length_le hrest (by simpa using hle)
          exact (ihin h.1 hin).within hv ns

/-! ### Reading around a place -/

/-- A document in which no text comes before this one does not end in text. -/
lemma follows_of_isNormal {before after : List Node} {n : Node} (hn : n.isText = true)
    (h : IsNormal (before ++ n :: after)) (rest : Text) : Follows before rest := by
  induction before with
  | nil => exact nofun
  | cons m before ih =>
    cases before with
    | nil =>
      intro hm
      have hhead : ¬(m.isText = true ∧ n.isText = true) := h.2.1
      exact absurd ⟨hm, hn⟩ hhead
    | cons k before => simpa [Follows] using ih h.2.2

lemma break_of_isNormal {after : List Node} {n : Node} (hn : n.isText = true)
    (h : IsNormal (n :: after)) {rest : Text} (hrest : Event.Break rest) :
    Event.Break (markup after ++ rest) := by
  cases after with
  | nil => exact hrest
  | cons k after =>
    refine break_markup ?_ after rest
    have hhead := h.2.1
    simpa [hn] using hhead

/-- **Reading in a place**: markup that stands for nodes stands for them where a text was. -/
theorem reads_fill {n : Node} (hn : n.isText = true) (hread : Readable (p.fill [n])) {s : Text}
    {ns : List Node} (h : Reads Event.Break s ns) :
    Reads Event.Break (p.markupBefore ++ s ++ p.markupAfter) (p.fill ns) := by
  obtain ⟨hnormal, hwf⟩ := hread
  have hp := open_of_wellFormed (List.cons_ne_nil n []) hwf
  induction p with
  | here before after =>
    rw [fill, List.append_assoc] at hwf hnormal
    obtain ⟨hbefore, -, hafter⟩ := wellFormed_append.1 hwf
    have hright := isNormal_of_append_right hnormal
    have hb := reads_markup_of_isNormal hbefore (isNormal_of_append_left hnormal)
    have ha := reads_markup_of_isNormal hafter hright.2.2
    have hbs : Reads Event.Break (markup before ++ s) (before ++ ns) :=
      hb.append h fun rest hrest => ⟨follows_of_isNormal hn hnormal _, hrest⟩
    exact hbs.append ha fun rest hrest => ⟨break_of_isNormal hn hright hrest, fun _ => hrest⟩
  | within before tag inside after ih =>
    obtain ⟨hbefore, ⟨htag, -, hinside⟩, hafter⟩ := wellFormed_append.1 hwf
    have hright := isNormal_of_append_right hnormal
    have hb := reads_markup_of_isNormal hbefore (isNormal_of_append_left hnormal)
    have ha := reads_markup_of_isNormal hafter hright.2.2
    have hin := ih hright.1 hinside hp.2
    have he : Reads (fun _ => True) _ [.element tag (inside.fill ns)] :=
      .enclosed htag.opens htag.closes hp.1 hin
    have hbe : Reads (fun _ => True) _ (before ++ [.element tag (inside.fill ns)]) :=
      hb.append he fun rest _ => ⟨fun _ => Event.break_lt _, trivial⟩
    have hall : Reads Event.Break _ (before ++ [.element tag (inside.fill ns)] ++ after) :=
      hbe.append ha fun rest hrest => ⟨trivial, fun _ => hrest⟩
    simpa [markupBefore, markupAfter, fill, enclosed, Tag.startMarkup, Tag.endMarkup, hp.1]
      using hall

end Place

end RichText
