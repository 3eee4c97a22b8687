import Mathlib.Data.List.Forall2
import Mathlib.Data.List.Induction
import Mathlib.Tactic.Lemma
import RichText.Config
import RichText.Proofs.Outcomes

/-!
What a configuration says. Each node stands for itself: it says one thing, or it is refused with an
error that does not depend on the others, or its name is not known and it is passed over. The first
node that is refused decides. If there is none, the last word on each setting counts, and all
actions do, in order.
-/

namespace RichText

/-! ### Entries -/

namespace Kdl

lemma Value.string?_eq_some_iff {v : Value} {s : Text} : v.string? = some s ↔ v = .string s := by
  cases v <;> simp [Value.string?]

namespace Node

/-- The first entry under a key is a string; arguments are the entries under no key. -/
def Holds (n : Node) (key : Option String) (s : Text) : Prop :=
  ∃ before after, n.entries = before ++ ⟨key, .string s⟩ :: after ∧ ∀ e ∈ before, e.key ≠ key

/-- There is no entry under a key, or the first one is no string. -/
def Lacks (n : Node) (key : Option String) : Prop := ∀ s, ¬n.Holds key s

variable {n : Node} {key : Option String} {s : Text}

lemma holds_or_lacks (n : Node) (key : Option String) : (∃ s, n.Holds key s) ∨ n.Lacks key := by
  rw [Lacks, ← not_exists]
  exact Classical.em _

lemma find?_bind_eq_some_iff {p : Entry → Bool} (hp : ∀ e, p e = true ↔ e.key = key) :
    (n.entries.find? p).bind (fun e => e.value.string?) = some s ↔ n.Holds key s := by
  simp only [Option.bind_eq_some_iff, List.find?_eq_some_iff_append, Value.string?_eq_some_iff,
    Bool.not_eq_true', ← Bool.not_eq_true, hp, Holds]
  constructor
  · rintro ⟨⟨_, _⟩, ⟨rfl, before, after, hentries, hbefore⟩, rfl⟩
    exact ⟨before, after, hentries, hbefore⟩
  · rintro ⟨before, after, hentries, hbefore⟩
    exact ⟨⟨key, .string s⟩, ⟨rfl, before, after, hentries, hbefore⟩, rfl⟩

lemma argument?_eq_some_iff : n.argument? = some s ↔ n.Holds none s :=
  find?_bind_eq_some_iff fun _ => Option.isNone_iff_eq_none

lemma property?_eq_some_iff {name : String} : n.property? name = some s ↔ n.Holds (some name) s :=
  find?_bind_eq_some_iff fun _ => beq_iff_eq

lemma argument?_eq_none (h : n.Lacks none) : n.argument? = none :=
  Option.eq_none_iff_forall_ne_some.2 fun s hs => h s (argument?_eq_some_iff.1 hs)

lemma property?_eq_none {name : String} (h : n.Lacks (some name)) : n.property? name = none :=
  Option.eq_none_iff_forall_ne_some.2 fun s hs => h s (property?_eq_some_iff.1 hs)

end Node

end Kdl

namespace Config

variable {n : Kdl.Node}

/-! ### Actions -/

/-- The kinds of actions. -/
def kinds : List Text :=
  ["wrap", "distinct", "line-break", "delete", "remove-formatting"].map String.toList

/-- The transform that the node of an action asks for. -/
inductive Asks (n : Kdl.Node) : Transform → Prop
  | wrap {name : Text} (hkind : n.Holds (some "kind") "wrap".toList)
    (hopen : n.Holds (some "open") name) : Asks n (.wrap name)
  | distinct {opening closing : Text} (hkind : n.Holds (some "kind") "distinct".toList)
    (hopen : n.Holds (some "open") opening) (hclose : n.Holds (some "close") closing) :
    Asks n (.enclose opening closing)
  | lineBreak (hkind : n.Holds (some "kind") "line-break".toList)
    (hopen : n.Lacks (some "open")) : Asks n .lineBreak
  | breakThen {opening closing : Text} (hkind : n.Holds (some "kind") "line-break".toList)
    (hopen : n.Holds (some "open") opening) (hclose : n.Holds (some "close") closing) :
    Asks n (.breakThen (.enclose opening closing))
  | delete (hkind : n.Holds (some "kind") "delete".toList) : Asks n .delete
  | unformat (hkind : n.Holds (some "kind") "remove-formatting".toList) : Asks n .unformat

/-- Why the node of an action of that name asks for no transform. -/
inductive Fails (n : Kdl.Node) (name : String) : ConfigError → Prop
  | kind (hkind : n.Lacks (some "kind")) : Fails n name (.missing name "kind=")
  | unknown {kind : Text} (hkind : n.Holds (some "kind") kind) (h : kind ∉ kinds) :
    Fails n name (.invalid name kind "wrap, distinct, line-break, delete, remove-formatting")
  | opening {kind : Text} (hkind : n.Holds (some "kind") kind)
    (h : kind = "wrap".toList ∨ kind = "distinct".toList) (hopen : n.Lacks (some "open")) :
    Fails n name (.missing name "open=")
  | closing {kind opening : Text} (hkind : n.Holds (some "kind") kind)
    (h : kind = "distinct".toList ∨ kind = "line-break".toList)
    (hopen : n.Holds (some "open") opening) (hclose : n.Lacks (some "close")) :
    Fails n name (.missing name "close=")

open Kdl.Node in
lemma readEnclose_of_holds {opening closing : Text} (hopen : n.Holds (some "open") opening)
    (hclose : n.Holds (some "close") closing) (name : String) :
    readEnclose n name = .ok (.enclose opening closing) := by
  rw [readEnclose, property?_eq_some_iff.2 hopen, property?_eq_some_iff.2 hclose]
  rfl

open Kdl.Node in
lemma readEnclose_of_lacks {opening : Text} (hopen : n.Holds (some "open") opening)
    (hclose : n.Lacks (some "close")) (name : String) :
    readEnclose n name = .error (.missing name "close=") := by
  rw [readEnclose, property?_eq_some_iff.2 hopen, property?_eq_none hclose]
  rfl

open Kdl.Node in
lemma readTransform_of_asks {t : Transform} (h : Asks n t) (name : String) :
    readTransform n name = .ok t := by
  cases h with
  | wrap hkind hopen =>
    rw [readTransform, property?_eq_some_iff.2 hkind, property?_eq_some_iff.2 hopen]
    rfl
  | distinct hkind hopen hclose =>
    rw [readTransform, property?_eq_some_iff.2 hkind, readEnclose_of_holds hopen hclose]
    rfl
  | lineBreak hkind hopen =>
    rw [readTransform, property?_eq_some_iff.2 hkind, property?_eq_none hopen]
    rfl
  | breakThen hkind hopen hclose =>
    rw [readTransform, property?_eq_some_iff.2 hkind, readEnclose_of_holds hopen hclose,
      property?_eq_some_iff.2 hopen]
    rfl
  | delete hkind =>
    rw [readTransform, property?_eq_some_iff.2 hkind]
    rfl
  | unformat hkind =>
    rw [readTransform, property?_eq_some_iff.2 hkind]
    rfl

lemma ofList_ne {kind : Text} (h : kind ∉ kinds) {name : String} (hname : name.toList ∈ kinds) :
    String.ofList kind ≠ name := by
  rintro rfl
  rw [String.toList_ofList] at hname
  exact h hname

open Kdl.Node in
lemma readTransform_of_fails {name : String} {e : ConfigError} (h : Fails n name e) :
    readTransform n name = .error e := by
  cases h with
  | kind hkind =>
    rw [readTransform, property?_eq_none hkind]
    rfl
  | unknown hkind h =>
    rename_i kind
    rw [readTransform, property?_eq_some_iff.2 hkind]
    simp only [require, bind, Except.bind]
    split
    case h_6 => rfl
    all_goals next hk => exact absurd hk (ofList_ne h (by decide))
  | opening hkind h hopen =>
    rcases h with rfl | rfl
    · rw [readTransform, property?_eq_some_iff.2 hkind, property?_eq_none hopen]
      rfl
    · rw [readTransform, property?_eq_some_iff.2 hkind, readEnclose, property?_eq_none hopen]
      rfl
  | closing hkind h hopen hclose =>
    rcases h with rfl | rfl
    · rw [readTransform, property?_eq_some_iff.2 hkind, readEnclose_of_lacks hopen hclose]
      rfl
    · rw [readTransform, property?_eq_some_iff.2 hkind, readEnclose_of_lacks hopen hclose,
        property?_eq_some_iff.2 hopen]
      rfl

lemma exists_asks_or_fails (n : Kdl.Node) (name : String) :
    (∃ t, Asks n t) ∨ ∃ e, Fails n name e := by
  rcases n.holds_or_lacks (some "kind") with ⟨kind, hkind⟩ | hkind
  · by_cases hknown : kind ∈ kinds
    · simp only [kinds, List.map_cons, List.map_nil, List.mem_cons, List.not_mem_nil,
        or_false] at hknown
      rcases hknown with rfl | rfl | rfl | rfl | rfl
      · rcases n.holds_or_lacks (some "open") with ⟨opening, hopen⟩ | hopen
        · exact .inl ⟨_, .wrap hkind hopen⟩
        · exact .inr ⟨_, .opening hkind (.inl rfl) hopen⟩
      · rcases n.holds_or_lacks (some "open") with ⟨opening, hopen⟩ | hopen
        · rcases n.holds_or_lacks (some "close") with ⟨closing, hclose⟩ | hclose
          · exact .inl ⟨_, .distinct hkind hopen hclose⟩
          · exact .inr ⟨_, .closing hkind (.inl rfl) hopen hclose⟩
        · exact .inr ⟨_, .opening hkind (.inr rfl) hopen⟩
      · rcases n.holds_or_lacks (some "open") with ⟨opening, hopen⟩ | hopen
        · rcases n.holds_or_lacks (some "close") with ⟨closing, hclose⟩ | hclose
          · exact .inl ⟨_, .breakThen hkind hopen hclose⟩
          · exact .inr ⟨_, .closing hkind (.inr rfl) hopen hclose⟩
        · exact .inl ⟨_, .lineBreak hkind hopen⟩
      · exact .inl ⟨_, .delete hkind⟩
      · exact .inl ⟨_, .unformat hkind⟩
    · exact .inr ⟨_, .unknown hkind hknown⟩
  · exact .inr ⟨_, .kind hkind⟩

/-! ### Nodes -/

/-- What a node says. -/
inductive Item where
  | link (target : Text)
  | image (source : Text)
  | policy (p : Policy)
  | action (a : Action)
  deriving DecidableEq, Repr

/-- The names of the nodes that are read. -/
def names : List String := ["link-url", "image-url", "content-policy", "action"]

/-- A node of such a name says something that can be read. -/
inductive Says (n : Kdl.Node) : Item → Prop
  | link {url : Text} (hname : n.name = "link-url") (h : n.Holds none url) : Says n (.link url)
  | image {url : Text} (hname : n.name = "image-url") (h : n.Holds none url) : Says n (.image url)
  | verbatim (hname : n.name = "content-policy") (h : n.Holds none "verbatim".toList) :
    Says n (.policy .verbatim)
  | escaped (hname : n.name = "content-policy") (h : n.Holds none "escape-text".toList) :
    Says n (.policy .escaped)
  | action {name : Text} {t : Transform} (hname : n.name = "action") (h : n.Holds none name)
    (ht : Asks n t) : Says n (.action ⟨String.ofList name, t⟩)

/-- A node of such a name is not valid, and what is said of it. -/
inductive Refused (n : Kdl.Node) : ConfigError → Prop
  | url (hname : n.name = "link-url" ∨ n.name = "image-url") (h : n.Lacks none) :
    Refused n (.missing n.name "a URL")
  | policy (hname : n.name = "content-policy") (h : n.Lacks none) :
    Refused n (.missing n.name "a policy")
  | unknownPolicy {value : Text} (hname : n.name = "content-policy") (h : n.Holds none value)
    (hvalue : value ≠ "verbatim".toList ∧ value ≠ "escape-text".toList) :
    Refused n (.invalid n.name value "verbatim, escape-text")
  | name (hname : n.name = "action") (h : n.Lacks none) :
    Refused n (.missing n.name "an action name")
  | action {name : Text} {e : ConfigError} (hname : n.name = "action") (h : n.Holds none name)
    (he : Fails n (String.ofList name) e) : Refused n e

/-- A configuration in which one more thing is said. -/
def put (c : Config) : Item → Config
  | .link target => { c with settings := { c.settings with linkTarget := target } }
  | .image source => { c with settings := { c.settings with imageSource := source } }
  | .policy p => { c with settings := { c.settings with policy := p } }
  | .action a => { c with actions := c.actions ++ [a] }

variable {c : Config}

open Kdl.Node in
lemma readAction_of_holds {name : Text} (h : n.Holds none name) :
    readAction n =
      readTransform n (String.ofList name) >>= fun t => .ok ⟨String.ofList name, t⟩ := by
  rw [readAction, argument?_eq_some_iff.2 h]
  rfl

open Kdl.Node in
lemma add_eq_put {i : Item} (h : Says n i) : c.add n = .ok (c.put i) := by
  cases h with
  | link hname h =>
    simp only [add, hname, argument?_eq_some_iff.2 h]
    rfl
  | image hname h =>
    simp only [add, hname, argument?_eq_some_iff.2 h]
    rfl
  | verbatim hname h =>
    simp only [add, hname, readPolicy, argument?_eq_some_iff.2 h]
    rfl
  | escaped hname h =>
    simp only [add, hname, readPolicy, argument?_eq_some_iff.2 h]
    rfl
  | action hname h ht =>
    simp only [add, hname, readAction_of_holds h, readTransform_of_asks ht]
    rfl

open Kdl.Node in
lemma add_of_refused {e : ConfigError} (h : Refused n e) : c.add n = .error e := by
  cases h with
  | url hname h =>
    rcases hname with hname | hname
    · simp only [add, hname, argument?_eq_none h]
      rfl
    · simp only [add, hname, argument?_eq_none h]
      rfl
  | policy hname h =>
    simp only [add, hname, readPolicy, argument?_eq_none h]
    rfl
  | unknownPolicy hname h hvalue =>
    simp only [add, hname, readPolicy, argument?_eq_some_iff.2 h, require, bind, Except.bind,
      if_neg hvalue.1, if_neg hvalue.2]
  | name hname h =>
    simp only [add, hname, readAction, argument?_eq_none h]
    rfl
  | action hname h he =>
    simp only [add, hname, readAction_of_holds h, readTransform_of_fails he]
    rfl

lemma add_of_notMem (h : n.name ∉ names) : c.add n = .ok c := by
  rw [add]
  split
  case h_5 => rfl
  all_goals next hname => exact absurd (hname ▸ by decide) h

lemma exists_says_or_refused (h : n.name ∈ names) : (∃ i, Says n i) ∨ ∃ e, Refused n e := by
  simp only [names, List.mem_cons, List.not_mem_nil, or_false] at h
  rcases n.holds_or_lacks none with ⟨s, hs⟩ | hs
  · rcases h with hname | hname | hname | hname
    · exact .inl ⟨_, .link hname hs⟩
    · exact .inl ⟨_, .image hname hs⟩
    · by_cases hverbatim : s = "verbatim".toList
      · exact .inl ⟨_, .verbatim hname (hverbatim ▸ hs)⟩
      · by_cases hescaped : s = "escape-text".toList
        · exact .inl ⟨_, .escaped hname (hescaped ▸ hs)⟩
        · exact .inr ⟨_, .unknownPolicy hname hs ⟨hverbatim, hescaped⟩⟩
    · rcases exists_asks_or_fails n (String.ofList s) with ⟨t, ht⟩ | ⟨e, he⟩
      · exact .inl ⟨_, .action hname hs ht⟩
      · exact .inr ⟨_, .action hname hs he⟩
  · rcases h with hname | hname | hname | hname
    · exact .inr ⟨_, .url (.inl hname) hs⟩
    · exact .inr ⟨_, .url (.inr hname) hs⟩
    · exact .inr ⟨_, .policy hname hs⟩
    · exact .inr ⟨_, .name hname hs⟩

lemma Refused.mem_names {e : ConfigError} (h : Refused n e) : n.name ∈ names := by
  by_contra hname
  have hadd := add_of_refused (c := {}) h
  rw [add_of_notMem hname] at hadd
  cases hadd

/-- A node is refused just if its name is known and it says nothing. -/
lemma exists_refused_iff : (∃ e, Refused n e) ↔ n.name ∈ names ∧ ∀ i, ¬Says n i := by
  constructor
  · rintro ⟨e, he⟩
    refine ⟨he.mem_names, fun i hi => ?_⟩
    have hadd := add_of_refused (c := {}) he
    rw [add_eq_put hi] at hadd
    cases hadd
  · rintro ⟨hname, hsays⟩
    exact (exists_says_or_refused hname).resolve_left fun ⟨i, hi⟩ => hsays i hi

/-! ### Documents -/

/-- The nodes that are read. -/
def known (nodes : List Kdl.Node) : List Kdl.Node := nodes.filter fun n => n.name ∈ names

def Item.link? : Item → Option Text
  | link target => some target
  | _ => none

def Item.image? : Item → Option Text
  | image source => some source
  | _ => none

def Item.policy? : Item → Option Policy
  | policy p => some p
  | _ => none

def Item.action? : Item → Option Action
  | action a => some a
  | _ => none

/-- The last word on each setting, or else its default, and all actions. -/
def ofItems (items : List Item) : Config where
  settings :=
    { linkTarget := (items.filterMap Item.link?).getLastD ({} : Settings).linkTarget
      imageSource := (items.filterMap Item.image?).getLastD ({} : Settings).imageSource
      policy := (items.filterMap Item.policy?).getLastD ({} : Settings).policy }
  actions := items.filterMap Item.action?

lemma ofItems_concat (items : List Item) (i : Item) :
    ofItems (items ++ [i]) = (ofItems items).put i := by
  cases i <;> simp [ofItems, put, List.filterMap_append, Item.link?, Item.image?, Item.policy?,
    Item.action?]

lemma foldl_put (items : List Item) : items.foldl put {} = ofItems items := by
  induction items using List.reverseRecOn with
  | nil => rfl
  | append_singleton items i ih => rw [List.foldl_concat, ih, ofItems_concat]

variable {nodes : List Kdl.Node}

lemma known_cons_of_mem (h : n.name ∈ names) : known (n :: nodes) = n :: known nodes :=
  List.filter_cons_of_pos (decide_eq_true h)

lemma known_cons_of_notMem (h : n.name ∉ names) : known (n :: nodes) = known nodes :=
  List.filter_cons_of_neg (by simpa using h)

lemma foldlM_add_cons (c : Config) (n : Kdl.Node) (nodes : List Kdl.Node) :
    (n :: nodes).foldlM add c = c.add n >>= fun d => nodes.foldlM add d := List.foldlM_cons

/-- A row of nodes that all say something puts it all into a configuration, in order. -/
lemma foldlM_add_eq_put {items : List Item} (h : List.Forall₂ Says (known nodes) items) :
    nodes.foldlM add c = .ok (items.foldl put c) := by
  induction nodes generalizing c items with
  | nil =>
    cases h
    rfl
  | cons n nodes ih =>
    rw [foldlM_add_cons]
    by_cases hname : n.name ∈ names
    · rw [known_cons_of_mem hname] at h
      cases h with
      | cons hsays hrest =>
        rw [add_eq_put hsays]
        exact ih hrest
    · rw [known_cons_of_notMem hname] at h
      rw [add_of_notMem hname]
      exact ih h

lemma exists_add_eq_ok (h : ∀ e, ¬Refused n e) (c : Config) : ∃ d, c.add n = .ok d := by
  by_cases hname : n.name ∈ names
  · obtain ⟨i, hi⟩ := (exists_says_or_refused hname).resolve_right fun ⟨e, he⟩ => h e he
    exact ⟨_, add_eq_put hi⟩
  · exact ⟨c, add_of_notMem hname⟩

/-- A node is the first of a document that is refused. -/
structure FirstRefused (nodes : List Kdl.Node) (n : Kdl.Node) (e : ConfigError) : Prop where
  refused : Refused n e
  first : ∃ before after, nodes = before ++ n :: after ∧ ∀ m ∈ before, ∀ d, ¬Refused m d

lemma foldlM_add_of_firstRefused {e : ConfigError} (h : FirstRefused nodes n e) :
    nodes.foldlM add c = .error e := by
  obtain ⟨he, before, after, rfl, hbefore⟩ := h
  induction before generalizing c with
  | nil =>
    rw [List.nil_append, foldlM_add_cons, add_of_refused he]
    rfl
  | cons m before ih =>
    obtain ⟨hm, hbefore⟩ := List.forall_mem_cons.1 hbefore
    obtain ⟨d, hd⟩ := exists_add_eq_ok hm c
    rw [List.cons_append, foldlM_add_cons, hd]
    exact ih hbefore

lemma exists_items (h : ∀ n ∈ nodes, ∀ e, ¬Refused n e) :
    ∃ items, List.Forall₂ Says (known nodes) items := by
  induction nodes with
  | nil => exact ⟨[], .nil⟩
  | cons n nodes ih =>
    obtain ⟨hn, hrest⟩ := List.forall_mem_cons.1 h
    obtain ⟨items, hitems⟩ := ih hrest
    by_cases hname : n.name ∈ names
    · obtain ⟨i, hi⟩ := (exists_says_or_refused hname).resolve_right fun ⟨e, he⟩ => hn e he
      rw [known_cons_of_mem hname]
      exact ⟨i :: items, .cons hi hitems⟩
    · rw [known_cons_of_notMem hname]
      exact ⟨items, hitems⟩

lemma exists_firstRefused (h : ∃ n ∈ nodes, ∃ e, Refused n e) :
    ∃ n e, FirstRefused nodes n e := by
  induction nodes with
  | nil =>
    obtain ⟨n, hn, -⟩ := h
    cases hn
  | cons n nodes ih =>
    by_cases hn : ∃ e, Refused n e
    · obtain ⟨e, he⟩ := hn
      exact ⟨n, e, he, [], nodes, rfl, nofun⟩
    · obtain ⟨m, hm, hrefused⟩ := h
      rcases List.mem_cons.1 hm with rfl | hm
      · exact absurd hrefused hn
      · obtain ⟨k, e, he, before, after, rfl, hbefore⟩ := ih ⟨m, hm, hrefused⟩
        refine ⟨k, e, he, n :: before, after, rfl, List.forall_mem_cons.2 ⟨?_, hbefore⟩⟩
        exact fun d hd => hn ⟨d, hd⟩

lemma foldlM_add_known (c : Config) (nodes : List Kdl.Node) :
    (known nodes).foldlM add c = nodes.foldlM add c := by
  induction nodes generalizing c with
  | nil => rfl
  | cons n nodes ih =>
    by_cases hname : n.name ∈ names
    · rw [known_cons_of_mem hname, foldlM_add_cons, foldlM_add_cons]
      simp only [ih]
    · rw [known_cons_of_notMem hname, foldlM_add_cons, add_of_notMem hname, ih]
      rfl

/-- **Reading a configuration.** It fails just if a node is refused, with the error of the first one;
otherwise the last word on each setting counts, and all actions do in order. Nodes of other names
can be left out. A node of a known name is refused just if it says nothing. -/
theorem ofNodes_eq_iff (nodes : List Kdl.Node) :
    ((∃ e, ofNodes nodes = .error e) ↔ ∃ n ∈ nodes, ∃ e, Refused n e) ∧
      (∀ e, ofNodes nodes = .error e ↔ ∃ n, FirstRefused nodes n e) ∧
      (∀ c, ofNodes nodes = .ok c ↔
        ∃ items, List.Forall₂ Says (known nodes) items ∧ c = ofItems items) ∧
      ofNodes (known nodes) = ofNodes nodes ∧
      ∀ n, (∃ e, Refused n e) ↔ n.name ∈ names ∧ ∀ i, ¬Says n i := by
  have hok (c : Config) (h : ∃ items, List.Forall₂ Says (known nodes) items ∧ c = ofItems items) :
      ofNodes nodes = .ok c := by
    obtain ⟨items, hitems, rfl⟩ := h
    rw [ofNodes, foldlM_add_eq_put hitems, foldl_put]
  have herror (e : ConfigError) (h : ∃ n, FirstRefused nodes n e) : ofNodes nodes = .error e :=
    foldlM_add_of_firstRefused h.choose_spec
  have htotal : (∃ c items, List.Forall₂ Says (known nodes) items ∧ c = ofItems items) ∨
      ∃ e n, FirstRefused nodes n e := by
    by_cases h : ∃ n ∈ nodes, ∃ e, Refused n e
    · exact .inr (exists_comm.1 (exists_firstRefused h))
    · obtain ⟨items, hitems⟩ := exists_items fun n hn e he => h ⟨n, hn, e, he⟩
      exact .inl ⟨_, items, hitems, rfl⟩
  obtain ⟨hokiff, herroriff⟩ := outcome_iff_of_total hok herror htotal
  refine ⟨⟨?_, fun h => ?_⟩, herroriff, hokiff, foldlM_add_known {} nodes,
    fun n => exists_refused_iff⟩
  · rintro ⟨e, he⟩
    obtain ⟨n, hrefused, before, after, rfl, -⟩ := (herroriff e).1 he
    exact ⟨n, List.mem_append_right _ List.mem_cons_self, e, hrefused⟩
  · obtain ⟨n, e, hfirst⟩ := exists_firstRefused h
    exact ⟨e, herror e ⟨n, hfirst⟩⟩

/-- A kind that is no string hides the one that follows it. -/
example :
    let name : Kdl.Entry := ⟨none, .string "cut".toList⟩
    let kind (v : Kdl.Value) : Kdl.Entry := ⟨some "kind", v⟩
    ofNodes [⟨"action", [name, kind .null, kind (.string "delete".toList)]⟩] =
      .error (.missing "cut" "kind=") := by
  decide +kernel

end Config

end RichText
