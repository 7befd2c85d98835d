import ReactiveView.Proofs.Links
import ReactiveView.Proofs.Text.Words

/-!
# Searching

A selector is a name, with a mark that says whether it is an id, a class or a tag. A search goes down
into the first child before it looks at the second, so what it finds is the first match in document
order.
-/

namespace ReactiveView

variable {κ σ η : Type}

/-! ## The text of a selector -/

/-- What a name is the name of. -/
inductive Aspect where
  | byId
  | byClass
  | byTag

/-- What stands in front of the name. -/
def Aspect.mark : Aspect → List Char
  | .byId => ['#']
  | .byClass => ['.']
  | .byTag => []

/-- What is looked for; tags are written in lower case. -/
def Aspect.selector (name : List Char) : Aspect → Selector
  | .byId => .byId (String.ofList name)
  | .byClass => .byClass (String.ofList name)
  | .byTag => .byTag (Dom.lowerAscii (String.ofList name))

namespace Selector

/-- One or more ASCII letters, digits, hyphens or underscores. -/
def Named (name : List Char) : Prop :=
  name ≠ [] ∧ ∀ c ∈ name, c.isAlphanum = true ∨ c = '-' ∨ c = '_'

/-- The text is a mark and a name, but for blanks at its ends. -/
structure Reads (s : String) (a : Aspect) (name : List Char) : Prop where
  named : Named name
  text : Surrounds s.toList (a.mark ++ name)

theorem isName_iff {name : List Char} : isName name = true ↔ Named name := by
  simp [isName, Named, isNameChar, or_assoc]

theorem isBlank_eq_false {c : Char} (h : c.isAlphanum = true ∨ c = '-' ∨ c = '_') :
    isBlank c = false := by
  rcases h with h | rfl | rfl
  · have h : (decide (65 ≤ c.val ∧ c.val ≤ 90) || decide (97 ≤ c.val) && decide (c.val ≤ 122) ||
        decide (48 ≤ c.val) && decide (c.val ≤ 57)) = true := h
    simp only [Bool.or_eq_true, Bool.and_eq_true, decide_eq_true_eq, UInt32.le_iff_toNat_le] at h
    change ((65 ≤ c.toNat ∧ c.toNat ≤ 90) ∨ (97 ≤ c.toNat ∧ c.toNat ≤ 122)) ∨
      (48 ≤ c.toNat ∧ c.toNat ≤ 57) at h
    simp only [isBlank, decide_eq_false_iff_not]
    omega
  · rfl
  · rfl

theorem Named.solid {name : List Char} (h : Named name) (a : Aspect) :
    ∀ c ∈ a.mark ++ name, isBlank c = false := by
  have hmark : ∀ c ∈ a.mark, isBlank c = false := by
    cases a with
    | byId | byClass => exact List.forall_mem_singleton.2 rfl
    | byTag => exact fun _ hc => absurd hc List.not_mem_nil
  exact fun c hc => (List.mem_append.1 hc).elim (hmark c) fun hc => isBlank_eq_false (h.2 c hc)

/-- What is left after trimming can be read in one way only, for no mark is part of a name. -/
theorem parse?_eq_some_iff_trim {s : String} {selector : Selector} :
    parse? s = some selector ↔
      ∃ (a : Aspect) (name : List Char),
        Named name ∧ trim s.toList = a.mark ++ name ∧ a.selector name = selector := by
  have hmarks : ∀ name, ¬ Named ('#' :: name) ∧ ¬ Named ('.' :: name) := fun name =>
    ⟨fun h => absurd (h.2 '#' (.head _)) (by decide), fun h => absurd (h.2 '.' (.head _)) (by decide)⟩
  unfold parse?
  split
  · next name htrim =>
    rw [htrim, Option.ite_none_right_eq_some, isName_iff, Option.some.injEq]
    constructor
    · exact fun h => ⟨.byId, name, h.1, rfl, h.2⟩
    · rintro ⟨a | a | a, name', hnamed, heq, hselector⟩
      · obtain rfl : name = name' := by simpa [Aspect.mark] using heq
        exact ⟨hnamed, hselector⟩
      · simp [Aspect.mark] at heq
      · exact absurd (heq ▸ hnamed) (hmarks name).1
  · next name htrim =>
    rw [htrim, Option.ite_none_right_eq_some, isName_iff, Option.some.injEq]
    constructor
    · exact fun h => ⟨.byClass, name, h.1, rfl, h.2⟩
    · rintro ⟨a | a | a, name', hnamed, heq, hselector⟩
      · simp [Aspect.mark] at heq
      · obtain rfl : name = name' := by simpa [Aspect.mark] using heq
        exact ⟨hnamed, hselector⟩
      · exact absurd (heq ▸ hnamed) (hmarks name).2
  · next hid hclass =>
    rw [Option.ite_none_right_eq_some, isName_iff, Option.some.injEq]
    constructor
    · exact fun h => ⟨.byTag, _, h.1, rfl, h.2⟩
    · rintro ⟨a | a | a, name', hnamed, heq, hselector⟩
      · exact absurd heq (hid name')
      · exact absurd heq (hclass name')
      · obtain rfl : trim s.toList = name' := heq
        exact ⟨hnamed, hselector⟩

theorem parse?_eq_some_iff {s : String} {selector : Selector} :
    parse? s = some selector ↔ ∃ a name, Reads s a name ∧ a.selector name = selector := by
  rw [parse?_eq_some_iff_trim]
  refine exists₂_congr fun a name => ⟨fun ⟨hnamed, htrim, heq⟩ => ⟨⟨hnamed, ?_⟩, heq⟩,
    fun ⟨hreads, heq⟩ => ⟨hreads.named, ?_, heq⟩⟩
  · exact (trim_eq_iff (hnamed.solid a)).1 htrim
  · exact (trim_eq_iff (hreads.named.solid a)).2 hreads.text

theorem Reads.parse? {s : String} {a : Aspect} {name : List Char} (h : Reads s a name) :
    parse? s = some (a.selector name) :=
  parse?_eq_some_iff.2 ⟨a, name, h, rfl⟩

/-- A mark and a name are a selector as they stand. -/
theorem Named.reads {name : List Char} (h : Named name) (a : Aspect) :
    Reads (String.ofList (a.mark ++ name)) a name :=
  ⟨h, [], [], by simp, by simp, by simp⟩

end Selector

/-! ## Matches -/

/-- A node is an element with the id, with the class among its classes, or with the tag. -/
def Node.Meets (n : Node η) (name : List Char) : Aspect → Prop
  | .byId => n.isElement = true ∧ n.attribute? "id" = some (String.ofList name)
  | .byClass => n.isElement = true ∧
      ∃ classes, n.attribute? "class" = some classes ∧ IsWord name classes.toList
  | .byTag => n.isElement = true ∧
      ∃ tag, n.tag? = some tag ∧ Dom.lowerAscii tag = Dom.lowerAscii (String.ofList name)

/-- Tags are in lower case. -/
def Dom.Lowered (d : Dom η) : Prop :=
  ∀ n tag, (d.node n).tag? = some tag → Dom.lowerAscii tag = tag

theorem Node.isElement_of_attribute? {n : Node η} {name value : String}
    (h : n.attribute? name = some value) : n.isElement = true := by
  unfold attribute? attributes at h
  unfold isElement
  split at h
  · rfl
  · cases h

theorem Dom.Lowered.accepts_iff {d : Dom η} (h : d.Lowered) (n : Ref .node) (a : Aspect)
    (name : List Char) :
    (a.selector name).accepts (d.node n) = true ↔ (d.node n).Meets name a := by
  cases a with
  | byId =>
    simp only [Aspect.selector, Selector.accepts, Node.Meets, decide_eq_true_iff]
    exact ⟨fun hid => ⟨Node.isElement_of_attribute? hid, hid⟩, And.right⟩
  | byClass =>
    simp only [Aspect.selector, Selector.accepts, Node.Meets, Node.hasClass, String.toList_ofList]
    cases hclass : (d.node n).attribute? "class" with
    | none => simp
    | some classes => simp [mem_words_iff, Node.isElement_of_attribute? hclass]
  | byTag =>
    simp only [Aspect.selector, Selector.accepts, Node.Meets, decide_eq_true_iff]
    rw [Node.isElement_eq]
    cases htag : (d.node n).tag? with
    | none => simp
    | some tag => simp [h n tag htag]

/-! ## Document order -/

namespace Dom

/-- All nodes at and below some nodes, in document order; there are finitely many. -/
inductive DocumentOrder (d : Dom η) : List (Ref .node) → List (Ref .node) → Prop
  | nil : d.DocumentOrder [] []
  | cons {n : Ref .node} {ns below rest : List (Ref .node)} :
      d.DocumentOrder (d.children n) below → d.DocumentOrder ns rest → d.DocumentOrder (n :: ns) (n :: below ++ rest)

/-- Where no path down is endless, the nodes can be listed. -/
theorem exists_documentOrder {d : Dom η} : ∀ {k : Nat} {ns : List (Ref .node)},
    (∀ n ∈ ns, d.Within k n) → ∃ l, d.DocumentOrder ns l
  | _, [], _ => ⟨[], .nil⟩
  | 0, n :: ns, h => by
      have hnil : d.children n = [] := h n (.head _)
      obtain ⟨rest, hrest⟩ := exists_documentOrder (k := 0) fun m hm => h m (.tail _ hm)
      exact ⟨_, .cons (by rw [hnil]; exact .nil) hrest⟩
  | k + 1, n :: ns, h => by
      obtain ⟨below, hbelow⟩ := exists_documentOrder (h n (.head _))
      obtain ⟨rest, hrest⟩ := exists_documentOrder (k := k + 1) fun m hm => h m (.tail _ hm)
      exact ⟨_, .cons hbelow hrest⟩

/-- A search in some trees is a search in the list of their nodes. -/
theorem DocumentOrder.findSome? {d : Dom η} (s : Selector) {ns l : List (Ref .node)}
    (h : d.DocumentOrder ns l) : ∀ {k : Nat}, (∀ n ∈ ns, d.Within k n) →
      ns.findSome? (d.findWithin s k) = l.find? fun n => s.accepts (d.node n) := by
  induction h with
  | nil => exact fun _ => rfl
  | @cons n ns below rest _ _ ihbelow ihrest =>
    intro k hwithin
    have hfirst : d.findWithin s k n = (n :: below).find? fun n => s.accepts (d.node n) := by
      cases k with
      | zero =>
        have hnil : d.children n = [] := hwithin n (.head _)
        have hbelow := ihbelow (k := 0) (by simp [hnil])
        rw [hnil, List.findSome?_nil] at hbelow
        rw [findWithin, List.find?_cons, ← hbelow]
        cases s.accepts (d.node n) <;> rfl
      | succ k =>
        rw [findWithin, List.find?_cons, ihbelow (hwithin n (.head _))]
        cases s.accepts (d.node n) <;> rfl
    rw [List.findSome?_cons, hfirst, ihrest fun m hm => hwithin m (.tail _ hm), List.find?_append]
    cases (n :: below).find? fun n => s.accepts (d.node n) <;> rfl

theorem not_self_of_acc {R : Ref .node → Ref .node → Prop} {n : Ref .node} (h : Acc R n) :
    ¬ R n n := by
  induction h with
  | intro n _ ih => exact fun hn => ih n hn hn

/-- A node with finitely many nodes below it is no higher than there are nodes. -/
theorem Linked.within_size {d : Dom η} (hl : d.Linked) {k : Nat} {n : Ref .node}
    (h : d.Within k n) : d.Within d.nodes.size n := by
  -- The links of nodes from which no path down is endless, which are all that a path from here has.
  let R : Ref .node → Ref .node → Prop := fun p c =>
    c ∈ d.children p ∧ Acc (fun c p => c ∈ d.children p) p
  have hR : ∀ {l : List (Ref .node)} {n : Ref .node}, Acc (fun c p => c ∈ d.children p) n →
      (n :: l).IsChain (fun p c => c ∈ d.children p) → (n :: l).IsChain R := by
    intro l
    induction l with
    | nil => exact fun _ _ => .singleton _
    | cons c l ih =>
      intro n hacc hchain
      obtain ⟨hc, hchain⟩ := List.isChain_cons_cons.1 hchain
      exact List.isChain_cons_cons.2 ⟨⟨hc, hacc⟩, ih (hacc.inv hc) hchain⟩
  have hirrefl : ∀ x, ¬ Relation.TransGen R x x := by
    intro x hx
    obtain ⟨y, ⟨_, hacc⟩, _⟩ := Relation.TransGen.head'_iff.1 hx
    have hring : Relation.TransGen (fun c p => c ∈ d.children p) x x := by
      rw [← Relation.transGen_swap]
      exact Relation.TransGen.mono (fun _ _ => And.left) x x hx
    exact not_self_of_acc hacc.transGen hring
  by_contra hnot
  obtain ⟨l, hlength, hchain⟩ := exists_isChain_of_not_within hnot
  have hmade := lt_size_of_isChain (d := d)
    (fun p c hc => ⟨lt_size_of_children hc, lt_size_of_parent ((hl p c).1 hc)⟩) hchain
    (List.ne_nil_of_length_pos (by omega))
  have hle := length_le_of_isChain hirrefl (hR (acc_of_within h) hchain) hmade
  rw [List.length_cons] at hle
  omega

/-- The first node of a list that a name fits, or nothing if it fits none. -/
def Finds (d : Dom η) (name : List Char) (a : Aspect) (l : List (Ref .node)) :
    Option (Ref .node) → Prop
  | none => ∀ n ∈ l, ¬ (d.node n).Meets name a
  | some n => ∃ before after, l = before ++ n :: after ∧ (d.node n).Meets name a ∧
      ∀ m ∈ before, ¬ (d.node m).Meets name a

theorem Lowered.finds_find? {d : Dom η} (h : d.Lowered) (name : List Char) (a : Aspect)
    (l : List (Ref .node)) :
    d.Finds name a l (l.find? fun n => (a.selector name).accepts (d.node n)) := by
  cases hfind : l.find? fun n => (a.selector name).accepts (d.node n) with
  | none =>
    intro n hn hmeets
    exact List.find?_eq_none.1 hfind n hn ((h.accepts_iff n a name).2 hmeets)
  | some n =>
    obtain ⟨haccepts, before, after, heq, hnot⟩ := List.find?_eq_some_iff_append.1 hfind
    refine ⟨before, after, heq, (h.accepts_iff n a name).1 haccepts, fun m hm hmeets => ?_⟩
    simpa [(h.accepts_iff m a name).2 hmeets] using hnot m hm

/-! ## Tags stay in lower case -/

theorem lowered_empty : ({} : Dom η).Lowered := by
  intro n tag htag
  have hnode : ({} : Dom η).node n = default := Table.get_of_size_le _ (Nat.zero_le _)
  rw [hnode] at htag
  cases htag

theorem Lowered.of_tags {d d' : Dom η} (h : d.Lowered)
    (htag : ∀ n, (d'.node n).tag? = (d.node n).tag?) : d'.Lowered :=
  fun n tag hn => h n tag (htag n ▸ hn)

theorem toLower_toLower (c : Char) : c.toLower.toLower = c.toLower := by
  by_cases h : c.val ≥ 'A'.val ∧ c.val ≤ 'Z'.val
  · have hval : c.toLower.val = c.val + 32 := congrArg Char.val (dif_pos h)
    refine dif_neg ?_
    rw [hval]
    simp only [UInt32.le_iff_toNat_le, ge_iff_le, UInt32.toNat_add] at h ⊢
    change 65 ≤ c.val.toNat ∧ c.val.toNat ≤ 90 at h
    change ¬ (65 ≤ (c.val.toNat + 32) % 2 ^ 32 ∧ (c.val.toNat + 32) % 2 ^ 32 ≤ 90)
    omega
  · have hsame : c.toLower = c := dif_neg h
    rw [hsame, hsame]

theorem lowerAscii_idem (s : String) : lowerAscii (lowerAscii s) = lowerAscii s := by
  rw [lowerAscii, lowerAscii, String.toList_ofList, List.map_map]
  exact congrArg String.ofList (List.map_congr_left fun c _ => toLower_toLower c)

theorem Lowered.push {d : Dom η} (h : d.Lowered) {content : Content} (fresh : content.Fresh) :
    ({ nodes := d.nodes.push { content } } : Dom η).Lowered := by
  intro n tag htag
  have hnode : ({ nodes := d.nodes.push { content } } : Dom η).node n =
      if n = d.nodes.next then { content } else d.node n := d.nodes.get_push _ n
  rw [hnode] at htag
  split at htag
  · cases fresh with
    | element tag' =>
      obtain rfl : lowerAscii tag' = tag := Option.some.inj htag
      exact lowerAscii_idem tag'
    | text s => cases htag
  · exact h n tag htag

theorem tag?_edit (d : Dom (Handler κ)) (e : Edit κ) (x : Ref .node) :
    ((Config.edit d e).node x).tag? = (d.node x).tag? := by
  cases e with
  | append p c => exact (d.relinked_append p c x).part Node.tag? fun _ _ _ => rfl
  | detach n => exact (d.relinked_detach n x).part Node.tag? fun _ _ _ => rfl
  | setText n s =>
    exact d.part_setText Node.tag? (fun _ _ _ => rfl) (fun ha _ => (Node.tag?_of_text ha).symm) n s x
  | setValue n s => exact ((d.grows_setValue n s).node x).tag
  | setAttribute n _ _ | removeAttribute n _ =>
    refine d.part_modify Node.tag? n (fun a => ?_) x
    cases hcontent : a.content <;> simp [Node.tag?, hcontent]
  | listen n kind callback => exact ((d.grows_listen n kind (.client callback)).node x).tag
  | retain n s => exact ((d.grows_retain n s).node x).tag

end Dom

namespace Config

variable {client : Client κ σ} {c : Config κ σ}

/-- An element gets its tag when it is made, and keeps it. -/
theorem Reachable.lowered (h : c.Reachable client) : c.world.dom.Lowered := by
  obtain ⟨start, n, hstart, rfl⟩ := h
  induction n with
  | zero =>
    rw [after_zero, hstart]
    exact Dom.lowered_empty
  | succ n ih =>
    rw [after_succ]
    have hsound := (Reachable.sound ⟨start, n, hstart, rfl⟩ : (start.after client n).world.Sound).dom
    rcases step_world client (start.after client n) with hworld | ⟨f, new, _, effect⟩
    · rw [hworld]
      exact ih
    · rcases effect.dom_cases hsound with ⟨content, fresh, hdom⟩ | ⟨e, k, _, hdom⟩ | decorates
      · rw [hdom]
        exact ih.push fresh
      · rw [hdom]
        exact ih.of_tags (Dom.tag?_edit _ e)
      · exact ih.of_tags fun x => (decorates.grows.node x).tag

/--
A text is a selector exactly if, but for the blanks around it, it is a name of the allowed characters
behind a mark or without one. Below a node with finitely many nodes below it, the nodes can be listed
in document order, and what is found for a selector is the first of them that it fits: of all of them
with the node itself in front if a document is searched, of these alone if it is the node. For any
other text nothing is found. To look for an id of the allowed characters is to search for the selector
that it makes.
-/
theorem search_first (h : c.Reachable client) {n : Ref .node} {height : Nat}
    (hfinite : c.world.dom.Within height n) :
    (∀ s, (Selector.parse? s).isSome = true ↔ ∃ a name, Selector.Reads s a name) ∧
    (∃ below, c.world.dom.DocumentOrder (c.world.dom.children n) below ∧
      ∀ s a name, Selector.Reads s a name →
        c.world.dom.Finds name a (n :: below) (c.world.dom.queryDocument n s) ∧
        c.world.dom.Finds name a below (c.world.dom.query n s)) ∧
    (∀ s, (¬ ∃ a name, Selector.Reads s a name) →
      c.world.dom.queryDocument n s = none ∧ c.world.dom.query n s = none) ∧
    ∀ id, Selector.Named id.toList →
      c.world.dom.byId n id = c.world.dom.queryDocument n ("#" ++ id) := by
  have hlinked := h.tied.linked
  have hwithin := hlinked.within_size hfinite
  have hparses : ∀ s, (Selector.parse? s).isSome = true ↔ ∃ a name, Selector.Reads s a name := by
    intro s
    simp [Option.isSome_iff_exists, Selector.parse?_eq_some_iff]
  refine ⟨hparses, ?_, fun s hno => ?_, fun id hid => ?_⟩
  · have hchildren : ∀ m ∈ c.world.dom.children n, c.world.dom.Within c.world.dom.nodes.size m := by
      intro m hm
      cases height with
      | zero => rw [show c.world.dom.children n = [] from hfinite] at hm; cases hm
      | succ height => exact hlinked.within_size (hfinite m hm)
    obtain ⟨below, hbelow⟩ := Dom.exists_documentOrder hchildren
    have hall : c.world.dom.DocumentOrder [n] (n :: below ++ []) := .cons hbelow .nil
    refine ⟨below, hbelow, fun s a name hreads => ⟨?_, ?_⟩⟩
    · have hfind := hall.findSome? (a.selector name) (k := c.world.dom.nodes.size) (by simpa using hwithin)
      rw [Dom.queryDocument, hreads.parse?, Option.bind_some, Dom.find?]
      rw [List.findSome?_singleton, List.append_nil] at hfind
      rw [hfind]
      exact h.lowered.finds_find? name a _
    · have hfind := hbelow.findSome? (a.selector name) hchildren
      rw [Dom.query, hreads.parse?, Option.bind_some]
      change c.world.dom.Finds name a below
        ((c.world.dom.children n).findSome? (c.world.dom.findWithin (a.selector name) _))
      rw [hfind]
      exact h.lowered.finds_find? name a below
  · have hnone : Selector.parse? s = none := by
      rw [← Option.not_isSome_iff_eq_none, hparses]
      exact hno
    rw [Dom.queryDocument, Dom.query, hnone]
    exact ⟨rfl, rfl⟩
  · have hreads := hid.reads .byId
    have heq : String.ofList (Aspect.mark .byId ++ id.toList) = "#" ++ id := by
      apply String.toList_injective
      simp [Aspect.mark]
    rw [Dom.queryDocument, ← heq, hreads.parse?, Option.bind_some, Dom.byId, Aspect.selector,
      String.ofList_toList]

/-- A document whose second element has an id and two classes, and an element below it. -/
def searched : Config Unit (List Entity) where
  world := {}
  state := []
  stack := [.client (.perform (.newElement "HTML") fun root =>
    .perform (.newElement "div") fun app =>
      .perform (.newElement "span") fun leaf =>
        .store [.node root, .node app, .node leaf] (
          .perform (.edit (.append root app)) fun _ =>
            .perform (.edit (.append app leaf)) fun _ =>
              .perform (.edit (.setAttribute app "id" "app")) fun _ =>
                .perform (.edit (.setAttribute app "class" "main wide")) fun _ => .done none))]

/-- Both searches for a class look at the same list, which the one begins a node earlier than the other. -/
theorem searched_first :
    (searched.after idle 8).world.dom.queryDocument ⟨1⟩ " .wide " = some ⟨1⟩ ∧
      (searched.after idle 8).world.dom.query ⟨1⟩ " .wide " = none ∧
      ∃ below, (searched.after idle 8).world.dom.DocumentOrder [⟨2⟩] below ∧
        (searched.after idle 8).world.dom.Finds "wide".toList .byClass (⟨1⟩ :: below) (some ⟨1⟩) ∧
        (searched.after idle 8).world.dom.Finds "wide".toList .byClass below none := by
  have hreachable : (searched.after idle 8).Reachable idle := ⟨searched, 8, rfl, rfl⟩
  have hfinite : (searched.after idle 8).world.dom.Within 1 ⟨1⟩ := by
    intro c hc
    have hchildren : (searched.after idle 8).world.dom.children ⟨1⟩ = [⟨2⟩] := by decide +kernel
    rw [hchildren, List.mem_singleton] at hc
    subst hc
    change (searched.after idle 8).world.dom.children ⟨2⟩ = []
    decide +kernel
  have hdocument : (searched.after idle 8).world.dom.queryDocument ⟨1⟩ " .wide " = some ⟨1⟩ := by
    decide +kernel
  have hbelow : (searched.after idle 8).world.dom.query ⟨1⟩ " .wide " = none := by decide +kernel
  have hreads : Selector.Reads " .wide " .byClass "wide".toList :=
    ⟨Selector.isName_iff.1 (by decide), [' '], [' '], rfl, List.forall_mem_singleton.2 rfl,
      List.forall_mem_singleton.2 rfl⟩
  obtain ⟨below, horder, hfinds⟩ := (search_first hreachable hfinite).2.1
  have hfirst := hfinds " .wide " .byClass "wide".toList hreads
  rw [hdocument, hbelow] at hfirst
  exact ⟨hdocument, hbelow, below, horder, hfirst⟩

end Config

end ReactiveView
