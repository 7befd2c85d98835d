import Mathlib.Logic.Function.Basic
import ReactiveView.Proofs.Engine.Obliging

/-!
# Attributes

The attributes of an element change only when one of them is set or removed, and each such call is about
one name. So at every moment they are what the calls up to then make of nothing: every name has the value
that was set last, and the names stand in the order in which they were set for the first time since they
were absent.
-/

namespace ReactiveView

variable {κ σ η : Type}

/-- A call that sets an attribute of an element or removes it. -/
inductive AttributeCall where
  | set (name value : String)
  | remove (name : String)
  deriving DecidableEq

namespace AttributeCall

variable {calls : List AttributeCall} {call : AttributeCall} {m : OrderedMap String} {i : Nat}
  {a : String}

/-! ## Histories -/

def name : AttributeCall → String
  | .set name _ | .remove name => name

/-- The value that the name has after the call. -/
def value? : AttributeCall → Option String
  | .set _ value => some value
  | .remove _ => none

/-- What the call does to the attributes of its element. -/
def apply (m : OrderedMap String) : AttributeCall → OrderedMap String
  | .set name value => m.put name value
  | .remove name => m.erase name

/-- The finite map that some calls make of the one without names. -/
def replay (calls : List AttributeCall) : String → Option String :=
  calls.foldl (fun values call => Function.update values call.name call.value?) fun _ => none

/-- The last insertion of a name: a call sets it that was absent, and no later call removes it. -/
structure Inserts (calls : List AttributeCall) (i : Nat) (a : String) : Prop where
  set : ∃ value, calls[i]? = some (.set a value)
  absent : replay (calls.take i) a = none
  kept : .remove a ∉ calls.drop i

/-- The names that were inserted, in the order of their last insertions. -/
structure Ordered (calls : List AttributeCall) (names : List String) : Prop where
  mem : ∀ a, a ∈ names ↔ ∃ i, Inserts calls i a
  order : names.Pairwise fun a b => ∀ i j, Inserts calls i a → Inserts calls j b → i < j

theorem Inserts.lt (h : Inserts calls i a) : i < calls.length := by
  obtain ⟨value, hset⟩ := h.set
  exact (List.getElem?_eq_some_iff.1 hset).1

theorem replay_concat (calls : List AttributeCall) (call : AttributeCall) (a : String) :
    replay (calls ++ [call]) a = if a = call.name then call.value? else replay calls a := by
  rw [replay, List.foldl_append, List.foldl_cons, List.foldl_nil, Function.update_apply]
  rfl

/-- A call takes away the insertion that it undoes, and may be an insertion itself. -/
theorem inserts_concat : Inserts (calls ++ [call]) i a ↔
    (Inserts calls i a ∧ call ≠ .remove a) ∨
      (i = calls.length ∧ replay calls a = none ∧ ∃ value, call = .set a value) := by
  rcases Nat.lt_trichotomy i calls.length with hlt | rfl | hgt
  · have hset : (calls ++ [call])[i]? = calls[i]? := List.getElem?_append_left hlt
    have htake : (calls ++ [call]).take i = calls.take i :=
      List.take_append_of_le_length (Nat.le_of_lt hlt)
    have hdrop : (calls ++ [call]).drop i = calls.drop i ++ [call] :=
      List.drop_append_of_le_length (Nat.le_of_lt hlt)
    constructor
    · intro h
      obtain ⟨hset', habsent, hkept⟩ := h
      rw [hset] at hset'
      rw [htake] at habsent
      rw [hdrop, List.mem_append, not_or, List.mem_singleton] at hkept
      exact .inl ⟨⟨hset', habsent, hkept.1⟩, Ne.symm hkept.2⟩
    · rintro (⟨h, hcall⟩ | ⟨heq, _⟩)
      · refine ⟨hset ▸ h.set, htake ▸ h.absent, ?_⟩
        rw [hdrop, List.mem_append, not_or, List.mem_singleton]
        exact ⟨h.kept, Ne.symm hcall⟩
      · exact absurd heq (Nat.ne_of_lt hlt)
  · have hset : (calls ++ [call])[calls.length]? = some call := List.getElem?_concat_length
    have htake : (calls ++ [call]).take calls.length = calls := List.take_left
    have hdrop : (calls ++ [call]).drop calls.length = [call] := List.drop_left
    constructor
    · intro h
      obtain ⟨value, hvalue⟩ := h.set
      have habsent := h.absent
      rw [hset] at hvalue
      rw [htake] at habsent
      exact .inr ⟨rfl, habsent, value, Option.some.inj hvalue⟩
    · rintro (⟨h, _⟩ | ⟨_, habsent, value, rfl⟩)
      · exact absurd h.lt (Nat.lt_irrefl _)
      · refine ⟨⟨value, hset⟩, htake.symm ▸ habsent, ?_⟩
        rw [hdrop, List.mem_singleton]
        exact fun heq => by cases heq
  · constructor
    · intro h
      have hlt := h.lt
      rw [List.length_append, List.length_singleton] at hlt
      exact absurd hlt (Nat.not_lt_of_le hgt)
    · rintro (⟨h, _⟩ | ⟨heq, _⟩)
      · exact absurd h.lt (Nat.not_lt_of_le (Nat.le_of_lt hgt))
      · exact absurd heq (Nat.ne_of_gt hgt)

/-! ## The order of the names -/

/-- A name that is there is set in its place. -/
theorem Ordered.overwrite {names : List String} (h : Ordered calls names)
    (hpresent : replay calls a ≠ none) (value : String) :
    Ordered (calls ++ [.set a value]) names := by
  have hsame : ∀ i b, Inserts (calls ++ [.set a value]) i b ↔ Inserts calls i b := by
    intro i b
    rw [inserts_concat]
    constructor
    · rintro (⟨hinserts, _⟩ | ⟨_, hnone, value', heq⟩)
      · exact hinserts
      · obtain ⟨rfl, _⟩ := AttributeCall.set.inj heq
        exact absurd hnone hpresent
    · exact fun hinserts => .inl ⟨hinserts, fun heq => by cases heq⟩
  constructor
  · intro b
    simp only [hsame, h.mem b]
  · simpa only [hsame] using h.order

/-- A name that is not there is inserted behind all others. -/
theorem Ordered.insert {names : List String} (h : Ordered calls names)
    (habsent : replay calls a = none) (hnew : a ∉ names) (value : String) :
    Ordered (calls ++ [.set a value]) (names ++ [a]) := by
  have hsplit : ∀ i b, Inserts (calls ++ [.set a value]) i b ↔
      Inserts calls i b ∨ i = calls.length ∧ b = a := by
    intro i b
    rw [inserts_concat]
    constructor
    · rintro (⟨hinserts, _⟩ | ⟨hi, _, value', heq⟩)
      · exact .inl hinserts
      · exact .inr ⟨hi, (AttributeCall.set.inj heq).1.symm⟩
    · rintro (hinserts | ⟨hi, rfl⟩)
      · exact .inl ⟨hinserts, fun heq => by cases heq⟩
      · exact .inr ⟨hi, habsent, value, rfl⟩
  have hold : ∀ i, ¬ Inserts calls i a := fun i hinserts => hnew ((h.mem a).2 ⟨i, hinserts⟩)
  constructor
  · intro b
    rw [List.mem_append, List.mem_singleton, h.mem b]
    simp only [hsplit, exists_or, exists_eq_left]
  · rw [List.pairwise_append]
    refine ⟨h.order.imp_of_mem fun {b c} hb hc hlt i j hi hj => ?_, List.pairwise_singleton _ _,
      fun b hb c hc i j hi hj => ?_⟩
    · rcases (hsplit i b).1 hi with hi | ⟨_, rfl⟩
      · rcases (hsplit j c).1 hj with hj | ⟨_, rfl⟩
        · exact hlt i j hi hj
        · exact absurd hc hnew
      · exact absurd hb hnew
    · -- The new name has no other insertion, and the ones of all others are calls before this one.
      obtain rfl := List.mem_singleton.1 hc
      rcases (hsplit i b).1 hi with hi | ⟨_, rfl⟩
      · rcases (hsplit j c).1 hj with hj | ⟨rfl, _⟩
        · exact absurd hj (hold j)
        · exact hi.lt
      · exact absurd hb hnew

theorem Ordered.remove {names : List String} (h : Ordered calls names) (a : String) :
    Ordered (calls ++ [.remove a]) (names.filter (· ≠ a)) := by
  have hother : ∀ i b, Inserts (calls ++ [.remove a]) i b ↔ Inserts calls i b ∧ b ≠ a := by
    intro i b
    rw [inserts_concat]
    constructor
    · rintro (⟨hinserts, hcall⟩ | ⟨_, _, _, heq⟩)
      · exact ⟨hinserts, fun heq => hcall (congrArg _ heq.symm)⟩
      · cases heq
    · rintro ⟨hinserts, hne⟩
      exact .inl ⟨hinserts, fun heq => hne (AttributeCall.remove.inj heq).symm⟩
  constructor
  · intro b
    rw [List.mem_filter, h.mem b, decide_eq_true_iff]
    simp only [hother, exists_and_right]
  · refine (h.order.filter _).imp fun {b c} hlt i j hi hj => ?_
    exact hlt i j ((hother i b).1 hi).1 ((hother j c).1 hj).1

/-! ## Maps with a history -/

/-- A map has the values that some calls leave, and the names in the order of their insertions. -/
structure Makes (calls : List AttributeCall) (m : OrderedMap String) : Prop where
  get? : ∀ a, m.get? a = replay calls a
  ordered : Ordered calls m.keys

theorem get?_apply (m : OrderedMap String) (call : AttributeCall) (a : String) :
    (apply m call).get? a = if a = call.name then call.value? else m.get? a := by
  cases call with
  | set name value => exact m.get?_put name value a
  | remove name => exact m.get?_erase name a

theorem Makes.mem_keys_iff (h : Makes calls m) :
    a ∈ m.keys ↔ (replay calls a).isSome = true := by
  rw [← m.contains_iff, OrderedMap.contains, h.get?]

theorem Makes.apply (h : Makes calls m) (call : AttributeCall) :
    Makes (calls ++ [call]) (apply m call) := by
  refine ⟨fun a => by rw [get?_apply, replay_concat, h.get?], ?_⟩
  cases call with
  | set name value =>
    rw [AttributeCall.apply, OrderedMap.keys_put]
    split
    · next hmem =>
      refine h.ordered.overwrite (fun hnone => ?_) value
      rw [h.mem_keys_iff, hnone] at hmem
      cases hmem
    · next hnew =>
      refine h.ordered.insert ?_ hnew value
      rwa [h.mem_keys_iff, Option.not_isSome_iff_eq_none] at hnew
  | remove name =>
    rw [AttributeCall.apply, OrderedMap.keys_erase]
    exact h.ordered.remove name

theorem makes_foldl (calls : List AttributeCall) :
    Makes calls (calls.foldl AttributeCall.apply .empty) := by
  induction calls using List.reverseRecOn with
  | nil =>
    refine ⟨fun _ => rfl, fun a => ?_, .nil⟩
    constructor
    · intro hmem
      cases hmem
    · rintro ⟨i, hinserts⟩
      exact absurd hinserts.lt (Nat.not_lt_zero i)
  | append_singleton calls call ih =>
    rw [List.foldl_append]
    exact ih.apply call

/-- The calls that make a map of the empty one, without any detour. -/
def settings (m : OrderedMap String) : List AttributeCall :=
  m.entries.map fun entry => .set entry.1 entry.2

theorem foldl_settings (m : OrderedMap String) : (settings m).foldl apply .empty = m := by
  rw [settings, List.foldl_map]
  exact m.ofList_entries

/-- Calls do not touch the entries of other names. -/
theorem filter_foldl {p : String → Bool} : ∀ {calls : List AttributeCall} (m : OrderedMap String),
    (∀ call ∈ calls, p call.name = false) →
      (calls.foldl apply m).entries.filter (p ·.1) = m.entries.filter (p ·.1)
  | [], _, _ => rfl
  | call :: calls, m, hp => by
      rw [List.foldl_cons, filter_foldl _ fun call hcall => hp call (.tail _ hcall)]
      have hcall := hp call (.head _)
      cases call with
      | set name value => exact m.filter_put hcall value
      | remove name => exact m.filter_erase hcall

end AttributeCall

/-! ## Calls on a node -/

namespace Node

variable {node : Node η}

/-- An element with other attributes; a text has none. -/
def withAttributes (node : Node η) (attributes : OrderedMap String) : Node η :=
  match node.content with
  | .element tag _ value => { node with content := .element tag attributes value }
  | .text _ => node

theorem attributes_withAttributes (h : node.isElement = true) (attributes : OrderedMap String) :
    (node.withAttributes attributes).attributes = attributes := by
  unfold isElement at h
  unfold withAttributes
  split
  · rfl
  · next hcontent =>
    rw [hcontent] at h
    cases h

@[simp] theorem isElement_withAttributes (node : Node η) (attributes : OrderedMap String) :
    (node.withAttributes attributes).isElement = node.isElement := by
  obtain ⟨content, _⟩ := node
  cases content <;> rfl

theorem withAttributes_attributes (node : Node η) : node.withAttributes node.attributes = node := by
  obtain ⟨content, _⟩ := node
  cases content <;> rfl

theorem withAttributes_withAttributes (node : Node η) (attributes attributes' : OrderedMap String) :
    (node.withAttributes attributes).withAttributes attributes' = node.withAttributes attributes' := by
  obtain ⟨content, _⟩ := node
  cases content <;> rfl

/-- The attributes of a node are what some calls made, one after another, from nothing. -/
structure Replays (node : Node η) (calls : List AttributeCall) : Prop where
  nodup : node.attributes.keys.Nodup
  attribute? : ∀ a, node.attribute? a = AttributeCall.replay calls a
  present : ∀ a, a ∈ node.attributes.keys ↔ (node.attribute? a).isSome = true
  ordered : AttributeCall.Ordered calls node.attributes.keys

theorem replays_of_foldl {calls : List AttributeCall}
    (h : node.attributes = calls.foldl AttributeCall.apply .empty) : node.Replays calls := by
  have hmakes := AttributeCall.makes_foldl calls
  rw [← h] at hmakes
  exact ⟨node.attributes.distinct, hmakes.get?, fun a => (node.attributes.contains_iff a).symm,
    hmakes.ordered⟩

end Node

/-- The call, made on a node. -/
def AttributeCall.edit (n : Ref .node) : AttributeCall → Edit κ
  | .set name value => .setAttribute n name value
  | .remove name => .removeAttribute n name

/-- The call that an edit is for a node, if it is one. -/
def Edit.attributeCall? (n : Ref .node) : Edit κ → Option AttributeCall
  | .setAttribute m name value => if m = n then some (.set name value) else none
  | .removeAttribute m name => if m = n then some (.remove name) else none
  | _ => none

theorem Edit.eq_of_attributeCall? {e : Edit κ} {n : Ref .node} {call : AttributeCall}
    (h : e.attributeCall? n = some call) : e = call.edit n := by
  cases e with
  | setAttribute m name value | removeAttribute m name =>
    simp only [attributeCall?, Option.ite_none_right_eq_some, Option.some.injEq] at h
    obtain ⟨rfl, rfl⟩ := h
    rfl
  | _ => cases h

namespace Dom

variable {d : Dom (Handler κ)} {n : Ref .node}

/-- The calls are made on a node, one right after another. -/
def call (d : Dom (Handler κ)) (n : Ref .node) (calls : List AttributeCall) : Dom (Handler κ) :=
  calls.foldl (fun d call => Config.edit d (call.edit n)) d

/-- Of one node the attributes with some of the names changed, and nothing else did. -/
structure Touches (d d' : Dom η) (n : Ref .node) (names : List String) : Prop where
  size : d'.nodes.size = d.nodes.size
  others : ∀ x, x ≠ n → d'.node x = d.node x
  node : ∃ attributes, d'.node n = (d.node n).withAttributes attributes ∧
    attributes.entries.filter (·.1 ∉ names) = (d.node n).attributes.entries.filter (·.1 ∉ names)

theorem edit_eq_modify (d : Dom (Handler κ)) (n : Ref .node) (call : AttributeCall) :
    Config.edit d (call.edit n) =
      d.modify n fun node => node.withAttributes (call.apply node.attributes) := by
  have hmodify : ∀ f, d.modifyAttributes n f =
      d.modify n fun node => node.withAttributes (f node.attributes) := by
    intro f
    rw [modifyAttributes]
    congr 1
    funext node
    obtain ⟨content, _⟩ := node
    cases content <;> rfl
  cases call with
  | set name value => exact hmodify _
  | remove name => exact hmodify _

/-- Calls change the attributes of an element one after another. -/
theorem node_call (calls : List AttributeCall) {d : Dom (Handler κ)}
    (hn : (d.node n).isElement = true) (x : Ref .node) :
    (d.call n calls).node x =
      if x = n then (d.node n).withAttributes (calls.foldl AttributeCall.apply (d.node n).attributes)
      else d.node x := by
  induction calls generalizing d with
  | nil =>
    rw [call, List.foldl_nil, List.foldl_nil, Node.withAttributes_attributes]
    split
    · next heq => rw [heq]
    · rfl
  | cons call calls ih =>
    have hnode : (Config.edit d (call.edit n)).node n =
        (d.node n).withAttributes (call.apply (d.node n).attributes) := by
      rw [edit_eq_modify, node_modify_self]
    rw [Dom.call, List.foldl_cons, ← Dom.call, ih (by rw [hnode, Node.isElement_withAttributes, hn]), hnode,
      Node.attributes_withAttributes hn, Node.withAttributes_withAttributes, List.foldl_cons]
    split
    · rfl
    · next hx => rw [edit_eq_modify, node_modify_of_ne _ hx]

theorem size_call (calls : List AttributeCall) {d : Dom (Handler κ)}
    (hn : n.index < d.nodes.size) : (d.call n calls).nodes.size = d.nodes.size := by
  induction calls generalizing d with
  | nil => rfl
  | cons call calls ih =>
    have hsize : (Config.edit d (call.edit n)).nodes.size = d.nodes.size := by
      rw [edit_eq_modify]
      exact Table.size_set_of_lt hn _
    rw [Dom.call, List.foldl_cons, ← Dom.call, ih (hsize ▸ hn), hsize]

theorem touches_call (hn : (d.node n).isElement = true) (calls : List AttributeCall) :
    d.Touches (d.call n calls) n (calls.map AttributeCall.name) where
  size := size_call calls (lt_size_of_isElement hn)
  others x hx := by rw [node_call calls hn, if_neg hx]
  node := by
    refine ⟨_, (node_call calls hn n).trans (if_pos rfl), ?_⟩
    refine AttributeCall.filter_foldl (p := (· ∉ calls.map AttributeCall.name)) _ fun call hcall => ?_
    simpa using ⟨call, hcall, rfl⟩

theorem replays_call (hn : (d.node n).isElement = true) (calls : List AttributeCall) :
    ((d.call n calls).node n).Replays (AttributeCall.settings (d.node n).attributes ++ calls) := by
  apply Node.replays_of_foldl
  rw [node_call calls hn, if_pos rfl, Node.attributes_withAttributes hn, List.foldl_append,
    AttributeCall.foldl_settings]

/-! ## Other edits -/

theorem attributes_edit_of_none {e : Edit κ} (he : e.attributeCall? n = none) :
    ((Config.edit d e).node n).attributes = (d.node n).attributes := by
  cases e with
  | append p c => exact (d.relinked_append p c n).part Node.attributes fun _ _ _ => rfl
  | detach m => exact (d.relinked_detach m n).part Node.attributes fun _ _ _ => rfl
  | setText m s =>
    exact d.part_setText Node.attributes (fun _ _ _ => rfl)
      (fun ha _ => (Node.attributes_of_text ha).symm) m s n
  | setValue m s => exact ((d.grows_setValue m s).node n).attributes
  | setAttribute m name value | removeAttribute m name =>
    have hne : n ≠ m := by
      rintro rfl
      simp [Edit.attributeCall?] at he
    exact congrArg Node.attributes (d.node_modify_of_ne hne _)
  | listen m kind callback => exact ((d.grows_listen m kind _).node n).attributes
  | retain m s => exact ((d.grows_retain m s).node n).attributes

end Dom

/-! ## Calls in a run -/

namespace Config

variable {client : Client κ σ} {c : Config κ σ} {n : Ref .node} {call : AttributeCall} {k : Nat}

variable (client) in
/-- The call on a node that the next step carries out. -/
def attributeCall? (c : Config κ σ) (n : Ref .node) : Option AttributeCall :=
  match c.command? with
  | some (.edit e) => if c.lives client (.node n) then e.attributeCall? n else none
  | _ => none

variable (client) in
/-- The calls on a node in the first steps of a run. -/
def attributeCalls (c : Config κ σ) (n : Ref .node) (k : Nat) : List AttributeCall :=
  (List.range k).filterMap fun l => (c.after client l).attributeCall? client n

theorem attributeCalls_succ (n : Ref .node) (k : Nat) :
    c.attributeCalls client n (k + 1) =
      c.attributeCalls client n k ++ ((c.after client k).attributeCall? client n).toList :=
  filterMap_range_succ _ k

/-- A call is carried out on the node alone, and at once. -/
theorem world_of_attributeCall? (h : c.attributeCall? client n = some call) :
    (step client c).world = c.world.modifyDom (·.call n [call]) := by
  unfold attributeCall? at h
  split at h
  · next e hcommand =>
    split at h
    · next hlives =>
      obtain rfl := Edit.eq_of_attributeCall? h
      obtain ⟨k, below, hstack⟩ := stack_of_command? hcommand
      rw [world_of_edit hstack (by cases call <;> simpa [AttributeCall.edit, Command.editSubjects])]
      rfl
    · cases h
  · cases h

theorem attributes_step_of_none (hs : c.world.dom.Sound) (hn : (c.world.dom.node n).isElement = true)
    (h : c.attributeCall? client n = none) :
    ((step client c).world.dom.node n).attributes = (c.world.dom.node n).attributes := by
  rcases step_world client c with hworld | ⟨f, new, hstack, effect⟩
  · rw [hworld]
  rcases effect.dom_cases hs with ⟨content, _, hdom⟩ | ⟨e, k, rfl, hdom⟩ | decorates
  · rw [hdom]
    exact congrArg Node.attributes (Table.get_push_of_lt _ _ (Dom.lt_size_of_isElement hn))
  · cases hcall : e.attributeCall? n with
    | none =>
      rw [hdom]
      exact Dom.attributes_edit_of_none hcall
    | some call =>
      obtain rfl := Edit.eq_of_attributeCall? hcall
      have hcommand : c.command? = some (.edit (call.edit n)) := by rw [command?, hstack]
      have hgone : c.lives client (.node n) = false := by
        simpa [attributeCall?, hcommand, hcall] using h
      rw [step_dangling hstack (by cases call <;> exact .head _) hgone]
      rfl
  · exact (decorates.grows.node n).attributes

/-- A step does to the attributes of an element what the call does that it carries out. -/
theorem attributes_step (hs : c.world.dom.Sound) (hn : (c.world.dom.node n).isElement = true) :
    ((step client c).world.dom.node n).attributes =
      (c.attributeCall? client n).toList.foldl AttributeCall.apply (c.world.dom.node n).attributes := by
  cases h : c.attributeCall? client n with
  | none => exact attributes_step_of_none hs hn h
  | some call =>
    rw [world_of_attributeCall? h]
    have hnode := (Dom.node_call [call] hn n).trans (if_pos rfl)
    exact (congrArg Node.attributes hnode).trans (Node.attributes_withAttributes hn _)

theorem attributes_after (h : c.Reachable client) (hn : (c.world.dom.node n).isElement = true)
    (k : Nat) : ((c.after client k).world.dom.node n).attributes =
      (c.attributeCalls client n k).foldl AttributeCall.apply (c.world.dom.node n).attributes := by
  induction k with
  | zero => rfl
  | succ k ih =>
    have helement : ((c.after client k).world.dom.node n).isElement = true := by
      rw [(h.retains_after k).isElement n (Dom.lt_size_of_isElement hn), hn]
    rw [after_succ, attributes_step (h.after k).sound.dom helement, ih, attributeCalls_succ,
      List.foldl_append]

/--
The attributes of an element are an ordered map. After calls that set and remove some of them each name is
there once, the values are those of the finite map that replays the calls, and the names stand in the order
of their last insertions; entries with other names and other nodes are what they were. A call that the
client makes is carried out like this, and nothing else that happens in a run changes the attributes.
-/
theorem attributes_replayed (h : c.Reachable client) (hn : (c.world.dom.node n).isElement = true) :
    (∀ calls, ((c.world.dom.call n calls).node n).Replays
        (AttributeCall.settings (c.world.dom.node n).attributes ++ calls) ∧
      c.world.dom.Touches (c.world.dom.call n calls) n (calls.map AttributeCall.name)) ∧
    (∀ call, c.attributeCall? client n = some call →
      (step client c).world = c.world.modifyDom (·.call n [call])) ∧
    ∀ k, ((c.after client k).world.dom.node n).Replays
      (AttributeCall.settings (c.world.dom.node n).attributes ++ c.attributeCalls client n k) := by
  refine ⟨fun calls => ⟨Dom.replays_call hn calls, Dom.touches_call hn calls⟩,
    fun call hcall => world_of_attributeCall? hcall, fun k => Node.replays_of_foldl ?_⟩
  rw [attributes_after h hn, List.foldl_append, AttributeCall.foldl_settings]

/--
An element that is given two attributes. The first is set once more, in its place; then it is removed and
set again, behind the second.
-/
def labelling : Config Unit (List Entity) where
  world := {}
  state := []
  stack := [.client (.perform (.newElement "p") fun x =>
    .store [.node x] (
      .perform (.edit (.setAttribute x "b" "1")) fun _ =>
        .perform (.edit (.setAttribute x "a" "2")) fun _ =>
          .perform (.edit (.setAttribute x "b" "3")) fun _ =>
            .perform (.edit (.removeAttribute x "b")) fun _ =>
              .perform (.edit (.setAttribute x "b" "4")) fun _ => .done none))]

theorem labelling_replayed :
    let calls : List AttributeCall :=
      [.set "b" "1", .set "a" "2", .set "b" "3", .remove "b", .set "b" "4"]
    let c := labelling.after idle 2
    ((c.world.dom.call ⟨0⟩ calls).node ⟨0⟩).Replays calls ∧
      (step idle c).world = c.world.modifyDom (·.call ⟨0⟩ [.set "b" "1"]) ∧
        ((c.after idle 5).world.dom.node ⟨0⟩).Replays calls ∧
          ((c.after idle 3).world.dom.node ⟨0⟩).attributes.entries = [("b", "3"), ("a", "2")] ∧
            ((c.after idle 5).world.dom.node ⟨0⟩).attributes.entries = [("a", "2"), ("b", "4")] := by
  have hreachable : (labelling.after idle 2).Reachable idle := ⟨labelling, 2, rfl, rfl⟩
  have hsettings : AttributeCall.settings
      ((labelling.after idle 2).world.dom.node ⟨0⟩).attributes = [] := by decide +kernel
  have hcalls : (labelling.after idle 2).attributeCalls idle ⟨0⟩ 5 =
      [.set "b" "1", .set "a" "2", .set "b" "3", .remove "b", .set "b" "4"] := by decide +kernel
  obtain ⟨hsequence, hstep, hrun⟩ :=
    attributes_replayed (n := ⟨0⟩) hreachable (by decide +kernel)
  have hsequence := (hsequence
    [.set "b" "1", .set "a" "2", .set "b" "3", .remove "b", .set "b" "4"]).1
  have hrun := hrun 5
  rw [hsettings, List.nil_append] at hsequence hrun
  rw [hcalls] at hrun
  exact ⟨hsequence, hstep _ (by decide +kernel), hrun, by decide +kernel, by decide +kernel⟩

end Config

end ReactiveView
