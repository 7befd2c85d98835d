import ReactiveView.Proofs.Heap.Walk

/-!
# Closure of the reactive part of a heap

Conversion makes everything reachable from a value reactive, and each way of changing a heap keeps
everything reachable from a root reactive: a write converts what it attaches, a definition converts
what it attaches but for the object it writes to, and a new object is not reachable yet.
-/

namespace ReactiveView

namespace Heap

/-! ## What every operation keeps -/

/-- Registries stay with their properties, and registrations are only added. -/
structure Grows (h h' : Heap) : Prop where
  registry : ∀ o key r, h.registry? o key = some r → h'.registry? o key = some r
  subscribers : ∀ r, h.subscribers r <+: h'.subscribers r
  size : h.objects.size ≤ h'.objects.size
  owned : h.Owned → h'.Owned

theorem Grows.trans {h₁ h₂ h₃ : Heap} (h₁₂ : h₁.Grows h₂) (h₂₃ : h₂.Grows h₃) : h₁.Grows h₃ where
  registry o key r hr := h₂₃.registry o key r (h₁₂.registry o key r hr)
  subscribers r := (h₁₂.subscribers r).trans (h₂₃.subscribers r)
  size := Nat.le_trans h₁₂.size h₂₃.size
  owned := h₂₃.owned ∘ h₁₂.owned

theorem Keeps.grows {h h' : Heap} (keeps : h.Keeps h') : h.Grows h' :=
  ⟨keeps.registry, keeps.subscribers, keeps.size, keeps.owned⟩

theorem grows_assign (h : Heap) (o : Ref .object) (key : String) (value : Value) :
    h.Grows (h.assign o key value) :=
  ⟨fun _ _ _ hr => by simpa using hr, fun _ => List.prefix_refl _, h.size_objects_assign o key value,
    fun owned => owned.of_registry?_eq (fun _ _ => by simp) (Nat.le_refl _)⟩

theorem grows_convertProperty (h : Heap) (o : Ref .object) (key : String) (value : Value) :
    h.Grows (h.convertProperty o key value) :=
  ⟨fun _ _ _ hr => registry?_convertProperty_of_registry? hr o key value, fun r => by simp,
    h.size_objects_convertProperty o key value, fun owned => owned.convertProperty o key value⟩

/-! ## Writes -/

theorem write_eq_refused_iff {h : Heap} {o : Ref .object} {key : String} {value : Value} :
    h.write o key value = .refused ↔
      ∃ current, h.peek o key = some current ∧ current.strictEq value = true := by
  unfold write peek
  cases h.property? o key with
  | none => simp
  | some p =>
    cases hgate : p.value.strictEq value with
    | true => simp [hgate]
    | false => cases hr : p.registry <;> simp [hgate, hr]

/-- A quiet write assigns a property that is not reactive. -/
theorem write_eq_quiet {h h' : Heap} {o : Ref .object} {key : String} {value : Value}
    (hw : h.write o key value = .quiet h') :
    h' = h.assign o key value ∧ h.registry? o key = none := by
  unfold write at hw
  cases hp : h.property? o key with
  | none =>
    obtain rfl : h.assign o key value = h' := by simpa [hp] using hw
    exact ⟨rfl, by simp [Heap.registry?, hp]⟩
  | some p =>
    cases hgate : p.value.strictEq value with
    | true => simp [hp, hgate] at hw
    | false =>
      cases hr : p.registry with
      | none =>
        obtain rfl : h.assign o key value = h' := by simpa [hp, hgate, hr] using hw
        exact ⟨rfl, by simp [Heap.registry?, hp, hr]⟩
      | some r => simp [hp, hgate, hr] at hw

/-- An announced write assigns a reactive property whose value differs, and converts the new one. -/
theorem write_eq_announced {h h' : Heap} {o : Ref .object} {key : String} {value : Value}
    {r : Ref .registry} (hw : h.write o key value = .announced h' r) :
    h' = (h.assign o key value).convert value ∧ h.registry? o key = some r ∧
      ∃ current, h.peek o key = some current ∧ current.strictEq value = false := by
  unfold write at hw
  cases hp : h.property? o key with
  | none => simp [hp] at hw
  | some p =>
    cases hgate : p.value.strictEq value with
    | true => simp [hp, hgate] at hw
    | false =>
      cases hr : p.registry with
      | none => simp [hp, hgate, hr] at hw
      | some r' =>
        obtain ⟨rfl, rfl⟩ : (h.assign o key value).convert value = h' ∧ r' = r := by
          simpa [hp, hgate, hr] using hw
        exact ⟨rfl, by simp [Heap.registry?, hp, hr], p.value, by simp [peek, hp], hgate⟩

/-- A write that changes the heap, whether anybody is told or not. -/
def Written (h : Heap) (o : Ref .object) (key : String) (value : Value) (h' : Heap) : Prop :=
  h.write o key value = .quiet h' ∨ ∃ r, h.write o key value = .announced h' r

namespace Written

variable {h h' : Heap} {o : Ref .object} {key : String} {value : Value}

theorem keeps_assign (written : h.Written o key value h') :
    (h.assign o key value).Keeps h' := by
  rcases written with hw | ⟨r, hw⟩
  · rw [(write_eq_quiet hw).1]
    exact .refl _
  · rw [(write_eq_announced hw).1]
    exact keeps_convert _ value

theorem grows (written : h.Written o key value h') : h.Grows h' :=
  (h.grows_assign o key value).trans written.keeps_assign.grows

theorem peek (written : h.Written o key value h') (o' : Ref .object) (key' : String) :
    h'.peek o' key' = if o' = o ∧ key' = key then some value else h.peek o' key' := by
  rw [written.keeps_assign.peek, peek_assign]

/-- Nobody is registered by a write. -/
theorem subscribers (written : h.Written o key value h') (r : Ref .registry) :
    h'.subscribers r = h.subscribers r := by
  rcases written with hw | ⟨r', hw⟩
  · rw [(write_eq_quiet hw).1, subscribers_assign]
  · rw [(write_eq_announced hw).1, (promotes_convert _ _).subscribers, subscribers_assign]

end Written

/-- A property accepts every value that is not strictly equal to its own. -/
def accepts (h : Heap) (o : Ref .object) (key : String) (value : Value) : Bool :=
  match h.peek o key with
  | some current => !current.strictEq value
  | none => true

theorem write_eq_refused_iff_accepts {h : Heap} {o : Ref .object} {key : String} {value : Value} :
    h.write o key value = .refused ↔ h.accepts o key value = false := by
  rw [write_eq_refused_iff, accepts]
  cases h.peek o key <;> simp

/-- A reactive property announces what it accepts. -/
theorem write_of_accepts {h : Heap} {o : Ref .object} {key : String} {value : Value}
    {r : Ref .registry} (haccepts : h.accepts o key value = true)
    (hr : h.registry? o key = some r) :
    h.write o key value = .announced ((h.assign o key value).convert value) r := by
  cases hwrite : h.write o key value with
  | refused =>
    rw [write_eq_refused_iff_accepts, haccepts] at hwrite
    cases hwrite
  | quiet h' =>
    rw [(write_eq_quiet hwrite).2] at hr
    cases hr
  | announced h' r' =>
    obtain ⟨rfl, hr', _⟩ := write_eq_announced hwrite
    rw [hr] at hr'
    rw [Option.some.inj hr']

theorem accepts_of_written {h h' : Heap} {o : Ref .object} {key : String} {value : Value}
    (written : h.Written o key value h') : h.accepts o key value = true := by
  by_contra hrefused
  have hwrite := write_eq_refused_iff_accepts.2 (Bool.eq_false_iff.2 hrefused)
  rcases written with hw | ⟨r, hw⟩
  · cases hwrite.symm.trans hw
  · cases hwrite.symm.trans hw

theorem Closed.assign_of_not_reaches {h : Heap} {root : Value} {o : Ref .object}
    (hc : h.Closed root) (ho : ¬ h.Reaches root o) (key : String) (value : Value) :
    (h.assign o key value).Closed root := by
  intro x hx
  have hreach : h.Reaches root x := by
    induction hx with
    | start hroot => exact .start hroot
    | @step x y _ hstep ih =>
        obtain ⟨key', hkey'⟩ := hstep
        have hne : x ≠ o := fun heq => ho (heq ▸ ih)
        rw [peek_assign, if_neg fun heq => hne heq.1] at hkey'
        exact ih.step ⟨key', hkey'⟩
  have hne : x ≠ o := fun heq => ho (heq ▸ hreach)
  intro key' hkey'
  rw [property?_assign, if_neg fun heq => hne heq.1] at hkey'
  simpa [isReactive] using hc x hreach key' hkey'

theorem Closed.assign_convert {h : Heap} {root : Value} {o : Ref .object} {key : String}
    {r : Ref .registry} (hc : h.Closed root) (hr : h.registry? o key = some r) (value : Value) :
    ((h.assign o key value).convert value).Closed root := by
  have hkeeps := (h.assign o key value).keeps_convert value
  intro x hx
  rw [hkeeps.reaches_iff] at hx
  -- What the new value brings in is converted; everything else was reachable before.
  have hsplit : h.Reaches root x ∨ (h.assign o key value).Reaches value x := by
    induction hx with
    | start hroot => exact .inl (.start hroot)
    | @step x y _ hstep ih =>
        rcases ih with ih | ih
        · obtain ⟨key', hkey'⟩ := hstep
          rw [peek_assign] at hkey'
          split at hkey'
          · exact .inr (.start (by simpa using hkey'))
          · exact .inl (ih.step ⟨key', hkey'⟩)
        · exact .inr (ih.step hstep)
  rcases hsplit with hold | hnew
  · apply hkeeps.converted
    intro key' hkey'
    rw [property?_assign] at hkey'
    rw [isReactive, registry?_assign, ← isReactive]
    split at hkey'
    · next heq =>
      rw [heq.1, heq.2]
      exact isReactive_iff.2 ⟨r, hr⟩
    · exact hc x hold key' hkey'
  · rw [← hkeeps.reaches_iff] at hnew
    exact closed_convert _ value x hnew

/-- A write keeps the closure, unless it adds a plain property to something reachable. -/
theorem Closed.written {h h' : Heap} {root : Value} {o : Ref .object} {key : String} {value : Value}
    (hc : h.Closed root) (written : h.Written o key value h')
    (hok : (h.property? o key).isSome ∨ ¬ h.Reaches root o) : h'.Closed root := by
  rcases written with hw | ⟨r, hw⟩
  · obtain ⟨rfl, hplain⟩ := write_eq_quiet hw
    have hnot : ¬ h.Reaches root o := by
      rcases hok with hsome | hnot
      · intro hreach
        obtain ⟨r, hr⟩ := isReactive_iff.1 (hc o hreach key hsome)
        simp [hplain] at hr
      · exact hnot
    exact hc.assign_of_not_reaches hnot key value
  · obtain ⟨rfl, hr, _⟩ := write_eq_announced hw
    exact hc.assign_convert hr value

/-! ## Definitions -/

theorem peek_define (h : Heap) (o : Ref .object) (key : String) (value : Value) (o' : Ref .object)
    (key' : String) :
    (h.define o key value).peek o' key' =
      if o' = o ∧ key' = key then some value else h.peek o' key' := by
  obtain ⟨w, hw, heq⟩ := h.visits_define o key value
  rw [heq, peek_convertProperty, hw.extends.heap.peek]

/-- A defined property is reactive. -/
theorem isReactive_define_self (h : Heap) (o : Ref .object) (key : String) (value : Value) :
    (h.define o key value).isReactive o key = true := by
  obtain ⟨w, _, heq⟩ := h.visits_define o key value
  rw [heq, isReactive, registry?_convertProperty, if_pos ⟨rfl, rfl⟩]
  rfl

theorem grows_define (h : Heap) (o : Ref .object) (key : String) (value : Value) :
    h.Grows (h.define o key value) := by
  obtain ⟨w, hw, heq⟩ := h.visits_define o key value
  rw [heq]
  exact hw.extends.heap.keeps.grows.trans (w.heap.grows_convertProperty o key value)

/--
A definition keeps the closure. It does not enter the object it writes to, but if that object is
reachable then so is, and was, everything that it holds.
-/
theorem Closed.define {h : Heap} {root : Value} (hc : h.Closed root) (o : Ref .object)
    (key : String) (value : Value) : (h.define o key value).Closed root := by
  obtain ⟨w, hw, heq⟩ := h.visits_define o key value
  have hkeeps := hw.extends.heap.keeps
  obtain ⟨hdone, hstart⟩ := hw.done (fun x => x = o) (by simp [Walk.DoneBut])
  -- What is reachable afterwards was reachable before, or was entered and is held through the object
  -- that is written to, which is reachable then.
  have hsplit : ∀ {x}, (h.define o key value).Reaches root x →
      h.Reaches root x ∨ h.Reaches root o ∧ x ∈ w.entered := by
    intro x hx
    induction hx with
    | start hroot => exact .inl (.start hroot)
    | @step x y _ hstep ih =>
      obtain ⟨key', hkey'⟩ := hstep
      rw [peek_define] at hkey'
      split at hkey'
      · next hsame =>
        obtain rfl : value = .object y := by simpa using hkey'
        rcases ih with ih | ⟨ho, _⟩
        · exact .inr ⟨hsame.1 ▸ ih, hstart y rfl⟩
        · exact .inr ⟨ho, hstart y rfl⟩
      · rcases ih with ih | ⟨ho, hentered⟩
        · exact .inl (ih.step ⟨key', hkey'⟩)
        · rcases hdone x hentered with rfl | done
          · exact .inl (ho.step ⟨key', hkey'⟩)
          · exact .inr ⟨ho, done.2 y ((hkeeps.holds_iff x y).2 ⟨key', hkey'⟩)⟩
  intro x hx key' hkey'
  have hconverted : w.heap.Converted x := by
    rcases hsplit hx with hold | ⟨ho, hentered⟩
    · exact hkeeps.converted (hc x hold)
    · rcases hdone x hentered with rfl | done
      · exact hkeeps.converted (hc x ho)
      · exact done.1
  by_cases hsame : x = o ∧ key' = key
  · rw [hsame.1, hsame.2]
    exact h.isReactive_define_self o key value
  · rw [heq, property?_convertProperty_of_ne _ _ hsame] at hkey'
    rw [heq, isReactive, registry?_convertProperty, if_neg hsame, ← isReactive]
    exact hconverted key' hkey'

/-! ## New objects -/

/-- The object that the value is, if it is one, exists. -/
def Knows (h : Heap) (value : Value) : Prop :=
  ∀ o, value = .object o → o.index < h.objects.size

/-- Every value of a property is an object that exists, or no object. -/
def Sound (h : Heap) : Prop :=
  ∀ o key value, h.peek o key = some value → h.Knows value

theorem Knows.mono {h h' : Heap} {value : Value} (hk : h.Knows value)
    (hle : h.objects.size ≤ h'.objects.size) : h'.Knows value :=
  fun o ho => Nat.lt_of_lt_of_le (hk o ho) hle

theorem Keeps.sound {h h' : Heap} (keeps : h.Keeps h') (hs : h.Sound) : h'.Sound := by
  intro o key value hv
  rw [keeps.peek] at hv
  exact (hs o key value hv).mono keeps.size

theorem Sound.assign {h : Heap} (hs : h.Sound) {value : Value} (hk : h.Knows value)
    (o : Ref .object) (key : String) : (h.assign o key value).Sound := by
  intro o' key' value' hv
  rw [peek_assign] at hv
  split at hv
  · obtain rfl : value = value' := by simpa using hv
    exact hk.mono (h.size_objects_assign o key value)
  · exact (hs o' key' value' hv).mono (h.size_objects_assign o key value)

theorem Sound.written {h h' : Heap} (hs : h.Sound) {o : Ref .object} {key : String} {value : Value}
    (hk : h.Knows value) (written : h.Written o key value h') : h'.Sound :=
  written.keeps_assign.sound (hs.assign hk o key)

theorem Sound.define {h : Heap} (hs : h.Sound) {value : Value} (hk : h.Knows value)
    (o : Ref .object) (key : String) : (h.define o key value).Sound := by
  have hsize := (h.grows_define o key value).size
  intro o' key' value' hv
  rw [peek_define] at hv
  split at hv
  · obtain rfl : value = value' := by simpa using hv
    exact hk.mono hsize
  · exact (hs o' key' value' hv).mono hsize

/-- Objects with plain properties are only added: all that was there is untouched. -/
structure Allocates (h h' : Heap) : Prop where
  property : ∀ o, o.index < h.objects.size → ∀ key, h'.property? o key = h.property? o key
  plain : ∀ o, h.objects.size ≤ o.index → ∀ key, h'.registry? o key = none
  registries : h'.registries = h.registries
  size : h.objects.size ≤ h'.objects.size

namespace Allocates

theorem of_objects {h h' : Heap} (objects : h'.objects = h.objects)
    (registries : h'.registries = h.registries) : h.Allocates h' where
  property o _ key := by rw [property?, properties, objects, ← properties, ← property?]
  plain o ho key := by
    rw [Heap.registry?, property?, properties, objects, ← properties, properties_of_size_le ho]
    rfl
  registries := registries
  size := Nat.le_of_eq (congrArg Table.size objects.symm)

theorem registry {h h' : Heap} (allocates : h.Allocates h') {o : Ref .object}
    (ho : o.index < h.objects.size) (key : String) : h'.registry? o key = h.registry? o key := by
  rw [Heap.registry?, allocates.property o ho, ← Heap.registry?]

theorem trans {h₁ h₂ h₃ : Heap} (h₁₂ : h₁.Allocates h₂) (h₂₃ : h₂.Allocates h₃) :
    h₁.Allocates h₃ where
  property o ho key :=
    (h₂₃.property o (Nat.lt_of_lt_of_le ho h₁₂.size) key).trans (h₁₂.property o ho key)
  plain o ho key := by
    by_cases hlt : o.index < h₂.objects.size
    · rw [h₂₃.registry hlt]
      exact h₁₂.plain o ho key
    · exact h₂₃.plain o (Nat.le_of_not_lt hlt) key
  registries := h₂₃.registries.trans h₁₂.registries
  size := Nat.le_trans h₁₂.size h₂₃.size

theorem subscribers {h h' : Heap} (allocates : h.Allocates h') (r : Ref .registry) :
    h'.subscribers r = h.subscribers r := by
  rw [Heap.subscribers, allocates.registries, Heap.subscribers]

theorem grows {h h' : Heap} (allocates : h.Allocates h') : h.Grows h' where
  registry o key r hr := by
    obtain ⟨p, hp, _⟩ := registry?_eq_some.1 hr
    rwa [allocates.registry (lt_size_of_property? hp)]
  subscribers r := allocates.subscribers r ▸ List.prefix_refl _
  size := allocates.size
  owned owned := by
    apply owned.of_registry?_eq _ (Nat.le_of_eq (congrArg Table.size allocates.registries.symm))
    intro o key
    by_cases ho : o.index < h.objects.size
    · exact allocates.registry ho key
    · rw [allocates.plain o (Nat.le_of_not_lt ho), Heap.registry?, property?,
        properties_of_size_le (Nat.le_of_not_lt ho)]
      rfl

theorem peek {h h' : Heap} (allocates : h.Allocates h') {o : Ref .object}
    (ho : o.index < h.objects.size) (key : String) : h'.peek o key = h.peek o key := by
  rw [Heap.peek, allocates.property o ho, ← Heap.peek]

/-- Nothing new is reachable yet. -/
theorem closed {h h' : Heap} (allocates : h.Allocates h') {root : Value} (hs : h.Sound)
    (hk : h.Knows root) (hc : h.Closed root) : h'.Closed root := by
  intro x hx
  have hold : h.Reaches root x ∧ x.index < h.objects.size := by
    induction hx with
    | start hroot => exact ⟨.start hroot, hk _ hroot⟩
    | @step x y _ hstep ih =>
        obtain ⟨key, hkey⟩ := hstep
        rw [allocates.peek ih.2] at hkey
        exact ⟨ih.1.step ⟨key, hkey⟩, hs x key _ hkey y rfl⟩
  intro key hkey
  rw [allocates.property x hold.2] at hkey
  rw [isReactive, registry?, allocates.property x hold.2, ← registry?, ← isReactive]
  exact hc x hold.1 key hkey

end Allocates

theorem allocates_newObject (h : Heap) (entries : List (String × Value)) :
    h.Allocates (h.newObject entries).1 where
  property o ho key := by
    have hne : o ≠ h.objects.next := by
      rintro rfl
      exact Nat.lt_irrefl _ ho
    rw [property?, properties_newObject, if_neg hne, ← property?]
  plain o ho key := by
    rw [Heap.registry?, property?, properties_newObject]
    split
    · cases hp : (OrderedMap.ofList _).get? key with
      | none => rfl
      | some p =>
        obtain ⟨entry, _, heq⟩ := List.mem_map.1 (mem_of_get?_ofList hp)
        obtain ⟨_, rfl⟩ := Prod.mk.inj heq
        rfl
    · rw [properties_of_size_le ho]
      rfl
  registries := rfl
  size := by simp [newObject]

theorem Sound.newObject {h : Heap} (hs : h.Sound) {entries : List (String × Value)}
    (hk : ∀ entry ∈ entries, h.Knows entry.2) : (h.newObject entries).1.Sound := by
  have hsize := (h.allocates_newObject entries).size
  intro o key value hv
  by_cases ho : o = h.objects.next
  · obtain ⟨p, hp, rfl⟩ := peek_eq_some.1 hv
    rw [property?, properties_newObject, if_pos ho] at hp
    have hmem := mem_of_get?_ofList hp
    obtain ⟨⟨key', value'⟩, hentry, heq⟩ := List.mem_map.1 hmem
    obtain ⟨rfl, rfl⟩ : key' = key ∧ ({ value := value' } : Property) = p := by simpa using heq
    exact (hk _ hentry).mono hsize
  · rw [peek, property?, properties_newObject, if_neg ho, ← property?, ← peek] at hv
    exact (hs o key value hv).mono hsize

/-! ## Documents -/

end Heap

namespace Json

theorem mem_insertMember {α : Type} {name : String} {value : α} {member : String × α} :
    ∀ {members : List (String × α)}, member ∈ insertMember name value members →
      member = (name, value) ∨ member ∈ members
  | [], h => by simpa [insertMember] using h
  | (other, v) :: rest, h => by
      unfold insertMember at h
      split at h
      · simpa using h
      · split at h
        · exact (List.mem_cons.1 h).imp_right (.tail _)
        · rcases List.mem_cons.1 h with h | h
          · exact .inr (h ▸ .head _)
          · exact (mem_insertMember h).imp_right (.tail _)

/-- Sorting makes up no members. -/
theorem mem_sorted {α : Type} {member : String × α} {members : List (String × α)}
    (h : member ∈ sorted members) : member ∈ members := by
  have hfold : ∀ (members acc : List (String × α)),
      member ∈ members.foldl (fun acc m => insertMember m.1 m.2 acc) acc →
        member ∈ members ∨ member ∈ acc := by
    intro members
    induction members with
    | nil => exact fun acc h => .inr h
    | cons m members ih =>
      intro acc h
      rcases ih _ h with h | h
      · exact .inl (.tail _ h)
      · rcases mem_insertMember h with rfl | h
        · exact .inl (.head _)
        · exact .inr h
  rcases hfold members [] h with h | h
  · exact h
  · simp at h

end Json

namespace Heap

mutual

/-- A document becomes new objects that hold one another or nothing. -/
theorem allocates_ofJson (h : Heap) (j : Json) :
    h.Allocates (h.ofJson j).1 ∧
      (h.Sound → (h.ofJson j).1.Sound ∧ (h.ofJson j).1.Knows (h.ofJson j).2) := by
  cases j with
  | null | bool | integer | real | text =>
    refine ⟨.of_objects rfl rfl, fun hs => ⟨hs, ?_⟩⟩
    intro o ho
    simp [ofJson] at ho
  | array items =>
    obtain ⟨halloc, hsound⟩ := allocates_ofJsonItems h items
    simp only [ofJson]
    refine ⟨halloc.trans (.of_objects rfl rfl), fun hs => ?_⟩
    refine ⟨(keeps_newArray _ _).sound (hsound hs), ?_⟩
    intro o ho
    simp [newArray] at ho
  | object members =>
    obtain ⟨halloc, hsound⟩ := allocates_ofJsonMembers h members
    simp only [ofJson]
    refine ⟨halloc.trans (allocates_newObject _ _), fun hs => ?_⟩
    refine ⟨(hsound hs).1.newObject fun entry hentry => ?_, ?_⟩
    · exact (hsound hs).2 entry (Json.mem_sorted hentry)
    · intro o ho
      obtain rfl : (h.ofJsonMembers members).1.objects.next = o := by simpa [newObject] using ho
      simp [newObject, Table.next]

theorem allocates_ofJsonItems (h : Heap) (items : List Json) :
    h.Allocates (h.ofJsonItems items).1 ∧ (h.Sound → (h.ofJsonItems items).1.Sound) := by
  cases items with
  | nil => exact ⟨.of_objects rfl rfl, fun hs => hs⟩
  | cons item items =>
    obtain ⟨hfirst, hsound⟩ := allocates_ofJson h item
    obtain ⟨hrest, hsounds⟩ := allocates_ofJsonItems (h.ofJson item).1 items
    exact ⟨hfirst.trans hrest, fun hs => hsounds (hsound hs).1⟩

theorem allocates_ofJsonMembers (h : Heap) (members : List (String × Json)) :
    h.Allocates (h.ofJsonMembers members).1 ∧
      (h.Sound → (h.ofJsonMembers members).1.Sound ∧
        ∀ entry ∈ (h.ofJsonMembers members).2,
          (h.ofJsonMembers members).1.Knows entry.2) := by
  cases members with
  | nil => exact ⟨.of_objects rfl rfl, fun hs => ⟨hs, by simp [ofJsonMembers]⟩⟩
  | cons member members =>
    obtain ⟨name, item⟩ := member
    obtain ⟨hfirst, hsound⟩ := allocates_ofJson h item
    obtain ⟨hrest, hsounds⟩ := allocates_ofJsonMembers (h.ofJson item).1 members
    refine ⟨hfirst.trans hrest, fun hs => ⟨(hsounds (hsound hs).1).1, ?_⟩⟩
    intro entry hentry
    simp only [ofJsonMembers, List.mem_cons] at hentry
    rcases hentry with rfl | hentry
    · exact (hsound hs).2.mono hrest.size
    · exact (hsounds (hsound hs).1).2 entry hentry

end

end Heap

end ReactiveView
