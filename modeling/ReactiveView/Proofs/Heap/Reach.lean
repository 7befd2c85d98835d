import ReactiveView.Proofs.Heap.Access

/-!
# Reachable objects

Reachability through the values of object properties, and the changes of a heap that leave it as it
is: they keep all values, and make plain properties reactive at most.
-/

namespace ReactiveView

namespace Heap

/-! ## Reachability -/

/-- The first object has the second as the value of a property. -/
def Holds (h : Heap) (o o' : Ref .object) : Prop :=
  ∃ key, h.peek o key = some (.object o')

/-- The objects reachable from a value through object properties; arrays are opaque. -/
inductive Reaches (h : Heap) (value : Value) : Ref .object → Prop
  | start {o : Ref .object} : value = .object o → Reaches h value o
  | step {o o' : Ref .object} : Reaches h value o → h.Holds o o' → Reaches h value o'

/-- The objects reachable from a value on a way that leads through no object that is to be avoided. -/
inductive ReachesOff (h : Heap) (avoided : Ref .object → Prop) (value : Value) : Ref .object → Prop
  | start {o : Ref .object} : value = .object o → ¬ avoided o → ReachesOff h avoided value o
  | step {o o' : Ref .object} : ReachesOff h avoided value o → h.Holds o o' → ¬ avoided o' →
      ReachesOff h avoided value o'

/-- Every property of the object is reactive. -/
def Converted (h : Heap) (o : Ref .object) : Prop :=
  ∀ key, (h.property? o key).isSome → h.isReactive o key = true

/-- Every property of every object reachable from the value is reactive. -/
def Closed (h : Heap) (value : Value) : Prop :=
  ∀ o, h.Reaches value o → h.Converted o

theorem isSome_property?_iff {h : Heap} {o : Ref .object} {key : String} :
    (h.property? o key).isSome ↔ (h.peek o key).isSome := by
  simp [peek]

/-- What can be reached from the value of a property can be reached from the object. -/
theorem Reaches.of_peek {h : Heap} {o x : Ref .object} {key : String} {value : Value}
    (hpeek : h.peek o key = some value) (hx : h.Reaches value x) : h.Reaches (.object o) x := by
  induction hx with
  | start hvalue =>
    rw [hvalue] at hpeek
    exact (start rfl).step ⟨key, hpeek⟩
  | step _ hstep ih => exact ih.step hstep

namespace ReachesOff

variable {h : Heap} {avoided : Ref .object → Prop} {value : Value} {x : Ref .object}

theorem reaches (hx : h.ReachesOff avoided value x) : h.Reaches value x := by
  induction hx with
  | start hvalue _ => exact .start hvalue
  | step _ hstep _ ih => exact ih.step hstep

theorem not_avoided (hx : h.ReachesOff avoided value x) : ¬ avoided x := by
  cases hx with
  | start _ hoff => exact hoff
  | step _ _ hoff => exact hoff

theorem of_peek {o : Ref .object} {key : String} (hpeek : h.peek o key = some value)
    (ho : ¬ avoided o) (hx : h.ReachesOff avoided value x) : h.ReachesOff avoided (.object o) x := by
  induction hx with
  | start hvalue hoff =>
    rw [hvalue] at hpeek
    exact (start rfl ho).step ⟨key, hpeek⟩ hoff
  | step _ hstep hoff ih => exact ih.step hstep hoff

end ReachesOff

/-! ## Owned registries -/

/-- The registry of a property exists, and is the registry of no other property. -/
structure Owned (h : Heap) : Prop where
  lt_size : ∀ o key r, h.registry? o key = some r → r.index < h.registries.size
  unique : ∀ o key o' key' r,
    h.registry? o key = some r → h.registry? o' key' = some r → o = o' ∧ key = key'

theorem Owned.of_registry?_eq {h h' : Heap} (owned : h.Owned)
    (hr : ∀ o key, h'.registry? o key = h.registry? o key)
    (hle : h.registries.size ≤ h'.registries.size) : h'.Owned where
  lt_size o key r hreg := by
    rw [hr] at hreg
    exact Nat.lt_of_lt_of_le (owned.lt_size o key r hreg) hle
  unique o key o' key' r hreg hreg' := by
    rw [hr] at hreg hreg'
    exact owned.unique o key o' key' r hreg hreg'

theorem owned_empty : ({} : Heap).Owned := by
  have hnone : ∀ o key, registry? ({} : Heap) o key = none := by
    intro o key
    rw [Heap.registry?, property?, properties_of_size_le (Nat.zero_le _)]
    rfl
  exact ⟨fun o key r hr => by simp [hnone] at hr, fun o key _ _ r hr => by simp [hnone] at hr⟩

/-- A property that is made reactive takes a registry of its own. -/
theorem Owned.convertProperty {h : Heap} (owned : h.Owned) (o : Ref .object) (key : String)
    (value : Value) : (h.convertProperty o key value).Owned := by
  cases hr : h.registry? o key with
  | some r =>
    apply owned.of_registry?_eq
    · intro o' key'
      rw [registry?_convertProperty]
      split
      · next heq =>
        rw [heq.1, heq.2, hr]
        rfl
      · rfl
    · rw [size_registries_convertProperty]
      split <;> omega
  | none =>
    -- The new registry lies behind all others, so that no property has it yet.
    have hsize : (h.convertProperty o key value).registries.size = h.registries.size + 1 := by
      rw [size_registries_convertProperty, hr]
      rfl
    have hcases : ∀ {o' key' r}, registry? (h.convertProperty o key value) o' key' = some r →
        (o' = o ∧ key' = key) ∧ r.index = h.registries.size ∨
          r.index < h.registries.size ∧ h.registry? o' key' = some r := by
      intro o' key' r hreg
      rw [registry?_convertProperty, hr] at hreg
      split at hreg
      · next heq =>
        obtain rfl : h.registries.next = r := by simpa using hreg
        exact .inl ⟨heq, rfl⟩
      · exact .inr ⟨owned.lt_size o' key' r hreg, hreg⟩
    constructor
    · intro o' key' r hreg
      rw [hsize]
      rcases hcases hreg with ⟨_, hnew⟩ | ⟨hold, _⟩ <;> omega
    · intro o₁ key₁ o₂ key₂ r hreg₁ hreg₂
      rcases hcases hreg₁ with ⟨⟨rfl, rfl⟩, hnew₁⟩ | ⟨hold₁, hreg₁⟩
      · rcases hcases hreg₂ with ⟨⟨rfl, rfl⟩, _⟩ | ⟨hold₂, _⟩
        · exact ⟨rfl, rfl⟩
        · omega
      · rcases hcases hreg₂ with ⟨_, hnew₂⟩ | ⟨_, hreg₂⟩
        · omega
        · exact owned.unique o₁ key₁ o₂ key₂ r hreg₁ hreg₂

/-! ## Heaps that keep the values -/

/-- The values stay, every registry stays, and registrations are only added. -/
structure Keeps (h h' : Heap) : Prop where
  peek : ∀ o key, h'.peek o key = h.peek o key
  registry : ∀ o key r, h.registry? o key = some r → h'.registry? o key = some r
  subscribers : ∀ r, h.subscribers r <+: h'.subscribers r
  size : h.objects.size ≤ h'.objects.size
  owned : h.Owned → h'.Owned

namespace Keeps

theorem refl (h : Heap) : h.Keeps h :=
  ⟨fun _ _ => rfl, fun _ _ _ hr => hr, fun _ => List.prefix_refl _, Nat.le_refl _, id⟩

theorem trans {h₁ h₂ h₃ : Heap} (h₁₂ : h₁.Keeps h₂) (h₂₃ : h₂.Keeps h₃) : h₁.Keeps h₃ where
  peek o key := (h₂₃.peek o key).trans (h₁₂.peek o key)
  registry o key r hr := h₂₃.registry o key r (h₁₂.registry o key r hr)
  subscribers r := (h₁₂.subscribers r).trans (h₂₃.subscribers r)
  size := Nat.le_trans h₁₂.size h₂₃.size
  owned := h₂₃.owned ∘ h₁₂.owned

theorem holds_iff {h h' : Heap} (keeps : h.Keeps h') (o o' : Ref .object) :
    h'.Holds o o' ↔ h.Holds o o' := by
  simp [Holds, keeps.peek]

theorem reaches_iff {h h' : Heap} (keeps : h.Keeps h') (value : Value) (o : Ref .object) :
    h'.Reaches value o ↔ h.Reaches value o := by
  constructor
  · intro ho
    induction ho with
    | start hvalue => exact .start hvalue
    | step _ hstep ih => exact ih.step ((keeps.holds_iff _ _).1 hstep)
  · intro ho
    induction ho with
    | start hvalue => exact .start hvalue
    | step _ hstep ih => exact ih.step ((keeps.holds_iff _ _).2 hstep)

theorem reachesOff {h h' : Heap} (keeps : h.Keeps h') {avoided : Ref .object → Prop} {value : Value}
    {o : Ref .object} (ho : h'.ReachesOff avoided value o) : h.ReachesOff avoided value o := by
  induction ho with
  | start hvalue hoff => exact .start hvalue hoff
  | step _ hstep hoff ih => exact ih.step ((keeps.holds_iff _ _).1 hstep) hoff

theorem converted {h h' : Heap} (keeps : h.Keeps h') {o : Ref .object} (ho : h.Converted o) :
    h'.Converted o := by
  intro key hkey
  rw [isSome_property?_iff, keeps.peek, ← isSome_property?_iff] at hkey
  obtain ⟨r, hr⟩ := isReactive_iff.1 (ho key hkey)
  exact isReactive_iff.2 ⟨r, keeps.registry o key r hr⟩

theorem closed {h h' : Heap} (keeps : h.Keeps h') {value : Value} (hc : h.Closed value) :
    h'.Closed value :=
  fun o ho => keeps.converted (hc o ((keeps.reaches_iff value o).1 ho))

end Keeps

theorem keeps_register (h : Heap) (r : Ref .registry) (s : Ref .subscriber) :
    h.Keeps (h.register r s) :=
  ⟨fun _ _ => rfl, fun _ _ _ hr => hr, h.subscribers_register_prefix r s, Nat.le_refl _,
    fun owned => owned.of_registry?_eq (fun _ _ => rfl) (h.registries.le_size_set r _)⟩

theorem keeps_newRegistry (h : Heap) : h.Keeps h.newRegistry.1 :=
  ⟨fun _ _ => rfl, fun _ _ _ hr => hr, fun r => by simp, Nat.le_refl _,
    fun owned => owned.of_registry?_eq (fun _ _ => rfl) (by simp [newRegistry])⟩

theorem keeps_newArray (h : Heap) (items : List Value) : h.Keeps (h.newArray items).1 :=
  ⟨fun _ _ => rfl, fun _ _ _ hr => hr, fun _ => List.prefix_refl _, Nat.le_refl _,
    fun owned => owned.of_registry?_eq (fun _ _ => rfl) (Nat.le_refl _)⟩

end Heap

end ReactiveView
