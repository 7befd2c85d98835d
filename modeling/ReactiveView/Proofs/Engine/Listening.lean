import ReactiveView.Proofs.Engine.Saturation

/-!
# Event attributes

An element with event attributes has, from the time that a pass has come to it, one listener for each
of them and no other, as long as nobody but the view binds anything below its mount. Writes and further
passes change nothing about that.
-/

namespace ReactiveView

variable {κ σ : Type}

/-! ## Listeners that stay -/

/-- What the node hears stays, and what is recorded of its bindings. -/
structure Node.SameListeners (a b : Node (Handler κ)) : Prop where
  listeners : b.listeners = a.listeners
  marks : b.marks = a.marks

theorem Node.SameListeners.refl (a : Node (Handler κ)) : a.SameListeners a :=
  ⟨rfl, rfl⟩

theorem Node.SameListeners.of_eq {a b : Node (Handler κ)} (h : b = a) : a.SameListeners b :=
  h ▸ .refl a

theorem Node.SameListeners.handlers {a b : Node (Handler κ)} (h : a.SameListeners b)
    (kind : String) : b.handlers kind = a.handlers kind := by
  rw [Node.handlers, Node.handlers, h.listeners]

/-- The nodes that an edit moves, whose text or attributes it changes, or to which it adds a listener. -/
def Edit.altered : Edit κ → List (Ref .node)
  | .listen n _ _ => [n]
  | e => e.touched

theorem Edit.touched_subset_altered (e : Edit κ) : e.touched ⊆ e.altered := by
  cases e with
  | listen => exact List.nil_subset _
  | _ => exact List.Subset.refl _

namespace Dom

/-- Only an edit that adds a listener does. -/
theorem sameListeners_edit (d : Dom (Handler κ)) {e : Edit κ} {x : Ref .node} (hx : x ∉ e.altered) :
    (d.node x).SameListeners ((Config.edit d e).node x) := by
  refine ⟨?_, (d.binds_edit e x).marks⟩
  cases e with
  | append p c => exact (d.relinked_append p c x).part Node.listeners fun _ _ _ => rfl
  | detach n => exact (d.relinked_detach n x).part Node.listeners fun _ _ _ => rfl
  | setText n s => exact d.part_setText Node.listeners (fun _ _ _ => rfl) (fun _ _ => rfl) n s x
  | setValue n _ | setAttribute n _ _ | removeAttribute n _ =>
    refine d.part_modify Node.listeners n (fun a => ?_) x
    split <;> rfl
  | listen n kind callback =>
    have hne : x ≠ n := by simpa [Edit.altered] using hx
    rw [Config.edit, listen, node_modify_of_ne d hne]
  | retain n s =>
    refine d.part_modify Node.listeners n (fun _ => ?_) x
    rfl

end Dom

namespace World

variable {w w' : World κ} {v : Ref .view} {n : Ref .node}

theorem listeners_watchSlots (x : Ref .node) : ∀ (keys : List String) {w w' : World κ},
    w.watchSlots v n keys = .ok w' → (w'.dom.node x).listeners = (w.dom.node x).listeners
  | [], w, w', hw => by
      obtain rfl := Except.ok.inj hw
      rfl
  | key :: keys, w, w', hw => by
      simp only [watchSlots, bind, Except.bind] at hw
      split at hw
      · cases hw
      · next made hmade =>
        obtain ⟨w₁, s⟩ := made
        obtain ⟨_, hwatched⟩ := watchView_spec hmade
        rw [listeners_watchSlots x keys hw]
        have hdom : ((w₁.note .interpolationBound).modifyDom (·.retain n s)).dom =
            w.dom.retain n s := by simp [modifyDom, note, hwatched.dom]
        rw [hdom]
        refine w.dom.part_modify Node.listeners n (fun _ => ?_) x
        rfl

/-- The slots of a text are no listeners. -/
theorem sameListeners_bindText (hn : (w.dom.node n).isElement = false) (hbind : w.bindText v n = .ok w')
    (x : Ref .node) : (w.dom.node x).SameListeners (w'.dom.node x) := by
  unfold bindText at hbind
  dsimp only at hbind
  split at hbind
  · obtain rfl := Except.ok.inj hbind
    exact .refl _
  · simp only [bind, Except.bind] at hbind
    split at hbind
    · cases hbind
    · next w₁ hw₁ =>
      obtain rfl := Except.ok.inj hbind
      have hwatched := watchSlots_spec _ hw₁
      rw [node_showPieces ((hwatched.grows.node n).isElement.trans hn)]
      have hsame : (w.dom.node x).SameListeners (w₁.dom.node x) :=
        ⟨listeners_watchSlots x _ hw₁, hwatched.marks x⟩
      split
      · next heq =>
        subst heq
        exact ⟨hsame.listeners, hsame.marks⟩
      · exact hsame

/-- A control hears its input, and no other node hears anything new. -/
theorem node_bindModel_of_ne {value : Option Value} {key : String} {x : Ref .node} (hx : x ≠ n)
    (hbind : w.bindModel v n value key = .ok w') : w'.dom.node x = w.dom.node x := by
  rcases bindModel_spec hbind with ⟨_, rfl⟩ | ⟨_, w₁, hwatched, rfl⟩
  · exact Dom.node_modify_of_ne _ hx _
  · simp only [modifyDom, hwatched.dom, marked, Dom.retain, Dom.listen, Dom.setValue,
      Dom.node_modify_of_ne _ hx]

end World

namespace Config

variable {client : Client κ σ} {c : Config κ σ} {x : Ref .node}

/--
Only a command of the client that does just that adds a listener to a node, or a pass that binds an
attribute of the node.
-/
theorem step_sameListeners (client : Client κ σ) (hs : c.world.dom.Sound) :
    (c.world.dom.node x).SameListeners ((step client c).world.dom.node x) ∨
      (∃ e, c.command? = some (.edit e) ∧ x ∈ e.altered) ∨
      (∃ u value key, c.command? = some (.direct .model u x value key)) ∨
      ∃ u entry rest below, c.stack = .binding u x (entry :: rest) :: below := by
  rcases step_world client c with heq | ⟨f, new, hstack, effect⟩
  · rw [heq]
    exact .inl (.refl _)
  cases effect with
  | kept _ shares | created _ _ _ _ shares | imported _ _ shares | defined _ _ _ _ _ _ shares
  | assigned _ _ _ _ _ shares | announced _ _ _ _ _ _ _ shares =>
    exact .inl (.of_eq (congrArg (·.node x) shares.dom))
  | subscribed _ _ _ dom _ => exact .inl (.of_eq (congrArg (·.node x) dom))
  | watched _ _ _ _ hwatched => exact .inl (.of_eq (congrArg (·.node x) hwatched.dom))
  | opened document options v k w₀ _ hopen same =>
    exact .inl (.of_eq (congrArg (·.node x) (same.dom.trans (World.openView_spec hopen).dom)))
  | made content _ same =>
    left
    rw [same.dom]
    exact ⟨c.world.dom.part_push Node.listeners content rfl x, (c.world.dom.binds_push content x).marks⟩
  | edited e k hf same =>
    by_cases hx : x ∈ e.altered
    · exact .inr (.inl ⟨e, by rw [command?, hstack, hf], hx⟩)
    · left
      rw [same.dom]
      exact c.world.dom.sameListeners_edit hx
  | boundText u current n rest hf hn hbind => exact .inl (World.sameListeners_bindText hn hbind x)
  | boundModel u n name directive key rest hf _ _ hbind =>
    by_cases hx : x = n
    · subst hx
      exact .inr (.inr (.inr ⟨u, _, rest, _, by rw [hstack, hf]⟩))
    · exact .inl (.of_eq (World.node_bindModel_of_ne hx hbind))
  | directed u n value key k hf hbind =>
    by_cases hx : x = n
    · subst hx
      exact .inr (.inr (.inl ⟨u, value, key, by rw [command?, hstack, hf]⟩))
    · exact .inl (.of_eq (World.node_bindModel_of_ne hx hbind))
  | boundEvent u n name kind method rest hf same =>
    by_cases hx : x = n
    · subst hx
      exact .inr (.inr (.inr ⟨u, _, rest, _, by rw [hstack, hf]⟩))
    · left
      rw [same.dom]
      exact .of_eq (World.node_bindEvent_of_ne hx)
  | updated s watch hf hrow _ same =>
    left
    rw [same.dom]
    have hbindings := World.sameBindings_delivered hs s watch (c.below.reading client watch) x
    exact ⟨hbindings.listeners, hbindings.marks⟩

end Config

/-! ## What an event attribute asks for -/

/-- What an element with its event attributes hears of the events of a kind. -/
def View.heard (view : View κ) (v : Ref .view) (node : Node (Handler κ)) (kind : String) :
    List (Handler κ) :=
  ((node.attribute? (view.dialect.eventPrefix ++ kind)).toList).map (.method v kind)

theorem View.request?_event {view : View κ} {v : Ref .view} {entry : String × String} {kind : String}
    (h : view.dialect.role entry.1 = .event kind) :
    view.request? v entry =
      some { mark := entry.1, listener := { kind, handler := .method v kind entry.2 }, shown := none } := by
  rw [request?, h]

theorem Node.handlers_append {a b : Node (Handler κ)} {l : Listener (Handler κ)}
    (h : b.listeners = a.listeners ++ [l]) (kind : String) :
    b.handlers kind = a.handlers kind ++ if l.kind = kind then [l.handler] else [] := by
  rw [handlers, h, List.filter_append, List.map_append, handlers]
  by_cases hkind : l.kind = kind <;> simp [hkind]

/-- An element hears what those of its event attributes ask for that have their marks. -/
def Node.Attends (a : Node (Handler κ)) (v : Ref .view) (view : View κ) (node : Node (Handler κ)) :
    Prop :=
  ∀ kind, a.handlers kind =
    if view.dialect.eventPrefix ++ kind ∈ a.marks then view.heard v node kind else []

namespace Node.Attends

variable {a b node : Node (Handler κ)} {v : Ref .view} {view : View κ}

theorem same (h : a.Attends v view node) (hsame : a.SameListeners b) : b.Attends v view node := by
  intro kind
  rw [hsame.handlers, hsame.marks]
  exact h kind

/-- With one more mark comes one more listener. -/
theorem granted {name method kind : String} (h : a.Attends v view node)
    (hname : name = view.dialect.eventPrefix ++ kind) (hentry : node.attribute? name = some method)
    (hfresh : name ∉ a.marks) (hmarks : b.marks = name :: a.marks)
    (hlisteners : b.listeners = a.listeners ++ [{ kind, handler := .method v kind method }]) :
    b.Attends v view node := by
  intro kind'
  rw [handlers_append hlisteners, h kind', hmarks]
  by_cases hkind : kind = kind'
  · subst hkind
    rw [hname] at hfresh hentry
    rw [if_neg hfresh, if_pos rfl, hname, if_pos (.head _), View.heard, hentry]
    rfl
  · have hne : view.dialect.eventPrefix ++ kind' ≠ name := by
      rw [hname]
      intro heq
      exact hkind (String.append_right_inj _ |>.1 heq).symm
    simp only [hkind, if_false, List.append_nil, List.mem_cons, hne, false_or]

end Node.Attends

/-- No element below a mount has a directive attribute. -/
def Dom.Undirected (d : Dom (Handler κ)) (view : View κ) : Prop :=
  ∀ x, d.Below view.mount x → ∀ entry ∈ (d.node x).attributes.entries,
    ∀ directive, view.dialect.role entry.1 ≠ .directive directive

/-- Nothing is bound to any node below a mount. -/
structure Dom.Unbound (d : Dom (Handler κ)) (mount : Ref .node) : Prop where
  listeners : ∀ x, d.Below mount x → (d.node x).listeners = []
  marks : ∀ x, d.Below mount x → (d.node x).marks = []

/-- What was said of the structure as it was can be said of it as it is. -/
theorem Mounted.now {d₀ : Dom (Handler κ)} {v : Ref .view} {view : View κ} {w : World κ}
    (h : Mounted d₀ v view w) : Mounted w.dom v view w where
  sound := h.sound
  made := h.made
  row := h.row
  declared := h.declared
  nodes _ _ := .refl _
  size x hx := h.size x (h.below_of_below hx)

namespace Config

variable {client : Client κ σ} {c : Config κ σ} {d₀ : Dom (Handler κ)} {v : Ref .view}
  {view : View κ} {x : Ref .node}

/-! ## Views that nobody interferes with -/

/--
The next step leaves the nodes below the mount to the view: the client neither edits them nor applies a
directive to them, and no other view makes a pass there.
-/
structure Reserves (d₀ : Dom (Handler κ)) (v : Ref .view) (view : View κ) (c : Config κ σ) : Prop where
  edits : ∀ e, c.command? = some (.edit e) → ∀ x ∈ e.altered, ¬ d₀.Below view.mount x
  directs : ∀ u x value key, c.command? = some (.direct .model u x value key) →
    ¬ d₀.Below view.mount x
  passes : ∀ u x, c.pass? = some (u, x) → d₀.Below view.mount x → u = v

theorem step_mounted_of_reserves (h : Mounted d₀ v view c.world) (hreserves : c.Reserves d₀ v view) :
    Mounted d₀ v view (step client c).world := by
  rcases step_world client c with hworld | ⟨f, new, hstack, effect⟩
  · rwa [hworld]
  · refine effect.mounted h fun e k hf x hx => hreserves.edits e ?_ x (e.touched_subset_altered hx)
    rw [command?, hstack, hf]

/--
Every node below the mount hears what its attributes with a mark ask for, and every other event
attribute is still to be bound by a pass in progress.
-/
structure EventsBound (d₀ : Dom (Handler κ)) (v : Ref .view) (view : View κ) (c : Config κ σ) :
    Prop where
  mounted : Mounted d₀ v view c.world
  entries : ∀ x rest, .binding v x rest ∈ c.stack → d₀.Below view.mount x →
    ∀ entry ∈ rest, entry ∈ (d₀.node x).attributes.entries
  attends : ∀ x, d₀.Below view.mount x → (c.world.dom.node x).Attends v view (d₀.node x)
  bound : ∀ x entry kind, d₀.Below view.mount x → entry ∈ (d₀.node x).attributes.entries →
    view.dialect.role entry.1 = .event kind →
      Awaited d₀ v view c x entry ∨ entry.1 ∈ (c.world.dom.node x).marks

/-- What a pass of the view has still to bind at a node are attributes of the node. -/
theorem step_entries (h : EventsBound d₀ v view c) {rest : List (String × String)}
    (hrest : .binding v x rest ∈ (step client c).stack) (hx : d₀.Below view.mount x) :
    ∀ entry ∈ rest, entry ∈ (d₀.node x).attributes.entries := by
  rcases step_pass rfl hrest with hold | ⟨f, below, hstack, proceeds⟩
  · exact h.entries x rest hold hx
  cases proceeds with
  | taken heq =>
    intro entry hentry
    rwa [(h.mounted.nodes x hx).attributes] at hentry
  | @bound _ _ first rest heq =>
    subst heq
    have hold := h.entries x (first :: rest) (by rw [hstack]; exact .head _) hx
    exact fun entry hentry => hold entry (.tail _ hentry)

/-- A pass that binds an event attribute keeps the node attending. -/
theorem step_attends (h : EventsBound d₀ v view c) (hreserves : c.Reserves d₀ v view)
    (hundirected : ∀ entry ∈ (d₀.node x).attributes.entries,
      ∀ directive, view.dialect.role entry.1 ≠ .directive directive)
    (hfault : (step client c).fault = none) (hx : d₀.Below view.mount x) :
    ((step client c).world.dom.node x).Attends v view (d₀.node x) := by
  have hattends := h.attends x hx
  rcases step_sameListeners (x := x) client h.mounted.sound with
    hsame | ⟨e, hcommand, hmem⟩ | ⟨u, value, key, hcommand⟩ | ⟨u, entry, rest, below, hstack⟩
  · exact hattends.same hsame
  · exact absurd hx (hreserves.edits e hcommand x hmem)
  · exact absurd hx (hreserves.directs u x value key hcommand)
  obtain rfl : u = v := hreserves.passes u x (by rw [pass?, hstack]) hx
  have hentry := h.entries x (entry :: rest) (by rw [hstack]; exact .head _) hx entry (.head _)
  rcases step_attribute hstack hfault with ⟨hbinds, _⟩ | ⟨directive, _, hrole, _⟩
  · rcases hbinds.request_cases with ⟨_, hnode⟩ | ⟨r, hr, ⟨_, hbindings⟩ | hgranted⟩
    · exact hattends.same (.of_eq hnode)
    · exact hattends.same ⟨hbindings.listeners, hbindings.marks⟩
    · rw [h.mounted.row] at hr
      cases hrole : view.dialect.role entry.1 with
      | plain => simp [View.request?, hrole] at hr
      | directive directive => exact absurd hrole (hundirected entry hentry directive)
      | event kind =>
        rw [View.request?_event hrole] at hr
        obtain rfl := Option.some.inj hr
        exact hattends.granted (Dialect.eq_of_role_event hrole)
          ((OrderedMap.get?_eq_some_iff _ _ _).2 hentry) hgranted.fresh hgranted.marks
          hgranted.listeners
  · rw [h.mounted.row] at hrole
    exact absurd hrole (hundirected entry hentry directive)

theorem step_eventsBound (h : EventsBound d₀ v view c) (hundirected : d₀.Undirected view)
    (hreserves : c.Reserves d₀ v view) (hfault : (step client c).fault = none) :
    EventsBound d₀ v view (step client c) where
  mounted := step_mounted_of_reserves h.mounted hreserves
  entries _ _ hrest hx := step_entries h hrest hx
  attends x hx := step_attends h hreserves (hundirected x hx) hfault hx
  bound x entry kind hx hentry hrole := by
    rcases h.bound x entry kind hx hentry hrole with hawaited | hmark
    · rcases step_awaited hawaited h.mounted hx hentry hfault with hawaited | ⟨rest, below, hstack⟩
      · exact .inl hawaited
      · have hrequest := View.request?_event (v := v) hrole
        rw [← h.mounted.row] at hrequest
        exact .inr (mark_of_binding hstack hrequest hfault)
    · exact .inr ((step_keeps_bound client h.mounted.sound x).2 hmark)

/-- The first pass of a view is on its way to everything below the mount, where nothing is bound yet. -/
theorem eventsBound_of_openView {document : Ref .node} {options : World.Options κ}
    {k : Except ViewError (Ref .view) → Program κ σ (Option EventError)} {rest : List (Frame κ σ)}
    {w : World κ} (hsound : c.world.dom.Sound)
    (hstack : c.stack = .client (.perform (.openView document options) k) :: rest)
    (hopen : c.world.openView document options = .ok (w, v))
    (hmount : (w.view v).mount.index < c.world.dom.nodes.size)
    (hunbound : c.world.dom.Unbound (w.view v).mount) (hfree : ∀ f ∈ rest, .view v ∉ f.holds)
    (hfault : (step client c).fault = none) :
    EventsBound c.world.dom v (w.view v) (step client c) := by
  obtain ⟨mounted, hcovered⟩ := mounted_of_openView hsound hstack hopen hmount hfault
  obtain ⟨same, pins, hnew⟩ := step_openView hstack hopen hfault
  have hdom : (step client c).world.dom = c.world.dom := same.dom.trans (World.openView_spec hopen).dom
  refine ⟨mounted, fun x entries hentries _ => ?_, fun x hx kind => ?_,
    fun x entry kind hx _ _ => .inl (.inl (hcovered x hx))⟩
  · rw [hnew] at hentries
    rcases List.mem_cons.1 hentries with heq | hentries
    · cases heq
    rcases List.mem_cons.1 hentries with heq | hentries
    · cases heq
    · exact absurd (.head _) (hfree _ hentries)
  · rw [hdom, hunbound.marks x hx, if_neg List.not_mem_nil, Node.handlers, hunbound.listeners x hx]
    rfl

/-- When no pass of the view is in progress, every node hears what its event attributes ask for. -/
theorem EventsBound.handlers (h : EventsBound d₀ v view c) (hflaw : view.dialect.flaw? = none)
    (hmarked : ∀ entry kind, entry ∈ (d₀.node x).attributes.entries →
      view.dialect.role entry.1 = .event kind → entry.1 ∈ (c.world.dom.node x).marks)
    (hx : d₀.Below view.mount x) (kind : String) :
    (c.world.dom.node x).handlers kind = view.heard v (d₀.node x) kind := by
  rw [h.attends x hx kind]
  split
  · rfl
  · next hmark =>
    -- An attribute of the name would have its mark.
    cases hattribute : (d₀.node x).attribute? (view.dialect.eventPrefix ++ kind) with
    | none => rw [View.heard, hattribute]; rfl
    | some method =>
      have hentry := (OrderedMap.get?_eq_some_iff _ _ _).1 hattribute
      exact absurd (hmarked _ kind hentry (Dialect.role_append hflaw kind)) hmark

theorem EventsBound.marked (h : EventsBound d₀ v view c) (hclear : c.Clear v)
    {entry : String × String} {kind : String} (hx : d₀.Below view.mount x)
    (hentry : entry ∈ (d₀.node x).attributes.entries)
    (hrole : view.dialect.role entry.1 = .event kind) : entry.1 ∈ (c.world.dom.node x).marks :=
  (h.bound x entry kind hx hentry hrole).resolve_left (not_awaited_of_clear hclear)

/-- A view whose event attributes all have their marks, on the structure as it is now. -/
theorem EventsBound.now (h : EventsBound d₀ v view c)
    (hmarked : ∀ x entry kind, d₀.Below view.mount x → entry ∈ (d₀.node x).attributes.entries →
      view.dialect.role entry.1 = .event kind → entry.1 ∈ (c.world.dom.node x).marks) :
    EventsBound c.world.dom v view c := by
  have hbelow : ∀ {x}, c.world.dom.Below view.mount x → d₀.Below view.mount x :=
    fun hx => h.mounted.below_of_below hx
  have hattributes : ∀ {x}, d₀.Below view.mount x →
      (c.world.dom.node x).attributes = (d₀.node x).attributes :=
    fun hx => (h.mounted.nodes _ hx).attributes
  refine ⟨h.mounted.now, fun x rest hrest hx => ?_, fun x hx kind => ?_,
    fun x entry kind hx hentry hrole => .inr ?_⟩
  · rw [hattributes (hbelow hx)]
    exact h.entries x rest hrest (hbelow hx)
  · rw [h.attends x (hbelow hx) kind, View.heard, View.heard, Node.attribute?, Node.attribute?,
      hattributes (hbelow hx)]
  · rw [hattributes (hbelow hx)] at hentry
    exact hmarked x entry kind (hbelow hx) hentry hrole

end Config

end ReactiveView
