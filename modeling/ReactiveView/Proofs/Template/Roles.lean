import Mathlib.Data.List.Basic
import ReactiveView.Template.Dialect

/-!
# Roles of attribute names

A name stands for a directive or an event by the prefix that it starts with. Whether a dialect is
usable is found out from its prefixes alone, which are compared with each other and with no name: of
two beginnings of one name the shorter is a beginning of the longer, so no name starts with both
prefixes if neither prefix starts with the other, and it does not matter which one is looked for first.
-/

namespace ReactiveView

namespace Dialect

variable {d : Dialect} {name : String}

/-! ## Names that begin with a prefix -/

/-- The name is the prefix with something behind it, or with nothing. -/
def Begins (start name : String) : Prop :=
  ∃ rest, name = start ++ rest

theorem begins_iff {start : String} : Begins start name ↔ start.toList <+: name.toList := by
  constructor
  · rintro ⟨rest, rfl⟩
    exact ⟨rest.toList, String.toList_append.symm⟩
  · rintro ⟨rest, hrest⟩
    refine ⟨String.ofList rest, String.toList_inj.1 ?_⟩
    rw [String.toList_append, String.toList_ofList, hrest]

/-- Two prefixes have a name in common exactly if one of them begins with the other. -/
theorem exists_begins_iff {p q : String} : (∃ name, Begins p name ∧ Begins q name) ↔
    p.toList <+: q.toList ∨ q.toList <+: p.toList := by
  simp only [begins_iff]
  constructor
  · rintro ⟨name, hp, hq⟩
    exact List.prefix_or_prefix_of_prefix hp hq
  · rintro (h | h)
    · exact ⟨q, h, List.prefix_refl _⟩
    · exact ⟨p, List.prefix_refl _, h⟩

theorem afterPrefix?_eq_some_iff {start rest : String} :
    afterPrefix? start name = some rest ↔ name = start ++ rest := by
  unfold afterPrefix?
  rw [Option.map_eq_some_iff]
  constructor
  · rintro ⟨l, hl, rfl⟩
    rw [List.isPrefixOf?_eq_some_iff_append_eq] at hl
    apply String.toList_inj.1
    rw [String.toList_append, String.toList_ofList, hl]
  · rintro rfl
    refine ⟨rest.toList, ?_, String.ofList_toList⟩
    rw [List.isPrefixOf?_eq_some_iff_append_eq, String.toList_append]

theorem afterPrefix?_eq_none_iff {start : String} :
    afterPrefix? start name = none ↔ ¬ Begins start name := by
  rw [Option.eq_none_iff_forall_ne_some, Begins, not_exists]
  exact forall_congr' fun rest => not_congr afterPrefix?_eq_some_iff

/-! ## Usable dialects -/

/-- Nothing is empty, and no name begins with both prefixes. -/
structure Usable (d : Dialect) : Prop where
  directivePrefix : d.directivePrefix ≠ ""
  eventPrefix : d.eventPrefix ≠ ""
  opening : d.opening ≠ ""
  closing : d.closing ≠ ""
  apart : ∀ name, ¬ (Begins d.directivePrefix name ∧ Begins d.eventPrefix name)

theorem flaw?_eq_none_iff : d.flaw? = none ↔ d.Usable := by
  have hoverlap : (d.eventPrefix.toList.isPrefixOf d.directivePrefix.toList = true ∨
      d.directivePrefix.toList.isPrefixOf d.eventPrefix.toList = true) ↔
        ∃ name, Begins d.directivePrefix name ∧ Begins d.eventPrefix name := by
    rw [exists_begins_iff, List.isPrefixOf_iff_prefix, List.isPrefixOf_iff_prefix, or_comm]
  unfold flaw?
  constructor
  · intro h
    split at h
    · cases h
    next hprefixes =>
    split at h
    · cases h
    next happart =>
    split at h
    · cases h
    next hdelimiters =>
    rw [hoverlap] at happart
    obtain ⟨hdirective, hevent⟩ := not_or.1 hprefixes
    obtain ⟨hopening, hclosing⟩ := not_or.1 hdelimiters
    exact ⟨hdirective, hevent, hopening, hclosing, not_exists.1 happart⟩
  · intro h
    rw [if_neg (not_or.2 ⟨h.directivePrefix, h.eventPrefix⟩),
      if_neg (hoverlap.not.2 (not_exists.2 h.apart)), if_neg (not_or.2 ⟨h.opening, h.closing⟩)]

/-! ## Roles -/

/-- What a name may stand for, whatever is looked for first. -/
inductive Asks (d : Dialect) (name : String) : Role → Prop
  | directive {rest : String} : name = d.directivePrefix ++ rest → Asks d name (.directive rest)
  | event {rest : String} : name = d.eventPrefix ++ rest → Asks d name (.event rest)
  | plain : ¬ Begins d.directivePrefix name → ¬ Begins d.eventPrefix name → Asks d name .plain

/-- The role that goes with the first of some prefixes that the name begins with. -/
def firstRole (name : String) : List (String × (String → Role)) → Role
  | [] => .plain
  | (start, role) :: others =>
    match afterPrefix? start name with
    | some rest => role rest
    | none => firstRole name others

/-- The prefixes of a dialect in the order in which they are looked for, with the roles that they give. -/
def prefixes (d : Dialect) : List (String × (String → Role)) :=
  [(d.directivePrefix, .directive), (d.eventPrefix, .event)]

theorem role_eq_firstRole (d : Dialect) (name : String) : d.role name = firstRole name d.prefixes := by
  unfold role prefixes firstRole firstRole firstRole
  rfl

theorem firstRole_cases (name : String) : ∀ starts : List (String × (String → Role)),
    (∃ start ∈ starts, ∃ rest, name = start.1 ++ rest ∧ firstRole name starts = start.2 rest) ∨
      firstRole name starts = .plain ∧ ∀ start ∈ starts, ¬ Begins start.1 name
  | [] => .inr ⟨rfl, fun _ h => absurd h List.not_mem_nil⟩
  | (start, role) :: others => by
      rw [firstRole]
      cases hstart : afterPrefix? start name with
      | some rest => exact .inl ⟨_, .head _, rest, afterPrefix?_eq_some_iff.1 hstart, rfl⟩
      | none =>
        rcases firstRole_cases name others with ⟨other, hmem, hrest⟩ | ⟨hplain, hnone⟩
        · exact .inl ⟨other, .tail _ hmem, hrest⟩
        · refine .inr ⟨hplain, fun other hmem => ?_⟩
          rcases List.mem_cons.1 hmem with rfl | hmem
          · exact afterPrefix?_eq_none_iff.1 hstart
          · exact hnone other hmem

/-- In whatever order the two prefixes are looked for, the name may stand for what is found. -/
theorem asks_firstRole {starts : List (String × (String → Role))} (h : starts.Perm d.prefixes)
    (name : String) : d.Asks name (firstRole name starts) := by
  rcases firstRole_cases name starts with ⟨start, hmem, rest, hname, hrole⟩ | ⟨hplain, hnone⟩
  · rw [hrole]
    have hprefixes : start = (d.directivePrefix, .directive) ∨ start = (d.eventPrefix, .event) := by
      simpa [prefixes] using h.subset hmem
    rcases hprefixes with rfl | rfl
    · exact .directive hname
    · exact .event hname
  · rw [hplain]
    exact .plain (hnone _ (h.symm.subset (.head _))) (hnone _ (h.symm.subset (.tail _ (.head _))))

theorem asks_role (d : Dialect) (name : String) : d.Asks name (d.role name) := by
  rw [role_eq_firstRole]
  exact asks_firstRole (List.Perm.refl _) name

/-- In a usable dialect a name stands for one thing only. -/
theorem Usable.asks_unique (h : d.Usable) {r r' : Role} (hr : d.Asks name r) (hr' : d.Asks name r') :
    r = r' := by
  cases hr with
  | directive hname =>
    cases hr' with
    | directive hname' => rw [(String.append_right_inj _).1 (hname.symm.trans hname')]
    | event hname' => exact absurd ⟨⟨_, hname⟩, ⟨_, hname'⟩⟩ (h.apart name)
    | plain hdirective _ => exact absurd ⟨_, hname⟩ hdirective
  | event hname =>
    cases hr' with
    | directive hname' => exact absurd ⟨⟨_, hname'⟩, ⟨_, hname⟩⟩ (h.apart name)
    | event hname' => rw [(String.append_right_inj _).1 (hname.symm.trans hname')]
    | plain _ hevent => exact absurd ⟨_, hname⟩ hevent
  | plain hdirective hevent =>
    cases hr' with
    | directive hname' => exact absurd ⟨_, hname'⟩ hdirective
    | event hname' => exact absurd ⟨_, hname'⟩ hevent
    | plain _ _ => rfl

theorem Usable.asks_iff (h : d.Usable) {r : Role} : d.Asks name r ↔ d.role name = r :=
  ⟨fun hr => h.asks_unique (d.asks_role name) hr, fun heq => heq ▸ d.asks_role name⟩

/-- A name stands for a directive whatever the prefix of events is. -/
theorem role_eq_directive_iff {directive : String} :
    d.role name = .directive directive ↔ name = d.directivePrefix ++ directive := by
  constructor
  · intro h
    have hasks := d.asks_role name
    rw [h] at hasks
    cases hasks with
    | directive hname => exact hname
  · intro h
    rw [role, afterPrefix?_eq_some_iff.2 h]

/-- The name of an event attribute is the prefix with the kind of the event behind it. -/
theorem eq_of_role_event {kind : String} (h : d.role name = .event kind) :
    name = d.eventPrefix ++ kind := by
  have hasks := d.asks_role name
  rw [h] at hasks
  cases hasks with
  | event hname => exact hname

/-- In a usable dialect nothing that starts with the prefix of events starts with the other one too. -/
theorem role_append (hflaw : d.flaw? = none) (kind : String) :
    d.role (d.eventPrefix ++ kind) = .event kind :=
  (flaw?_eq_none_iff.1 hflaw).asks_iff.1 (.event rfl)

/--
A dialect has no flaw exactly if nothing in it is empty and no name at all begins with both of its
prefixes. A name can stand for one thing only then, and that is its role in whatever order the prefixes
are looked for.
-/
theorem flawless_unambiguous (d : Dialect) :
    (d.flaw? = none ↔ d.directivePrefix ≠ "" ∧ d.eventPrefix ≠ "" ∧ d.opening ≠ "" ∧ d.closing ≠ "" ∧
      ∀ name, ¬ (Begins d.directivePrefix name ∧ Begins d.eventPrefix name)) ∧
    (d.flaw? = none → ∀ name, (∀ r, d.Asks name r ↔ d.role name = r) ∧
      ∀ starts, starts.Perm d.prefixes → firstRole name starts = d.role name) := by
  refine ⟨flaw?_eq_none_iff.trans ⟨fun h => ?_, fun h => ?_⟩, fun hflaw name => ?_⟩
  · exact ⟨h.directivePrefix, h.eventPrefix, h.opening, h.closing, h.apart⟩
  · obtain ⟨hdirective, hevent, hopening, hclosing, happart⟩ := h
    exact ⟨hdirective, hevent, hopening, hclosing, happart⟩
  · have husable := flaw?_eq_none_iff.1 hflaw
    exact ⟨fun _ => husable.asks_iff, fun starts hstarts =>
      husable.asks_unique (asks_firstRole hstarts name) (d.asks_role name)⟩

/-- Two prefixes that differ in their last character only. -/
def alike : Dialect := { directivePrefix := "on-", eventPrefix := "on:" }

theorem alike_unambiguous : alike.flaw? = none ∧
    firstRole "on:click" [("on:", .event), ("on-", .directive)] = alike.role "on:click" ∧
      alike.role "on:click" = .event "click" := by
  have hflaw : alike.flaw? = none := by decide
  have hname := (flawless_unambiguous alike).2 hflaw "on:click"
  exact ⟨hflaw, hname.2 _ (List.Perm.swap _ _ _), (hname.1 _).1 (.event rfl)⟩

end Dialect

end ReactiveView
