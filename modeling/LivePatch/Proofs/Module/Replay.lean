/-
Merging a unit into the module that it was imported as. The import has run the unit in the namespace of
the module, which began with the module's own name; the merge runs it again in an empty one. The two runs
go in lockstep, so that the merge finds nothing to add and nothing to remove, and every function, method and
class stays. Only a unit that looks up the module's own name can tell the two runs apart: the second one
does not find it.
-/
import LivePatch.Proofs.Machine.Lockstep
import LivePatch.Proofs.Module.Takeover

namespace LivePatch

/-- What a merge that changes no name leaves of the bindings of a module: all names, in their order, and
all values but instances, for which the unit makes new ones. -/
structure Summary.Renewed (s : Summary) (before after : Bindings Value) : Prop where
  added : s.added = []
  removed : s.removed = []
  names : after.names = before.names
  kept : ∀ {x v}, before.get? x = some v → (∀ o, v ≠ .object o) → after.get? x = some v
  renewed : ∀ {x o}, before.get? x = some (.object o) → ∃ o', after.get? x = some (.object o')

/-! ## Akin values -/

namespace Value

/-- The same value twice, or two objects of one kind. -/
def Akin (v w : Value) : Prop := v = w ∨ v.kind = w.kind ∧ ¬ v.IsScalar

variable {v w : Value}

theorem Akin.kind_eq (h : v.Akin w) : v.kind = w.kind := by
  rcases h with rfl | ⟨hk, -⟩
  · rfl
  · exact hk

/-- Akin values that a merge does not update are the same, or instances. -/
theorem Akin.object_of_not_patchable (h : v.Akin w) (hp : ¬ v.Patchable) :
    v = w ∨ ∃ o p, v = .object o ∧ w = .object p := by
  rcases h with rfl | ⟨hk, hs⟩
  · exact .inl rfl
  · cases v with
    | object o =>
      cases w with
      | object p => exact .inr ⟨o, p, rfl, rfl⟩
      | _ => cases hk
    | function | method | type => exact absurd trivial hp
    | none | bool | int | str | builtin => exact absurd trivial hs

end Value

theorem Twins.Val.akin {T : Twins} {k : Heap} {v w : Value} (hv : T.Val k v w) : v.Akin w := by
  cases hv with
  | scalar => exact .inl rfl
  | function | method | type | object => exact .inr ⟨rfl, id⟩

namespace Merge

/-! ## Merges without hooks -/

section

variable {limit : Nat} {u : CodeUnit} {module : ModuleRef} {m m₁ : Machine}

/-- Only hooks stop a merge whose unit has run to its end. -/
theorem Executed.succeeds (he : Executed limit u module m m₁)
    (hh : ∀ hook old k, ¬ CallsHook limit u module m hook old k) :
    ∃ s m', merge limit u module m = .ok s m' := by
  cases hr : merge limit u module m with
  | ok s m' => exact ⟨s, m', rfl⟩
  | error e m' =>
    rcases stops hr with ⟨e', hu⟩ | ⟨x, a, old, hook, k, e', m₂, ht, ha, -⟩
    · cases he.symm.trans hu
    · exact absurd ⟨x, a, ht, ha⟩ (hh hook old k)

end

/-! ## The two runs -/

section

variable {h : Heap} {name : Name} {places : Option (List Path)} {limit : Nat} {u : CodeUnit}
  {m : Machine}

/-- What the namespace of a new module begins with. -/
def ownName (name : Name) : Bindings Value := Bindings.empty.insert selfName (.str name)

/-- The import of a unit as a new module on the left, and its later run for a merge on the right. -/
def importAndMerge (h : Heap) (name : Name) (places : Option (List Path)) (m : Machine) (u : CodeUnit) :
    Twins where
  left := (h.newModule name places).2
  right := m.heap.newScope.2
  leftScope := h.scopes.next
  rightScope := m.heap.newScope.1
  given := ownName name
  reads := u.reads
  notBuiltin x hx := by
    obtain rfl : x = selfName := List.mem_singleton.1 hx
    decide

theorem importAndMerge_start {d : Nat} (hd : m.depth = d) :
    (importAndMerge h name places m u).Machines d ⟨(h.newModule name places).2, d⟩
      { m with heap := m.heap.newScope.2 } := by
  refine ⟨.start ?_ ?_ (Arena.get_push_next _ _) (Arena.get_push_next _ _), rfl, hd⟩
  · show h.scopes.size < (h.scopes.push _).size
    rw [Arena.size_push]
    exact Nat.lt_succ_self _
  · show m.heap.scopes.size < (m.heap.scopes.push _).size
    rw [Arena.size_push]
    exact Nat.lt_succ_self _

/-- When the import has run the unit to its end, so does the merge, on a twin heap; or else it stops at
the module's own name, which the unit looks up. -/
theorem importAndMerge_runs {d : Nat} {m₁ : Machine} (hd : m.depth = d)
    (hrun : u.run limit h.scopes.next name ⟨(h.newModule name places).2, d⟩ = .ok () m₁) :
    (∃ m₂, u.run limit m.heap.newScope.1 name { m with heap := m.heap.newScope.2 } = .ok () m₂ ∧
        (importAndMerge h name places m u).Heaps m₁.heap m₂.heap) ∨
      selfName ∈ u.reads ∧ ∃ m₂, u.run limit m.heap.newScope.1 name { m with heap := m.heap.newScope.2 } =
        .error (.failure (.undefinedVariable selfName)) m₂ := by
  have hl := u.run_lockstep (T := importAndMerge h name places m u) (importAndMerge_start hd) limit
    (List.Subset.refl _) name
  unfold Run.Lockstep at hl
  rw [show u.run limit (importAndMerge h name places m u).leftScope name _ = .ok () m₁ from hrun] at hl
  generalize hr : u.run limit (importAndMerge h name places m u).rightScope name _ = r at hl
  cases hl with
  | value ht => exact .inl ⟨_, hr, ht.heaps⟩
  | lacks he =>
    obtain ⟨x, hx, hread, rfl⟩ := he
    obtain rfl : x = selfName := List.mem_singleton.1 hx
    exact .inr ⟨hread, _, hr⟩

end

/-! ## The names -/

/-- The module binds its own name and the names that the unit binds, each of these to a value akin to the
one that the unit gives it. -/
structure Covers (old new : Bindings Value) : Prop where
  names : ∀ x, x ∈ old.names ↔ x ∈ new.names ∨ x = selfName
  akin : ∀ {x v w}, old.get? x = some v → new.get? x = some w → v.Akin w

namespace Covers

variable {old new : Bindings Value}

/-- The namespaces of the two runs are such bindings. -/
theorem of_alike {T : Twins} {k : Heap} {name : Name} (ha : Bindings.Alike (ownName name) (T.Val k) old new) :
    Covers old new where
  names x := by
    rw [ha.mem_names_iff x, or_comm]
    exact or_congr_right List.mem_singleton
  akin hv hw := by
    obtain ⟨v', hv', hvw⟩ := ha.bound hw
    cases hv.symm.trans hv'
    exact hvw.akin

/-- The merge finds nothing new and nothing gone. -/
theorem added (hc : Covers old new) : new.names.filter (· ∉ old.names) = [] := by
  refine List.filter_eq_nil_iff.2 fun x hx => ?_
  rw [decide_eq_true_eq, Decidable.not_not]
  exact (hc.names x).2 (.inl hx)

theorem removed (hc : Covers old new) :
    old.names.filter (fun x => x ∉ new.names ∧ x ≠ selfName) = [] := by
  refine List.filter_eq_nil_iff.2 fun x hx => ?_
  rw [decide_eq_true_eq, not_and_or, Decidable.not_not, Decidable.not_not]
  exact (hc.names x).1 hx

end Covers

/-! ## The merge -/

section

variable {limit : Nat} {u : CodeUnit} {module : ModuleRef} {m m₂ : Machine} {after : Bindings Value}
  {s : Summary}

/-- Every name keeps its value, unless that is an instance and gives way to the new one. -/
theorem Executed.keeps_or_renews (he : Executed limit u module m m₂) (hm : m.heap.HasModule module)
    (hh : ∀ hook old k, ¬ CallsHook limit u module m hook old k)
    (hc : Covers (m.heap.bindings module) (m₂.heap.scope m.heap.newScope.1))
    (hmerged : Merged limit u module m (m.heap.bindings module) (m₂.heap.scope m.heap.newScope.1) after s)
    {x : Name} {v : Value} (hv : (m.heap.bindings module).get? x = some v) :
    after.get? x = some v ∨ ∃ o p, v = .object o ∧ after.get? x = some (.object p) := by
  have hx := ((m.heap.bindings module).mem_names_iff x).2 (Option.isSome_of_eq_some hv)
  cases hw : (m₂.heap.scope m.heap.newScope.1).get? x with
  | some w =>
    have hvw := hc.akin hv hw
    have hx' := ((m₂.heap.scope m.heap.newScope.1).mem_names_iff x).2 (Option.isSome_of_eq_some hw)
    obtain ⟨hold, hnew⟩ := he.treated hm hh (hmerged.shared x hx hx') hv hw hvw.kind_eq
    by_cases hp : v.Patchable
    · exact .inl (hold hp)
    · rcases hvw.object_of_not_patchable hp with rfl | ⟨o, p, rfl, rfl⟩
      · exact .inl (hnew hp)
      · exact .inr ⟨o, p, rfl, hnew hp⟩
  | none =>
    -- the unit does not bind the name, which is the module's own
    have hx' : x ∉ (m₂.heap.scope m.heap.newScope.1).names := by
      rw [Bindings.mem_names_iff, hw]
      exact Bool.false_ne_true
    have hr : x ∉ s.removed := by
      rw [hmerged.removed, hc.removed]
      exact List.not_mem_nil
    exact .inl ((hmerged.kept x hx hx' hr).trans hv)

theorem Executed.renewed (he : Executed limit u module m m₂) (hm : m.heap.HasModule module)
    (hh : ∀ hook old k, ¬ CallsHook limit u module m hook old k)
    (hc : Covers (m.heap.bindings module) (m₂.heap.scope m.heap.newScope.1))
    (hmerged : Merged limit u module m (m.heap.bindings module) (m₂.heap.scope m.heap.newScope.1) after s) :
    s.Renewed (m.heap.bindings module) after where
  added := hmerged.added.trans hc.added
  removed := hmerged.removed.trans hc.removed
  names := by
    rw [hmerged.names, hmerged.added, hc.added, hmerged.removed, hc.removed, List.append_nil]
    exact List.filter_eq_self.2 fun x _ => by simp
  kept hv hno := (he.keeps_or_renews hm hh hc hmerged hv).resolve_right fun ⟨o, _, ho, _⟩ => hno o ho
  renewed hv := by
    rcases he.keeps_or_renews hm hh hc hmerged hv with hv | ⟨_, p, _, hp⟩
    · exact ⟨_, hv⟩
    · exact ⟨p, hp⟩

end

end Merge

theorem merge_of_unit_error {limit : Nat} {u : CodeUnit} {module : ModuleRef} {m m' : Machine}
    {e : Halt RunError}
    (h : u.run limit m.heap.newScope.1 (m.heap.module module).name { m with heap := m.heap.newScope.2 } =
      .error e m') : merge limit u module m = .error (e.map (.execution (m.heap.module module).name)) m' := by
  unfold merge
  simp only
  rw [h]

/-- Merging a unit into the module that it has just been imported as either succeeds and changes no name,
or it fails because the unit looks up the name of the module, and has then changed nothing. -/
theorem merge_imported {h : Heap} {name : Name} {places : Option (List Path)} {limit : Nat} {u : CodeUnit}
    {module : ModuleRef} {m₁ m : Machine} {origin : Path}
    (hrun : u.run limit h.scopes.next name ⟨(h.newModule name places).2, m.depth⟩ = .ok () m₁)
    (hm : m.heap = m₁.heap.setOrigin module origin) (hc : m.heap.Closed) (hmod : m.heap.HasModule module)
    (hfixed : (m.heap.module module).fixed = (name, h.scopes.next, places))
    (hno : ∀ x v, (m.heap.bindings module).get? x = some v → m.heap.attr? v updateHook = none) :
    (∃ s m', merge limit u module m = .ok s m' ∧
        s.Renewed (m.heap.bindings module) (m'.heap.bindings module)) ∨
      selfName ∈ u.reads ∧ ∃ m', merge limit u module m =
        .error (.failure (.execution name (.undefinedVariable selfName))) m' ∧ m.heap.Extends m'.heap := by
  have hname : (m.heap.module module).name = name := congrArg Prod.fst hfixed
  have hscope : (m.heap.module module).scope = h.scopes.next := congrArg (·.2.1) hfixed
  rcases Merge.importAndMerge_runs rfl hrun with ⟨m₂, hrun₂, hh⟩ | ⟨hread, m₂, hrun₂⟩
  · rw [← hname] at hrun₂
    have he : Merge.Executed limit u module m m₂ := hrun₂
    have hh := hh.setOrigin module origin
    rw [← hm] at hh
    have ha : Bindings.Alike (Merge.ownName name) ((Merge.importAndMerge h name places m u).Val m.heap)
        (m.heap.bindings module) (m₂.heap.scope m.heap.newScope.1) := by
      unfold Heap.bindings
      rw [hscope]
      exact hh.scope
    -- a value without a hook has a twin without one
    have hnew : ∀ x w, (m₂.heap.scope m.heap.newScope.1).get? x = some w →
        Update.hook? m₂.heap w = none := by
      intro x w hw
      obtain ⟨v, hv, hvw⟩ := ha.bound hw
      exact Update.hook?_of_attr? (hh.attr?_eq_none hvw (hno x v hv))
    have hcalls := he.calls_no_hook hmod hc hnew
    obtain ⟨s, m', hmerge⟩ := he.succeeds hcalls
    exact .inl ⟨s, m', hmerge, he.renewed hmod hcalls (.of_alike ha) (he.merged hmod hmerge)⟩
  · rw [← hname] at hrun₂
    have hmerge := merge_of_unit_error hrun₂
    rw [hname] at hmerge
    exact .inr ⟨hread, m₂, hmerge, Merge.extends_of_unit_error hrun₂⟩

end LivePatch
