/-
A merge that succeeds. Its hooks run code of their own between the updates of two names, but no code
that is called binds a name of a module; so each name is settled once, when its turn comes, and the
summary of the merge says of every name what has become of it.
-/
import LivePatch.Proofs.Module.Course

namespace LivePatch

/-! ## Summaries -/

namespace Summary

variable (s : Summary) (x : Name) (o : Outcome)

@[simp] theorem added_note : (s.note x o).added = s.added := by cases o <;> rfl

@[simp] theorem removed_note : (s.note x o).removed = s.removed := by cases o <;> rfl

variable {s x o}

theorem mem_patched_note {y : Name} :
    y ∈ (s.note x o).patched ↔ y ∈ s.patched ∨ y = x ∧ (o = .patched ∨ o = .hook) := by
  cases o <;> simp [note]

theorem mem_rebound_note {y : Name} :
    y ∈ (s.note x o).rebound ↔ y ∈ s.rebound ∨ y = x ∧ o = .rebound := by
  cases o <;> simp [note]

theorem nodup_note (hs : (s.patched ++ s.rebound).Nodup) (hx : x ∉ s.patched ++ s.rebound) :
    ((s.note x o).patched ++ (s.note x o).rebound).Nodup := by
  have hcons : (x :: (s.patched ++ s.rebound)).Nodup := List.nodup_cons.2 ⟨hx, hs⟩
  cases o with
  | unchanged => exact hs
  | patched | hook =>
    show (s.patched ++ [x] ++ s.rebound).Nodup
    rw [List.append_assoc, List.singleton_append]
    exact List.perm_middle.nodup_iff.2 hcons
  | rebound =>
    show (s.patched ++ (s.rebound ++ [x])).Nodup
    rw [← List.append_assoc]
    exact (List.perm_append_singleton x _).nodup_iff.2 hcons

end Summary

/-! ## One shared name -/

theorem Update.attr?_of_hook? {h : Heap} {v : Value} (hh : hook? h v = none) :
    h.attr? v updateHook = none := by
  unfold hook? at hh
  split at hh
  · cases hh
  · exact hh

theorem Update.hook?_of_attr? {h : Heap} {v : Value} (hv : h.attr? v updateHook = none) : hook? h v = none := by
  unfold hook?
  rw [hv]
  split
  · rename_i hf
    cases hf
  · rfl

namespace Merge

/-- What becomes of a shared name whose turn comes on a machine: what it is bound to, and what is
reported of it. -/
inductive Settled (limit : Nat) (m : Machine) (old new : Value) : Value → Outcome → Prop
  | unchanged (he : old = new) : Settled limit m old new old .unchanged
  | replaced (hk : old.kind ≠ new.kind) : Settled limit m old new new .rebound
  | asked {hook v : Value} {k m' : Machine} (ha : Update.Asks m old new hook k)
      (hc : Run.call limit hook [old] k = .ok v m') : Settled limit m old new v .hook
  | patched (hn : old ≠ new) (hk : old.kind = new.kind) (hh : m.heap.attr? new updateHook = none)
      (hp : old.Patchable) : Settled limit m old new old .patched
  | rebound (hn : old ≠ new) (hk : old.kind = new.kind) (hh : m.heap.attr? new updateHook = none)
      (hp : ¬ old.Patchable) : Settled limit m old new new .rebound

theorem Settled.of_performed {limit : Nat} {m m' : Machine} {old new : Value} {j j' : Journal}
    {u : Update} (hp : Update.Performed (Run.call limit) old new j m u j' m') :
    Settled limit m old new u.value u.outcome := by
  cases hp with
  | unchanged he => exact .unchanged he
  | replaced hk => exact .replaced hk
  | asked ha hc => exact .asked ha hc
  | inPlace hn hk hh =>
    have hh := Update.attr?_of_hook? hh
    rcases Update.inPlace_update hk ⟨j, m.heap⟩ with ⟨hp, hu⟩ | ⟨hp, hu⟩
    · rw [hu]
      exact .patched hn hk hh hp
    · rw [hu]
      exact .rebound hn hk hh hp

/-- A shared name with the values that it had and that the unit gave it is settled when its turn
comes, and reported so. -/
def Treats (limit : Nat) (u : CodeUnit) (module : ModuleRef) (m : Machine) (old new after : Bindings Value)
    (s : Summary) (x : Name) : Prop :=
  ∃ a v w b o, Turn limit u module m x a ∧ old.get? x = some v ∧ new.get? x = some w ∧
    Settled limit a.machine v w b o ∧ after.get? x = some b ∧
    (x ∈ s.patched ↔ o = .patched ∨ o = .hook) ∧ (x ∈ s.rebound ↔ o = .rebound)

/-! ## The opening -/

section Opening

variable {old new : Bindings Value}

theorem names_opening :
    (openingBindings (diff old new) new old).names =
      old.names.filter (· ∉ (diff old new).removed) ++ (diff old new).added :=
  names_openingBindings old new [selfName]

theorem get?_opening (x : Name) :
    (openingBindings (diff old new) new old).get? x =
      if x ∈ (diff old new).removed then none
      else if x ∈ (diff old new).added then new.get? x
      else old.get? x := by
  unfold openingBindings
  rw [Bindings.get?_eraseAll, Bindings.get?_adopt]
  split
  · rfl
  · split
    · rename_i hx
      obtain ⟨v, hv⟩ := Option.isSome_iff_exists.1 ((new.mem_names_iff x).1 (NameDiff.mem_added.1 hx).1)
      rw [hv]
      rfl
    · rfl

theorem shared_opening {x : Name} (hx : x ∈ (diff old new).shared) :
    x ∈ (openingBindings (diff old new) new old).names ∧
      (openingBindings (diff old new) new old).get? x = old.get? x := by
  obtain ⟨ho, hn⟩ := NameDiff.mem_shared.1 hx
  have ha : x ∉ (diff old new).added := fun ha => (NameDiff.mem_added.1 ha).2 ho
  have hr : x ∉ (diff old new).removed := fun hr => (NameDiff.mem_removed.1 hr).2.1 hn
  constructor
  · rw [names_opening, List.mem_append, List.mem_filter]
    exact .inl ⟨ho, decide_eq_true hr⟩
  · rw [get?_opening, if_neg hr, if_neg ha]

end Opening

/-! ## The course -/

section Course

variable {limit : Nat} {u : CodeUnit} {module : ModuleRef} {m m₁ : Machine}
  {old new after : Bindings Value} {done : List Name} {s : Summary}

theorem Treats.later {x y : Name} {v : Value} {o : Outcome}
    (h : Treats limit u module m old new after s x) (hne : x ≠ y) :
    Treats limit u module m old new (after.insert y v) (s.note y o) x := by
  obtain ⟨a, v', w, b, o', ht, hv, hw, hs, hb, hp, hr⟩ := h
  refine ⟨a, v', w, b, o', ht, hv, hw, hs, ?_, ?_, ?_⟩
  · rw [Bindings.get?_insert, if_neg hne]
    exact hb
  · rw [Summary.mem_patched_note, ← hp]
    simp [hne]
  · rw [Summary.mem_rebound_note, ← hr]
    simp [hne]

/-- How far a merge has come when some names are settled and the others still have the bindings of the
opening. -/
structure Progress (limit : Nat) (u : CodeUnit) (module : ModuleRef) (m : Machine)
    (old new : Bindings Value) (done : List Name) (after : Bindings Value) (s : Summary) : Prop where
  names : after.names = (openingBindings (diff old new) new old).names
  others : ∀ x, x ∉ done → after.get? x = (openingBindings (diff old new) new old).get? x
  added : s.added = (diff old new).added
  removed : s.removed = (diff old new).removed
  only : ∀ x ∈ s.patched ++ s.rebound, x ∈ done
  nodup : (s.patched ++ s.rebound).Nodup
  treats : ∀ x ∈ done, Treats limit u module m old new after s x

namespace Progress

theorem start (ha : s.added = (diff old new).added) (hr : s.removed = (diff old new).removed)
    (hp : s.patched ++ s.rebound = []) :
    Progress limit u module m old new [] (openingBindings (diff old new) new old) s where
  names := rfl
  others _ _ := rfl
  added := ha
  removed := hr
  only x hx := by
    rw [hp] at hx
    exact hx
  nodup := by
    rw [hp]
    exact List.nodup_nil
  treats x hx := by cases hx

theorem next (hp : Progress limit u module m old new done after s) {x : Name} (hx : x ∉ done)
    (hxs : x ∈ (diff old new).shared) {a : Stage} {v w b : Value} {o : Outcome}
    (ht : Turn limit u module m x a) (hv : old.get? x = some v) (hw : new.get? x = some w)
    (hs : Settled limit a.machine v w b o) :
    Progress limit u module m old new (done ++ [x]) (after.insert x b) (s.note x o) where
  names := by
    rw [Bindings.names_insert, hp.names, if_pos (shared_opening hxs).1]
  others y hy := by
    rw [List.mem_append, List.mem_singleton, not_or] at hy
    rw [Bindings.get?_insert, if_neg hy.2]
    exact hp.others y hy.1
  added := by rw [Summary.added_note, hp.added]
  removed := by rw [Summary.removed_note, hp.removed]
  only y hy := by
    rw [List.mem_append, Summary.mem_patched_note, Summary.mem_rebound_note] at hy
    rw [List.mem_append, List.mem_singleton]
    rcases hy with (hy | hy) | (hy | hy)
    · exact .inl (hp.only y (List.mem_append_left _ hy))
    · exact .inr hy.1
    · exact .inl (hp.only y (List.mem_append_right _ hy))
    · exact .inr hy.1
  nodup := Summary.nodup_note hp.nodup fun hm => hx (hp.only x hm)
  treats y hy := by
    by_cases hne : y = x
    · subst hne
      have hnp : y ∉ s.patched := fun hm => hx (hp.only y (List.mem_append_left _ hm))
      have hnr : y ∉ s.rebound := fun hm => hx (hp.only y (List.mem_append_right _ hm))
      refine ⟨a, v, w, b, o, ht, hv, hw, hs, ?_, ?_, ?_⟩
      · rw [Bindings.get?_insert, if_pos rfl]
      · rw [Summary.mem_patched_note]
        simp [hnp]
      · rw [Summary.mem_rebound_note]
        simp [hnr]
    · rw [List.mem_append, List.mem_singleton] at hy
      exact (hp.treats y (hy.resolve_right hne)).later hne

end Progress

theorem Executed.opening_scope (he : Executed limit u module m m₁) (hm : m.heap.HasModule module) :
    (opening m.heap.newScope.1 (m.heap.module module).scope m₁).machine.heap.scope
        (m.heap.module module).scope =
      openingBindings (diff (m.heap.bindings module) (m₁.heap.scope m.heap.newScope.1))
        (m₁.heap.scope m.heap.newScope.1) (m.heap.bindings module) := by
  rw [opening_heap hm.newScope_ne, ← he.live_eq hm]
  exact Arena.get_modify_self m₁.heap.scopes _ (he.live_lt hm)

/-- A merge makes progress with every name. -/
theorem Executed.progress (he : Executed limit u module m m₁) (hm : m.heap.HasModule module)
    {xs todo : List Name} (hxs : sharedNames module m m₁ = xs ++ todo) {a : Stage}
    (hp : Reaches limit module m m₁ xs a) :
    Progress limit u module m (m.heap.bindings module) (m₁.heap.scope m.heap.newScope.1) xs
      (a.machine.heap.scope (m.heap.module module).scope) a.summary := by
  refine he.induct (I := fun done a => Progress limit u module m (m.heap.bindings module)
    (m₁.heap.scope m.heap.newScope.1) done (a.machine.heap.scope (m.heap.module module).scope)
    a.summary) ?_ ?_ hxs hp
  · rw [he.opening_scope hm]
    refine .start ?_ ?_ rfl
    · rw [← he.live_eq hm]; rfl
    · rw [← he.live_eq hm]; rfl
  · intro done x todo a b hd ha hturn hprog hstep
    obtain ⟨hk, hscratch⟩ := he.reaches hm ha
    obtain ⟨hshared, hx⟩ := he.mem_shared hm hd
    -- no code that has run since the opening has bound the name
    have hlive := (hprog.others x hx).trans (shared_opening hshared).2
    cases hstep with
    | unbound hnone =>
      -- both sides bind the name, so this step cannot be taken
      obtain ⟨ho, hn⟩ := NameDiff.mem_shared.1 hshared
      rw [Bindings.mem_names_iff] at ho hn
      rw [hlive, hscratch] at hnone
      rcases hnone with hnone | hnone
      · rw [hnone] at ho
        cases ho
      · rw [hnone] at hn
        cases hn
    | @bound v w up j k ho hn hu =>
      have hafter : (k.heap.modifyScope (m.heap.module module).scope (·.insert x up.value)).scope
          (m.heap.module module).scope =
          (a.machine.heap.scope (m.heap.module module).scope).insert x up.value := by
        have hlt := Nat.lt_of_lt_of_le (he.live_lt hm) hk.scopes
        rw [← hu.persists.2 _ hlt]
        exact Arena.get_modify_self k.heap.scopes _ (Nat.lt_of_lt_of_le hlt hu.persists.1.scopes)
      dsimp only
      rw [hafter]
      rw [hscratch] at hn
      exact hprog.next hx hshared hturn (hlive.symm.trans ho) hn (.of_performed hu)

/-! ## The end -/

/-- What a merge that succeeds has made of the bindings of a module, given those that the unit has
made, and what its summary says. -/
structure Merged (limit : Nat) (u : CodeUnit) (module : ModuleRef) (m : Machine)
    (old new after : Bindings Value) (s : Summary) : Prop where
  added : s.added = new.names.filter (· ∉ old.names)
  removed : s.removed = old.names.filter fun x => x ∉ new.names ∧ x ≠ selfName
  names : after.names = old.names.filter (· ∉ s.removed) ++ s.added
  bound : ∀ x ∈ s.added, after.get? x = new.get? x
  /-- A name that stays though the unit does not bind it keeps its value. -/
  kept : ∀ x ∈ old.names, x ∉ new.names → x ∉ s.removed → after.get? x = old.get? x
  shared : ∀ x ∈ old.names, x ∈ new.names → Treats limit u module m old new after s x
  only : ∀ x ∈ s.patched ++ s.rebound, x ∈ old.names ∧ x ∈ new.names
  nodup : (s.added ++ s.removed ++ s.patched ++ s.rebound).Nodup

/-- Progress with every shared name is the end of the merge. -/
theorem Progress.merged (hp : Progress limit u module m old new (diff old new).shared after s) :
    Merged limit u module m old new after s where
  added := by
    rw [hp.added]
    unfold diff NameDiff.between
    simp
  removed := by
    rw [hp.removed]
    unfold diff NameDiff.between
    simp
  names := by rw [hp.names, names_opening, hp.removed, hp.added]
  bound x hx := by
    rw [hp.added] at hx
    obtain ⟨hn, ho⟩ := NameDiff.mem_added.1 hx
    have hr : x ∉ (diff old new).removed := fun hr => ho (NameDiff.mem_removed.1 hr).1
    rw [hp.others x fun hs => ho (NameDiff.mem_shared.1 hs).1, get?_opening, if_neg hr, if_pos hx]
  kept x ho hn hr := by
    rw [hp.removed] at hr
    have ha : x ∉ (diff old new).added := fun ha => hn (NameDiff.mem_added.1 ha).1
    rw [hp.others x fun hs => hn (NameDiff.mem_shared.1 hs).2, get?_opening, if_neg hr, if_neg ha]
  shared x ho hn := hp.treats x (NameDiff.mem_shared.2 ⟨ho, hn⟩)
  only x hx := NameDiff.mem_shared.1 (hp.only x hx)
  nodup := by
    rw [List.append_assoc, List.nodup_append, List.nodup_append, hp.added, hp.removed]
    refine ⟨⟨new.nodup.filter _, old.nodup.filter _, ?_⟩, hp.nodup, ?_⟩
    · rintro x ha _ hr rfl
      exact (NameDiff.mem_added.1 ha).2 (NameDiff.mem_removed.1 hr).1
    · rintro x har _ hs rfl
      obtain ⟨ho, hn⟩ := NameDiff.mem_shared.1 (hp.only x hs)
      rcases List.mem_append.1 har with ha | hr
      · exact (NameDiff.mem_added.1 ha).2 ho
      · exact (NameDiff.mem_removed.1 hr).2.1 hn

theorem Merged.eq_of_isEmpty (hm : Merged limit u module m old new after s) (he : s.isEmpty = true) :
    after = old := by
  simp only [Summary.isEmpty, Bool.and_eq_true, List.isEmpty_iff] at he
  obtain ⟨⟨⟨ha, hr⟩, hp⟩, hb⟩ := he
  have hnames : after.names = old.names := by
    rw [hm.names, ha, hr, List.append_nil]
    exact List.filter_eq_self.2 fun x _ => by simp
  refine Bindings.ext_get? hnames fun x => ?_
  -- a shared name that is not reported is unchanged
  by_cases ho : x ∈ old.names
  · by_cases hn : x ∈ new.names
    · obtain ⟨a, v, w, b, o, -, hv, -, hs, hab, hop, hob⟩ := hm.shared x ho hn
      rw [hp] at hop
      rw [hb] at hob
      cases hs with
      | unchanged => rw [hab, hv]
      | replaced | rebound => exact absurd (hob.2 rfl) (by simp)
      | asked => exact absurd (hop.2 (.inr rfl)) (by simp)
      | patched => exact absurd (hop.2 (.inl rfl)) (by simp)
    · exact hm.kept x ho hn (by rw [hr]; simp)
  · have ha : x ∉ after.names := by rwa [hnames]
    rw [Bindings.mem_names_iff, Bool.not_eq_true, Option.isSome_eq_false_iff, Option.isNone_iff_eq_none] at ho ha
    rw [ho, ha]

/-- The names of the module afterwards are those that the unit binds, and its own. -/
theorem Merged.mem_names (hm : Merged limit u module m old new after s) (hself : selfName ∈ old.names)
    (x : Name) : x ∈ after.names ↔ x ∈ new.names ∨ x = selfName := by
  rw [hm.names, List.mem_append, List.mem_filter, decide_eq_true_eq, hm.added, List.mem_filter,
    decide_eq_true_eq]
  have hr : x ∈ s.removed ↔ x ∈ old.names ∧ x ∉ new.names ∧ x ≠ selfName := by
    rw [hm.removed, List.mem_filter, decide_eq_true_eq]
  rw [hr]
  by_cases hx : x = selfName
  · subst hx
    simp [hself]
  · by_cases ho : x ∈ old.names <;> by_cases hn : x ∈ new.names <;> simp [hx, ho, hn]

/-- What a merge that succeeds has made of the bindings of its module. -/
theorem Executed.merged (he : Executed limit u module m m₁) (hm : m.heap.HasModule module) {m' : Machine}
    (h : merge limit u module m = .ok s m') :
    Merged limit u module m (m.heap.bindings module) (m₁.heap.scope m.heap.newScope.1)
      (m'.heap.bindings module) s := by
  obtain ⟨m₂, a, he₂, hp, rfl, rfl⟩ := Merge.succeeds h
  cases he.symm.trans he₂
  have hprog := he.progress hm (List.append_nil _).symm hp
  have hlater := he.persists.trans (he.reaches hm hp).1
  have hscope : a.machine.heap.bindings module = a.machine.heap.scope (m.heap.module module).scope :=
    congrArg a.machine.heap.scope (hlater.scope_module hm.module_lt)
  rw [he.sharedNames_eq hm, ← hscope] at hprog
  exact hprog.merged

end Course

end Merge

/-- A merge that succeeds has run its unit, has bound the names that are new, unbound those that are gone
and settled those that old and new share, and its summary says of every name what has become of it; an
empty one says that the bindings are as they were. -/
theorem merge_success {limit : Nat} {u : CodeUnit} {module : ModuleRef} {m m' : Machine} {s : Summary}
    (hm : m.heap.HasModule module) (h : merge limit u module m = .ok s m') :
    ∃ m₁, Merge.Executed limit u module m m₁ ∧
      Merge.Merged limit u module m (m.heap.bindings module) (m₁.heap.scope m.heap.newScope.1)
        (m'.heap.bindings module) s ∧
      (s.isEmpty = true → m'.heap.bindings module = m.heap.bindings module) := by
  obtain ⟨m₁, a, he, hp, rfl, rfl⟩ := Merge.succeeds h
  have hprog := he.progress hm (List.append_nil _).symm hp
  have hlater := he.persists.trans (he.reaches hm hp).1
  have hscope : a.machine.heap.bindings module = a.machine.heap.scope (m.heap.module module).scope :=
    congrArg a.machine.heap.scope (hlater.scope_module hm.module_lt)
  rw [he.sharedNames_eq hm, ← hscope] at hprog
  exact ⟨m₁, he, hprog.merged, hprog.merged.eq_of_isEmpty⟩

namespace Sample

def number (x : Name) (n : Int64) : Stmt := .bind x (.int n .dummy) .dummy

/-- A module, and a unit that adds, removes, patches, rebinds and leaves alone one name each. -/
def versionOne : Machine := machine [constant "f" 1, number "gone" 1, number "x" 1, number "same" 1]

def versionTwo : CodeUnit := ⟨"m", [constant "f" 2, number "x" 2, number "same" 1, number "fresh" 3]⟩

end Sample

theorem merge_success_versions :
    ∃ m' m₁, merge 10 Sample.versionTwo Sample.module Sample.versionOne =
        .ok ⟨["fresh"], ["gone"], ["f"], ["x"]⟩ m' ∧
      Merge.Executed 10 Sample.versionTwo Sample.module Sample.versionOne m₁ ∧
      Merge.Merged 10 Sample.versionTwo Sample.module Sample.versionOne
        (Sample.versionOne.heap.bindings Sample.module)
        (m₁.heap.scope Sample.versionOne.heap.newScope.1) (m'.heap.bindings Sample.module)
        ⟨["fresh"], ["gone"], ["f"], ["x"]⟩ := by
  obtain ⟨m', h⟩ : ∃ m', merge 10 Sample.versionTwo Sample.module Sample.versionOne =
      .ok ⟨["fresh"], ["gone"], ["f"], ["x"]⟩ m' := ⟨_, rfl⟩
  obtain ⟨m₁, he, hm, -⟩ := merge_success ⟨by decide +kernel, by decide +kernel⟩ h
  exact ⟨m', m₁, h, he, hm⟩

end LivePatch
