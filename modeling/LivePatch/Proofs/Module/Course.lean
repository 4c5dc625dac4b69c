/-
The course of a merge. A merge runs its unit, takes over the names that are new, gives up those that
are gone, and then updates the names that old and new share one after the other. Between two of these
updates it is at a stage; what one update does to a stage, and how a merge ends from there, is what
every theorem about merges starts from.
-/
import LivePatch.Module.Merge
import LivePatch.Proofs.Machine.Footprint
import LivePatch.Proofs.Machine.Isolation
import LivePatch.Proofs.Module.Patch
import Mathlib.Data.List.Induction

namespace LivePatch

/-! ## One value -/

namespace Update

variable {call : Caller} {old new : Value} {j : Journal} {m : Machine}

/-- The new value decides about the old one: the hook that it gives, and the machine on which the hook is
then called. -/
structure Asks (m : Machine) (old new hook : Value) (k : Machine) : Prop where
  differ : old ≠ new
  sameKind : old.kind = new.kind
  found : ∃ a, hook? m.heap new = some a ∧ hook = (m.heap.obtain a).1 ∧
    k = { m with heap := (m.heap.obtain a).2 }

/-- The ways in which a value is brought up to date. -/
inductive Performed (call : Caller) (old new : Value) (j : Journal) (m : Machine) :
    Update → Journal → Machine → Prop
  | unchanged (he : old = new) : Performed call old new j m ⟨old, .unchanged⟩ j m
  | replaced (hk : old.kind ≠ new.kind) : Performed call old new j m ⟨new, .rebound⟩ j m
  | asked {hook v : Value} {k m' : Machine} (ha : Asks m old new hook k)
      (hc : call hook [old] k = .ok v m') : Performed call old new j m ⟨v, .hook⟩ j m'
  | inPlace (hn : old ≠ new) (hk : old.kind = new.kind) (hh : hook? m.heap new = none) :
      Performed call old new j m (inPlace old new ⟨j, m.heap⟩).1 (inPlace old new ⟨j, m.heap⟩).2.journal
        { m with heap := (inPlace old new ⟨j, m.heap⟩).2.heap }

/-- A value is brought up to date, or its hook fails. -/
theorem perform_cases (call : Caller) (old new : Value) (j : Journal) (m : Machine) :
    (∃ u j' m', perform call old new j m = .ok (u, j') m' ∧ Performed call old new j m u j' m') ∨
      ∃ hook k e m', Asks m old new hook k ∧ call hook [old] k = .error e m' ∧
        perform call old new j m = .error e m' := by
  unfold perform
  split
  · exact .inl ⟨_, _, _, rfl, .unchanged ‹_›⟩
  · rename_i hn
    split
    · exact .inl ⟨_, _, _, rfl, .replaced ‹_›⟩
    · rename_i hk
      have hk := Decidable.not_not.1 hk
      -- what is left looks for the hook and then calls it
      show (∃ u j' m', EStateM.bind (Run.read (hook? · new)) _ m = .ok (u, j') m' ∧ _) ∨
        ∃ hook k e m', _ ∧ _ ∧ EStateM.bind (Run.read (hook? · new)) _ m = .error e m'
      unfold EStateM.bind Run.read
      simp only
      cases hh : hook? m.heap new with
      | none => exact .inl ⟨_, _, _, rfl, .inPlace hn hk hh⟩
      | some a =>
        let k : Machine := { m with heap := (m.heap.obtain a).2 }
        have ha : Asks m old new (m.heap.obtain a).1 k := ⟨hn, hk, a, hh, rfl, rfl⟩
        show (∃ u j' m', EStateM.bind (call (m.heap.obtain a).1 [old]) _ k = .ok (u, j') m' ∧ _) ∨
          ∃ hook k' e m', _ ∧ _ ∧ EStateM.bind (call (m.heap.obtain a).1 [old]) _ k = .error e m'
        unfold EStateM.bind
        cases hc : call (m.heap.obtain a).1 [old] k with
        | ok v m' => exact .inl ⟨_, _, _, rfl, .asked ha hc⟩
        | error e m' => exact .inr ⟨_, _, _, _, ha, hc, rfl⟩

theorem Asks.extends {hook : Value} {k : Machine} (ha : Asks m old new hook k) : m.heap.Extends k.heap := by
  obtain ⟨a, -, -, rfl⟩ := ha.found
  exact m.heap.extends_obtain a

/-- Bringing a value up to date leaves every namespace as it is. -/
theorem Performed.persists {limit : Nat} {u : Update} {j' : Journal} {m' : Machine}
    (hp : Performed (Run.call limit) old new j m u j' m') :
    m.heap.Persists m'.heap ∧
      ∀ r : ScopeRef, r.index < m.heap.scopes.size → m'.heap.scope r = m.heap.scope r := by
  cases hp with
  | unchanged | replaced => exact ⟨.refl m.heap, fun _ _ => rfl⟩
  | @asked hook v k m' ha hc =>
    have hf := Run.call_footprint limit hook [old] k
    rw [hc] at hf
    have hf := ha.extends.footprint.trans hf
    exact ⟨hf.persists, fun r hr => hf.scope_eq hr⟩
  | inPlace => exact inPlace_persists old new ⟨j, m.heap⟩

end Update

/-! ## Names that come and go -/

namespace Bindings

variable {α : Type} (b new : Bindings α) (xs : List Name)

def adopt : Bindings α :=
  xs.foldl (fun b x =>
    match new.get? x with
    | some v => b.insert x v
    | none => b) b

def eraseAll : Bindings α := xs.foldl (fun b x => b.erase x) b

theorem adopt_cons {x : Name} {v : α} (hx : new.get? x = some v) :
    b.adopt new (x :: xs) = (b.insert x v).adopt new xs := by
  unfold adopt
  rw [List.foldl_cons, hx]

theorem adopt_cons_none {x : Name} (hx : new.get? x = none) :
    b.adopt new (x :: xs) = b.adopt new xs := by
  unfold adopt
  rw [List.foldl_cons, hx]

theorem adopt_append (ys : List Name) : b.adopt new (xs ++ ys) = (b.adopt new xs).adopt new ys :=
  List.foldl_append

theorem get?_adopt (y : Name) :
    (b.adopt new xs).get? y = if y ∈ xs then (new.get? y).or (b.get? y) else b.get? y := by
  induction xs generalizing b with
  | nil => rfl
  | cons x xs ih =>
    cases hx : new.get? x with
    | none =>
      rw [adopt_cons_none b new xs hx, ih]
      by_cases hy : y = x
      · subst hy
        simp [hx]
      · simp [hy]
    | some v =>
      rw [adopt_cons b new xs hx, ih, get?_insert]
      by_cases hy : y = x
      · subst hy
        simp [hx]
      · simp [hy]

theorem names_adopt (hn : ∀ x ∈ xs, x ∈ new.names) (hb : ∀ x ∈ xs, x ∉ b.names) (hd : xs.Nodup) :
    (b.adopt new xs).names = b.names ++ xs := by
  induction xs generalizing b with
  | nil => simp [adopt]
  | cons x xs ih =>
    have hx := (new.mem_names_iff x).1 (hn x (List.mem_cons_self ..))
    obtain ⟨v, hx⟩ := Option.isSome_iff_exists.1 hx
    have hnb := hb x (List.mem_cons_self ..)
    rw [List.nodup_cons] at hd
    have hi : (b.insert x v).names = b.names ++ [x] := by rw [names_insert, if_neg hnb]
    rw [adopt_cons b new xs hx, ih _ (fun y hy => hn y (List.mem_cons_of_mem _ hy)) ?_ hd.2, hi,
      List.append_assoc, List.singleton_append]
    intro y hy hm
    rw [hi, List.mem_append, List.mem_singleton] at hm
    rcases hm with hm | rfl
    · exact hb y (List.mem_cons_of_mem _ hy) hm
    · exact hd.1 hy

theorem names_adopt_of_mem (hb : ∀ x ∈ xs, x ∈ b.names) : (b.adopt new xs).names = b.names := by
  induction xs generalizing b with
  | nil => rfl
  | cons x xs ih =>
    cases hx : new.get? x with
    | none =>
      rw [adopt_cons_none b new xs hx]
      exact ih b fun y hy => hb y (List.mem_cons_of_mem _ hy)
    | some v =>
      have hi : (b.insert x v).names = b.names := by rw [names_insert, if_pos (hb x (List.mem_cons_self ..))]
      rw [adopt_cons b new xs hx, ih _ fun y hy => ?_, hi]
      rw [hi]
      exact hb y (List.mem_cons_of_mem _ hy)

theorem mem_values_adopt {w : α} (hw : w ∈ (b.adopt new xs).values) : w ∈ b.values ∨ w ∈ new.values := by
  induction xs generalizing b with
  | nil => exact .inl hw
  | cons x xs ih =>
    cases hx : new.get? x with
    | none =>
      rw [adopt_cons_none b new xs hx] at hw
      exact ih b hw
    | some v =>
      rw [adopt_cons b new xs hx] at hw
      rcases ih _ hw with hw | hw
      · rcases mem_values_insert hw with rfl | hw
        · exact .inr (mem_values_of_get? hx)
        · exact .inl hw
      · exact .inr hw

theorem get?_eraseAll (y : Name) :
    (b.eraseAll xs).get? y = if y ∈ xs then none else b.get? y := by
  induction xs generalizing b with
  | nil => rfl
  | cons x xs ih =>
    show ((b.erase x).eraseAll xs).get? y = _
    rw [ih, get?_erase]
    by_cases hy : y = x <;> simp [hy]

theorem names_eraseAll : (b.eraseAll xs).names = b.names.filter (· ∉ xs) := by
  induction xs generalizing b with
  | nil => exact (List.filter_eq_self.2 (by simp)).symm
  | cons x xs ih =>
    show ((b.erase x).eraseAll xs).names = _
    rw [ih, names_erase, List.filter_filter]
    congr 1
    funext y
    by_cases hy : y = x <;> simp [hy]

theorem mem_values_eraseAll {w : α} (hw : w ∈ (b.eraseAll xs).values) : w ∈ b.values := by
  induction xs generalizing b with
  | nil => exact hw
  | cons x xs ih => exact mem_values_erase (ih _ hw)

end Bindings

namespace Merge

theorem addNames_eq {scratch live : ScopeRef} (hne : scratch ≠ live) (xs : List Name) (h : Heap) :
    addNames scratch live xs h = h.modifyScope live (·.adopt (h.scope scratch) xs) := by
  induction xs generalizing h with
  | nil => exact (h.modifyScope_id live).symm
  | cons x xs ih =>
    cases hx : (h.scope scratch).get? x with
    | none =>
      have hcons : addNames scratch live (x :: xs) h = addNames scratch live xs h := by
        unfold addNames
        rw [List.foldl_cons, hx]
      rw [hcons, ih]
      congr 1
      funext b
      exact (b.adopt_cons_none _ xs hx).symm
    | some v =>
      have hcons : addNames scratch live (x :: xs) h =
          addNames scratch live xs (h.modifyScope live (·.insert x v)) := by
        unfold addNames
        rw [List.foldl_cons, hx]
      have hs : (h.modifyScope live (·.insert x v)).scope scratch = h.scope scratch :=
        Arena.get_modify_of_ne h.scopes _ hne
      rw [hcons, ih, hs]
      refine (h.modifyScope_modifyScope live _ _).trans ?_
      congr 1
      funext b
      exact (b.adopt_cons _ xs hx).symm

theorem removeNames_eq (live : ScopeRef) (xs : List Name) (h : Heap) :
    removeNames live xs h = h.modifyScope live (·.eraseAll xs) := by
  induction xs generalizing h with
  | nil => exact (h.modifyScope_id live).symm
  | cons x xs ih =>
    show removeNames live xs (h.modifyScope live (·.erase x)) = _
    rw [ih]
    exact h.modifyScope_modifyScope live _ _

end Merge

/-! ## The shared names -/

namespace Merge

/-- A stage of a merge: a moment before, between or after the updates of shared names. -/
structure Stage where
  summary : Summary
  journal : Journal
  machine : Machine

section Names

variable (call : Caller) (scratch live : ScopeRef)

/-- From one stage to another, all of the names are updated. -/
def Passes (a : Stage) (xs : List Name) (b : Stage) : Prop :=
  updateNames call scratch live xs a.summary a.journal a.machine = ⟨.ok b.summary, b.journal, b.machine⟩

/-- From one stage to the next, one name is updated. -/
inductive Step (x : Name) (a : Stage) : Stage → Prop
  | unbound (hx : (a.machine.heap.scope live).get? x = none ∨ (a.machine.heap.scope scratch).get? x = none) :
      Step x a a
  | bound {old new : Value} {u : Update} {j : Journal} {m : Machine}
      (ho : (a.machine.heap.scope live).get? x = some old)
      (hn : (a.machine.heap.scope scratch).get? x = some new)
      (hp : Update.Performed call old new a.journal a.machine u j m) :
      Step x a ⟨a.summary.note x u.outcome, j,
        { m with heap := m.heap.modifyScope live (·.insert x u.value) }⟩

/-- When the turn of a name comes, its new value decides about the old one. -/
def AsksAt (x : Name) (a : Stage) (old hook : Value) (k : Machine) : Prop :=
  (a.machine.heap.scope live).get? x = some old ∧
    ∃ new, (a.machine.heap.scope scratch).get? x = some new ∧ Update.Asks a.machine old new hook k

theorem updateNames_singleton (x : Name) (a : Stage) :
    (∃ b, Step call scratch live x a b ∧ Passes call scratch live a [x] b) ∨
      ∃ old hook k e m, AsksAt scratch live x a old hook k ∧ call hook [old] k = .error e m ∧
        updateNames call scratch live [x] a.summary a.journal a.machine =
          ⟨.error (e.map (.patch x)), a.journal, m⟩ := by
  unfold Passes
  rw [updateNames]
  split
  · rename_i old new ho hn
    rcases Update.perform_cases call old new a.journal a.machine with
      ⟨u, j, m, hr, hp⟩ | ⟨hook, k, e, m, ha, hc, hr⟩
    · rw [hr]
      exact .inl ⟨_, .bound ho hn hp, rfl⟩
    · rw [hr]
      exact .inr ⟨old, hook, k, e, m, ⟨ho, new, hn, ha⟩, hc, rfl⟩
  · rename_i hx
    refine .inl ⟨a, .unbound ?_, rfl⟩
    cases ho : (a.machine.heap.scope live).get? x with
    | none => exact .inl rfl
    | some old =>
      cases hn : (a.machine.heap.scope scratch).get? x with
      | none => exact .inr rfl
      | some new => exact absurd hn (hx old new ho)

theorem updateNames_append (ys : List Name) :
    ∀ (xs : List Name) (s : Summary) (j : Journal) (m : Machine),
      updateNames call scratch live (xs ++ ys) s j m =
        match updateNames call scratch live xs s j m with
        | ⟨.ok s, j, m⟩ => updateNames call scratch live ys s j m
        | stop => stop
  | [], s, j, m => rfl
  | x :: xs, s, j, m => by
    rw [List.cons_append, updateNames, updateNames]
    split
    · split
      · exact updateNames_append ys xs _ _ _
      · rfl
    · exact updateNames_append ys xs _ _ _

variable {call scratch live}

theorem Passes.nil {a b : Stage} (h : Passes call scratch live a [] b) : b = a := by
  unfold Passes updateNames at h
  cases a; cases b; cases h; rfl

theorem Passes.unique {xs : List Name} {a b c : Stage} (hb : Passes call scratch live a xs b)
    (hc : Passes call scratch live a xs c) : b = c := by
  unfold Passes at hb hc
  rw [hb] at hc
  cases b; cases c; cases hc; rfl

theorem Passes.singleton {x : Name} {a b : Stage} (h : Passes call scratch live a [x] b) :
    Step call scratch live x a b := by
  rcases updateNames_singleton call scratch live x a with
    ⟨c, hs, hc⟩ | ⟨_, _, _, _, _, _, _, hr⟩
  · rw [h.unique hc]
    exact hs
  · unfold Passes at h
    rw [hr] at h
    cases h

theorem passes_append {xs ys : List Name} {a c : Stage} :
    Passes call scratch live a (xs ++ ys) c ↔
      ∃ b, Passes call scratch live a xs b ∧ Passes call scratch live b ys c := by
  unfold Passes
  rw [updateNames_append]
  constructor
  · intro h
    split at h
    · rename_i s j m hr
      exact ⟨⟨s, j, m⟩, hr, h⟩
    · rename_i hr
      exact absurd h (hr _ _ _)
  · rintro ⟨b, hb, hc⟩
    rw [hb]
    exact hc

/-- What holds at a first stage and is kept by every update of a name holds when all names are
updated. -/
theorem Passes.induct {I : List Name → Stage → Prop} {a : Stage} (start : I [] a)
    (step : ∀ {done x b c}, Passes call scratch live a done b → I done b →
      Step call scratch live x b c → I (done ++ [x]) c) (xs : List Name) :
    ∀ {b : Stage}, Passes call scratch live a xs b → I xs b := by
  induction xs using List.reverseRecOn with
  | nil =>
    intro b h
    rw [h.nil]
    exact start
  | append_singleton xs x ih =>
    intro c h
    obtain ⟨b, hb, hc⟩ := passes_append.1 h
    exact step hb (ih hb) hc.singleton

/-- When not all names are updated, the hook of one of them has failed. -/
theorem updateNames_stops {e : Halt ModuleError} {j : Journal} {m : Machine} (xs : List Name) :
    ∀ {a : Stage},
      updateNames call scratch live xs a.summary a.journal a.machine = ⟨.error e, j, m⟩ →
      ∃ done x todo b old hook k e', xs = done ++ x :: todo ∧ Passes call scratch live a done b ∧
        AsksAt scratch live x b old hook k ∧ call hook [old] k = .error e' m ∧
        e = e'.map (.patch x) ∧ j = b.journal := by
  induction xs with
  | nil => intro a h; cases h
  | cons x xs ih =>
    intro a h
    have happ := updateNames_append call scratch live xs [x]
      a.summary a.journal a.machine
    rw [List.singleton_append, h] at happ
    rcases updateNames_singleton call scratch live x a with
      ⟨b, -, hb⟩ | ⟨old, hook, k, e', m', ha, hc, hr⟩
    · -- the first name is updated, so it is a later one whose hook fails
      have hb' := hb
      unfold Passes at hb'
      rw [hb'] at happ
      obtain ⟨done, y, todo, c, old, hook, k, e', rfl, hp, hrest⟩ := ih happ.symm
      have hp : Passes call scratch live a (x :: done) c := passes_append.2 ⟨b, hb, hp⟩
      exact ⟨x :: done, y, todo, c, old, hook, k, e', rfl, hp, hrest⟩
    · rw [hr] at happ
      cases happ
      exact ⟨[], x, xs, a, old, hook, k, e', rfl, rfl, ha, hc, rfl, rfl⟩

end Names

/-! ## The whole of a merge -/

def diff (old new : Bindings Value) : NameDiff := NameDiff.between old.names new.names [selfName]

/-- The stage before the first shared name: new names are bound, and names that are gone unbound. -/
def opening (scratch live : ScopeRef) (m : Machine) : Stage :=
  let d := diff (m.heap.scope live) (m.heap.scope scratch)
  ⟨{ Summary.none with added := d.added, removed := d.removed }, Journal.start m.heap live,
    { m with heap := removeNames live d.removed (addNames scratch live d.added m.heap) }⟩

/-- The bindings of the opening: new names are bound, and names that are gone unbound. -/
def openingBindings (d : NameDiff) (new b : Bindings Value) : Bindings Value :=
  (b.adopt new d.added).eraseAll d.removed

/-- The names that stay come first, in their order. -/
theorem names_openingBindings (old new : Bindings Value) (exempt : List Name) :
    let d := NameDiff.between old.names new.names exempt
    (openingBindings d new old).names = old.names.filter (· ∉ d.removed) ++ d.added := by
  intro d
  unfold openingBindings
  rw [Bindings.names_eraseAll, Bindings.names_adopt, List.filter_append]
  · congr 1
    refine List.filter_eq_self.2 fun x hx => decide_eq_true fun hr => ?_
    exact (NameDiff.mem_added.1 hx).2 (NameDiff.mem_removed.1 hr).1
  · exact fun x hx => (NameDiff.mem_added.1 hx).1
  · exact fun x hx => (NameDiff.mem_added.1 hx).2
  · exact new.nodup.filter _

theorem opening_heap {scratch live : ScopeRef} (hne : scratch ≠ live) (m : Machine) :
    (opening scratch live m).machine.heap =
      m.heap.modifyScope live
        (openingBindings (diff (m.heap.scope live) (m.heap.scope scratch)) (m.heap.scope scratch)) := by
  show removeNames live _ (addNames scratch live _ m.heap) = _
  rw [removeNames_eq, addNames_eq hne]
  exact m.heap.modifyScope_modifyScope live _ _

theorem opening_persists {scratch live : ScopeRef} (hne : scratch ≠ live) (m : Machine) :
    m.heap.Persists (opening scratch live m).machine.heap := by
  rw [opening_heap hne]
  exact m.heap.persists_modifyScope _ _

theorem Passes.persists {limit : Nat} {scratch live : ScopeRef} {a b : Stage} {xs : List Name}
    (h : Passes (Run.call limit) scratch live a xs b) :
    a.machine.heap.Persists b.machine.heap ∧
      ∀ s : ScopeRef, s.index < a.machine.heap.scopes.size → s ≠ live →
        b.machine.heap.scope s = a.machine.heap.scope s := by
  refine Passes.induct (I := fun _ b => a.machine.heap.Persists b.machine.heap ∧
    ∀ s : ScopeRef, s.index < a.machine.heap.scopes.size → s ≠ live →
      b.machine.heap.scope s = a.machine.heap.scope s) ⟨.refl _, fun _ _ _ => rfl⟩ ?_ xs h
  rintro done x b c - ⟨hp, hs⟩ hstep
  cases hstep with
  | unbound => exact ⟨hp, hs⟩
  | @bound _ _ _ _ k _ _ hu =>
    obtain ⟨hk, hks⟩ := hu.persists
    refine ⟨(hp.trans hk).trans (k.heap.persists_modifyScope _ _), fun s hlt hne => ?_⟩
    rw [show (k.heap.modifyScope live _).scope s = k.heap.scope s from
      Arena.get_modify_of_ne k.heap.scopes _ hne, hks s (Nat.lt_of_lt_of_le hlt hp.scopes), hs s hlt hne]

theorem mem_values_openingBindings {d : NameDiff} {new b : Bindings Value} {w : Value}
    (hw : w ∈ (openingBindings d new b).values) : w ∈ b.values ∨ w ∈ new.values :=
  Bindings.mem_values_adopt _ _ _ (Bindings.mem_values_eraseAll _ _ hw)

section Whole

variable (limit : Nat) (u : CodeUnit) (module : ModuleRef) (m : Machine)

/-- The unit has run to its end in a namespace of its own. -/
def Executed (m₁ : Machine) : Prop :=
  u.run limit m.heap.newScope.1 (m.heap.module module).name { m with heap := m.heap.newScope.2 } =
    .ok () m₁

/-- The names that the module and its unit share, when the unit has run to its end. -/
def sharedNames (m₁ : Machine) : List Name :=
  (diff (m₁.heap.scope (m.heap.module module).scope) (m₁.heap.scope m.heap.newScope.1)).shared

/-- The opening and the updates of some names lead to a stage. -/
def Reaches (m₁ : Machine) (xs : List Name) (a : Stage) : Prop :=
  Passes (Run.call limit) m.heap.newScope.1 (m.heap.module module).scope
    (opening m.heap.newScope.1 (m.heap.module module).scope m₁) xs a

/-- The turn of a shared name comes at a stage: the shared names before it are updated. -/
def Turn (x : Name) (a : Stage) : Prop :=
  ∃ m₁ done todo, Executed limit u module m m₁ ∧ sharedNames module m m₁ = done ++ x :: todo ∧
    Reaches limit module m m₁ done a

/-- In the course of the merge a hook is called with an old value, on a machine. -/
def CallsHook (hook old : Value) (k : Machine) : Prop :=
  ∃ x a, Turn limit u module m x a ∧ AsksAt m.heap.newScope.1 (m.heap.module module).scope x a old hook k

variable {limit u module m} {m₁ : Machine}

/-! ## The unit -/

/-- A unit that fails has changed nothing that was there. -/
theorem extends_of_unit_error {e : Halt RunError} {m' : Machine}
    (h : u.run limit m.heap.newScope.1 (m.heap.module module).name { m with heap := m.heap.newScope.2 } =
      .error e m') : m.heap.Extends m'.heap := by
  rw [← show Run.final _ = m' from congrArg Run.final h]
  exact (u.run_isolated (Nat.le_refl _) m.heap.newScope_isolated limit _).1.kept

namespace Executed

/-- The unit has changed nothing that was there, and its namespace holds only what it has made. -/
theorem isolated (h : Executed limit u module m m₁) :
    Isolated m.heap m.heap.newScope.1 m₁.heap ∧ m.heap.newScope.2.Persists m₁.heap := by
  have hf := congrArg Run.final h
  rw [← show Run.final _ = m₁ from hf]
  exact u.run_isolated (Nat.le_refl _) m.heap.newScope_isolated limit _

theorem persists (h : Executed limit u module m m₁) : m.heap.Persists m₁.heap :=
  h.isolated.1.kept.footprint.persists

theorem live_eq (h : Executed limit u module m m₁) (hm : m.heap.HasModule module) :
    m₁.heap.scope (m.heap.module module).scope = m.heap.bindings module :=
  h.isolated.1.kept.scopes.get _ hm.scope_lt

theorem live_lt (h : Executed limit u module m m₁) (hm : m.heap.HasModule module) :
    (m.heap.module module).scope.index < m₁.heap.scopes.size :=
  Nat.lt_of_lt_of_le hm.scope_lt h.persists.scopes

theorem scratch_lt (h : Executed limit u module m m₁) :
    m.heap.newScope.1.index < m₁.heap.scopes.size := by
  have hle := h.isolated.2.scopes
  have hnew : m.heap.newScope.2.scopes.size = m.heap.scopes.size + 1 := Arena.size_push _ _
  have hindex : m.heap.newScope.1.index = m.heap.scopes.size := rfl
  omega

/-- The shared names are those that the module had and the unit has bound. -/
theorem sharedNames_eq (h : Executed limit u module m m₁) (hm : m.heap.HasModule module) :
    sharedNames module m m₁ =
      (diff (m.heap.bindings module) (m₁.heap.scope m.heap.newScope.1)).shared := by
  rw [← h.live_eq hm]
  rfl

theorem nodup_sharedNames (h : Executed limit u module m m₁) (hm : m.heap.HasModule module) :
    (sharedNames module m m₁).Nodup := by
  rw [h.sharedNames_eq hm]
  exact (Bindings.nodup _).filter _

/-- A shared name whose turn comes is bound on both sides, and its turn does not come twice. -/
theorem mem_shared (h : Executed limit u module m m₁) (hm : m.heap.HasModule module) {x : Name}
    {done todo : List Name} (hd : sharedNames module m m₁ = done ++ x :: todo) :
    x ∈ (diff (m.heap.bindings module) (m₁.heap.scope m.heap.newScope.1)).shared ∧ x ∉ done := by
  have hnd := h.nodup_sharedNames hm
  rw [hd] at hnd
  constructor
  · rw [← h.sharedNames_eq hm, hd]
    simp
  · intro hx
    exact (List.nodup_append.1 hnd).2.2 x hx x (List.mem_cons_self ..) rfl

/-- The updates of shared names leave alone what the unit has bound, and lose no object. -/
theorem reaches (h : Executed limit u module m m₁) (hm : m.heap.HasModule module) {xs : List Name}
    {a : Stage} (hp : Reaches limit module m m₁ xs a) :
    m₁.heap.Persists a.machine.heap ∧
      a.machine.heap.scope m.heap.newScope.1 = m₁.heap.scope m.heap.newScope.1 := by
  have ho := opening_persists hm.newScope_ne m₁
  obtain ⟨hk, hs⟩ := Passes.persists hp
  refine ⟨ho.trans hk, ?_⟩
  rw [hs _ (Nat.lt_of_lt_of_le h.scratch_lt ho.scopes) hm.newScope_ne, opening_heap hm.newScope_ne]
  exact Arena.get_modify_of_ne m₁.heap.scopes _ hm.newScope_ne

/-- What holds after the opening and is kept whenever the turn of a name comes holds to the end. -/
theorem induct (h : Executed limit u module m m₁) {I : List Name → Stage → Prop}
    (start : I [] (opening m.heap.newScope.1 (m.heap.module module).scope m₁))
    (step : ∀ {done x todo a b}, sharedNames module m m₁ = done ++ x :: todo →
      Reaches limit module m m₁ done a → Turn limit u module m x a → I done a →
      Step (Run.call limit) m.heap.newScope.1 (m.heap.module module).scope x a b → I (done ++ [x]) b)
    {xs todo : List Name} (hxs : sharedNames module m m₁ = xs ++ todo) {a : Stage}
    (hp : Reaches limit module m m₁ xs a) : I xs a := by
  refine Passes.induct (I := fun done a => ∀ todo, sharedNames module m m₁ = done ++ todo → I done a)
    (fun _ _ => start) ?_ xs hp todo hxs
  intro done x a b ha ih hstep todo hdone
  rw [List.append_assoc, List.singleton_append] at hdone
  exact step hdone ha ⟨m₁, done, todo, h, hdone, ha⟩ (ih _ hdone) hstep

end Executed

theorem Turn.persists (hm : m.heap.HasModule module) {x : Name} {a : Stage}
    (ht : Turn limit u module m x a) : m.heap.Persists a.machine.heap := by
  obtain ⟨m₁, done, todo, he, -, hp⟩ := ht
  exact he.persists.trans (he.reaches hm hp).1

/-! ## The end -/

/-- A merge that succeeds has run its unit and updated every shared name. -/
theorem succeeds {s : Summary} {m' : Machine} (h : merge limit u module m = .ok s m') :
    ∃ m₁ a, Executed limit u module m m₁ ∧ Reaches limit module m m₁ (sharedNames module m m₁) a ∧
      s = a.summary ∧ m' = a.machine := by
  unfold merge at h
  simp only at h
  split at h
  · rename_i m₁ hr
    unfold Merge.apply at h
    simp only at h
    split at h
    · rename_i s' j m₂ hu
      cases h
      exact ⟨m₁, ⟨s, j, m'⟩, hr, hu, rfl, rfl⟩
    · cases h
    · cases h
  · cases h

/-- A merge that does not succeed has run a unit that does not, or it has met such a hook. When the hook
fails, the merge goes back. -/
theorem stops {e : Halt ModuleError} {m' : Machine} (h : merge limit u module m = .error e m') :
    (∃ e', u.run limit m.heap.newScope.1 (m.heap.module module).name
        { m with heap := m.heap.newScope.2 } = .error e' m') ∨
      ∃ x a old hook k e' m₂, Turn limit u module m x a ∧
        AsksAt m.heap.newScope.1 (m.heap.module module).scope x a old hook k ∧
        Run.call limit hook [old] k = .error e' m₂ ∧
        (m' = { m₂ with heap := a.journal.rollback m₂.heap } ∨ e = .divergence ∧ m' = m₂) := by
  unfold merge at h
  simp only at h
  split at h
  · rename_i m₁ hr
    unfold Merge.apply at h
    simp only at h
    split at h
    · cases h
    · rename_i e' j m₂ hu
      cases h
      obtain ⟨done, x, todo, a, old, hook, k, e', hs, hp, ha, hc, -, rfl⟩ :=
        updateNames_stops (a := opening m.heap.newScope.1 (m.heap.module module).scope m₁) _ hu
      exact .inr ⟨x, a, old, hook, k, e', m₂, ⟨m₁, done, todo, hr, hs, hp⟩, ha, hc, .inl rfl⟩
    · rename_i j m₂ hu
      cases h
      obtain ⟨done, x, todo, a, old, hook, k, e', hs, hp, ha, hc, -, rfl⟩ :=
        updateNames_stops (a := opening m.heap.newScope.1 (m.heap.module module).scope m₁) _ hu
      exact .inr ⟨x, a, old, hook, k, e', m', ⟨m₁, done, todo, hr, hs, hp⟩, ha, hc, .inr ⟨rfl, rfl⟩⟩
  · rename_i e' m₁ hr
    injection h with _ hm
    exact .inl ⟨e', hm ▸ hr⟩

end Whole

end Merge

/-! ## A small module -/

namespace Sample

/-- A function without parameters that returns a number. -/
def constant (x : Name) (n : Int64) : Stmt :=
  .function x [] [.leave (some (.int n .dummy)) .dummy] none .dummy

/-- The empty module `m`. -/
def module : ModuleRef := (Heap.empty.newModule "m" none).1

/-- The machine after the module `m` has run some statements. -/
def machine (body : List Stmt) : Machine :=
  let heap := (Heap.empty.newModule "m" none).2
  Run.final (CodeUnit.run 10 ⟨"m", body⟩ (heap.module module).scope "m" ⟨heap, 0⟩)

/-- The machine on which a unit has run for a merge into the module. -/
def ranOn (u : CodeUnit) (m : Machine) : Machine :=
  Run.final (u.run 10 m.heap.newScope.1 (m.heap.module module).name { m with heap := m.heap.newScope.2 })

/-- The machine on which a unit has been merged into the module. -/
def mergedInto (u : CodeUnit) (m : Machine) : Machine := Run.final (merge 10 u module m)

theorem ranOn_executed {u : CodeUnit} {m : Machine} (h : Run.value? (u.run 10 m.heap.newScope.1
    (m.heap.module module).name { m with heap := m.heap.newScope.2 }) = some ()) :
    Merge.Executed 10 u module m (ranOn u m) := Run.eq_ok_final h

theorem mergedInto_ok {u : CodeUnit} {m : Machine} {s : Summary}
    (h : Run.value? (merge 10 u module m) = some s) : merge 10 u module m = .ok s (mergedInto u m) :=
  Run.eq_ok_final h

end Sample

end LivePatch
