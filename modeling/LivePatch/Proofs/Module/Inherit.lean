/-
Inherited attributes after a merge. A class that has taken over a new version has its attributes, but
keeps its own bases: which classes a class inherits from is fixed when it is made. So the live class and
the new one agree on what they inherit as long as their bases correspond, each base of the one being
paired with the base of the other in the same place, and so on upwards. Where the unit has changed the
bases, the live class still inherits through the old ones.
-/
import LivePatch.Proofs.Heap.Hierarchy
import LivePatch.Proofs.Heap.Twin
import LivePatch.Proofs.Module.Closed
import LivePatch.Proofs.Module.Coverage
import LivePatch.Proofs.Module.Unhooked

namespace LivePatch

namespace Heap

/-- Two classes are paired, and so are their bases, one by one. -/
inductive Mirrors (h : Heap) (old new : Bindings Value) : ClassRef → ClassRef → Prop
  | intro {c d : ClassRef} (paired : h.Paired old new c d)
      (bases : List.Forall₂ (Mirrors h old new) (h.type c).bases (h.type d).bases) : Mirrors h old new c d

/-- A value stands for another: they are the same, or the one is a class paired with the other. -/
def StandsFor (h : Heap) (old new : Bindings Value) (v w : Value) : Prop :=
  v = w ∨ ∃ c d, v = .type c ∧ w = .type d ∧ h.Paired old new c d

variable {h k : Heap} {old new : Bindings Value} {c d : ClassRef}

/-- What a class has taken over stands for what the new class has. -/
theorem Paired.slotAfter (hp : h.Paired old new c d) {x : Name} (hx : x ∉ preservedSlots) :
    Option.Rel (h.StandsFor old new) (h.slotAfter c d x) ((h.type d).attrs.get? x) := by
  unfold Heap.slotAfter
  rw [if_neg fun hpre => hx hpre.1]
  split
  · rename_i e e' hs
    obtain ⟨hc, hd⟩ := sharedClasses?_eq_some hs
    have hshared : x ∈ h.sharedSlots c d := by
      refine mem_sharedSlots.2 ⟨?_, ?_, hx⟩
      · rw [Bindings.mem_names_iff, hc]
        rfl
      · rw [Bindings.mem_names_iff, hd]
        rfl
    rw [hd]
    exact .some (.inr ⟨e, e', rfl, rfl, hp.slot hshared hs⟩)
  · cases (h.type d).attrs.get? x with
    | none => exact .none
    | some w => exact .some (.inl rfl)

/-- Classes that mirror each other on an earlier heap agree on every attribute, when the old ones have
taken over the new ones. -/
theorem Mirrors.lookup (hl : k.Layered)
    (hold : ∀ {c d}, h.Paired old new c d → (k.type c).bases = (h.type c).bases ∧ h.Took (c, d) k)
    (hnew : ∀ {c d}, h.Paired old new c d → k.type d = h.type d) {x : Name} (hx : x ∉ preservedSlots) :
    ∀ (n : Nat) {c d : ClassRef}, c.index < n → h.Mirrors old new c d →
      Option.Rel (h.StandsFor old new) (k.lookup c x) (k.lookup d x)
  | 0, _, _, hn, _ => absurd hn (Nat.not_lt_zero _)
  | n + 1, c, d, hn, hm => by
    obtain ⟨hp, hbases⟩ := hm
    obtain ⟨hfixed, htook⟩ := hold hp
    rw [hl.lookup_eq c, hl.lookup_eq d, htook x, hfixed, hnew hp]
    refine rel_or (hp.slotAfter hx) (findSome?_of_forall₂ hbases fun b hb e hbe => ?_)
    have hlt := hl c b (by rw [hfixed]; exact hb)
    exact Mirrors.lookup hl hold hnew hx n (by omega) hbe

end Heap

namespace Merge

/-- What is found in classes after a merge: the unit has run on the heap `h`, and `after` and `k` are the
live bindings and the heap in the end. -/
structure Inherited (pre h : Heap) (old new after : Bindings Value) (k : Heap) : Prop where
  /-- A name that is bound to a class keeps it. -/
  bound : ∀ {x c d}, old.get? x = some (.type c) → new.get? x = some (.type d) →
    after.get? x = some (.type c)
  /-- A class that is paired has the attributes of the new class, and what its own bases have. -/
  paired : ∀ {c d}, h.Paired old new c d → ∀ x, k.lookup c x =
    (h.slotAfter c d x).or ((pre.type c).bases.findSome? (k.lookup · x))
  /-- A class that is not paired has its own attributes, and what its own bases have. -/
  unpaired : ∀ {c : ClassRef}, c.index < pre.classes.size → (∀ d, ¬ h.Paired old new c d) → ∀ x,
    k.lookup c x = ((pre.type c).attrs.get? x).or ((pre.type c).bases.findSome? (k.lookup · x))
  /-- A class whose bases correspond to those of the new class has exactly what the new class has. -/
  mirrors : ∀ {c d}, h.Mirrors old new c d → ∀ x, x ∉ preservedSlots →
    (k.lookup c x = none ↔ k.lookup d x = none) ∧
      ∀ w, k.lookup d x = some w → ∃ v, k.lookup c x = some v ∧ h.StandsFor old new v w

end Merge

/-- In a merge that succeeds and calls no hook, where each old class is paired with a single new one, an
attribute is looked up in the new attributes of a class and then in the bases that it has always had; and
this finds what the new class has whenever its bases correspond to those of the new class. -/
theorem merge_inherited {limit : Nat} {u : CodeUnit} {module : ModuleRef} {m m₁ m' : Machine} {s : Summary}
    (hc : m.heap.Closed) (hl : m.heap.Layered) (hm : m.heap.HasModule module)
    (he : Merge.Executed limit u module m m₁) (h : merge limit u module m = .ok s m')
    (hh : ∀ hook old k, ¬ Merge.CallsHook limit u module m hook old k)
    (ho : m₁.heap.PairsOnce (m.heap.bindings module) (m₁.heap.scope m.heap.newScope.1)) :
    Merge.Inherited m.heap m₁.heap (m.heap.bindings module) (m₁.heap.scope m.heap.newScope.1)
      (m'.heap.bindings module) m'.heap := by
  obtain ⟨j, ht⟩ := he.taken hm hc h hh
  have hkept := he.isolated.1.kept
  have hpersists := he.merged_persists hm h
  -- the pairs that the merge has come to are all pairs
  have hpairs : ∀ {c d : ClassRef}, (c, d) ∈ m₁.heap.classPairs (m.heap.bindings module)
      (m₁.heap.scope m.heap.newScope.1) (Merge.sharedNames module m m₁) ↔
      m₁.heap.Paired (m.heap.bindings module) (m₁.heap.scope m.heap.newScope.1) c d :=
    ho.mem_classPairs_iff (he.closed hc)
      (fun hx => Nat.lt_of_lt_of_le (Merge.Executed.old_made hc hx).2 he.persists.classes.size)
      (he.mem_sharedNames hm)
  have hlayered₁ : m₁.heap.Layered := by
    rw [← show Run.final _ = m₁ from congrArg Run.final he]
    exact CodeUnit.run_layered (m := { m with heap := m.heap.newScope.2 }) hc.newScope hl limit u _ _
  have hlayered : m'.heap.Layered := hlayered₁.later hpersists ht.walked.size
  have hbases : ∀ {c : ClassRef}, c.index < m₁.heap.classes.size →
      (m'.heap.type c).bases = (m₁.heap.type c).bases :=
    fun {c} hlt => congrArg Prod.snd (hpersists.classes.get c hlt)
  have hbefore : ∀ {c : ClassRef}, c.index < m.heap.classes.size → m₁.heap.type c = m.heap.type c :=
    fun {c} hlt => hkept.classes.get c hlt
  have hlater : ∀ {c : ClassRef}, c.index < m.heap.classes.size → c.index < m₁.heap.classes.size :=
    fun hlt => Nat.lt_of_lt_of_le hlt he.persists.classes.size
  have htook : ∀ {c d : ClassRef}, m₁.heap.Paired (m.heap.bindings module)
      (m₁.heap.scope m.heap.newScope.1) c d → m₁.heap.Took (c, d) m'.heap :=
    fun hp => ht.took _ (hpairs.2 hp)
  refine ⟨fun hx hy => he.still_bound hm h hh hx hy rfl trivial, ?_, ?_, ?_⟩
  · intro c d hp x
    obtain ⟨hlt, -⟩ := he.paired_made hc hp
    rw [hlayered.lookup_eq, htook hp x, hbases (hlater hlt), hbefore hlt]
  · intro c hlt hno x
    have hpristine : m'.heap.type c = m.heap.type c := by
      rw [← hbefore hlt]
      refine ht.walked.pristine c fun hmem => ?_
      obtain ⟨⟨c, d⟩, hq, rfl⟩ := List.mem_map.1 hmem
      exact hno d (hpairs.1 hq)
    rw [hlayered.lookup_eq, hpristine]
  · intro c d hmirror x hx
    have hrel := Heap.Mirrors.lookup hlayered
      (fun hp => ⟨hbases (hlater (he.paired_made hc hp).1), htook hp⟩)
      (fun hp => ht.walked.new (he.paired_made hc hp).2) hx _ (Nat.lt_succ_self _) hmirror
    cases hcx : m'.heap.lookup c x <;> cases hdx : m'.heap.lookup d x <;> rw [hcx, hdx] at hrel <;> cases hrel
    · exact ⟨Iff.rfl, nofun⟩
    · rename_i v w hvw
      refine ⟨⟨nofun, nofun⟩, ?_⟩
      rintro _ ⟨⟩
      exact ⟨v, rfl, hvw⟩

/-! ## Changed bases -/

namespace Sample

/-- An empty class that inherits from another. -/
def heir (x y : Name) : Stmt := .classDef x [.ident y .dummy] [] none .dummy

/-- A module with a class and two classes that inherit from it. -/
def family : Machine := machine [holder "A" "a", heir "B" "A", heir "C" "A"]

/-- A unit in which only one of them still inherits. -/
def estranged : CodeUnit := ⟨"m", [holder "A" "b", .classDef "B" [] [] none .dummy, heir "C" "A"]⟩

def estrangedRun : Machine :=
  Run.final (estranged.run 10 family.heap.newScope.1 "m" { family with heap := family.heap.newScope.2 })

def reunited : Machine := Run.final (merge 10 estranged module family)

theorem estranged_executed : Merge.Executed 10 estranged module family estrangedRun :=
  Run.eq_ok_final rfl

theorem estranged_merged :
    merge 10 estranged module family = .ok ⟨[], [], ["A", "B", "C"], []⟩ reunited :=
  Run.eq_ok_final (by decide +kernel)

theorem family_layered : family.heap.Layered :=
  CodeUnit.run_layered (m := ⟨_, 0⟩) (Heap.closed_empty.newModule "m" none) Heap.layered_empty 10 _ _ "m"

theorem estranged_calls_no_hook (hook old : Value) (k : Machine) :
    ¬ Merge.CallsHook 10 estranged module family hook old k :=
  estranged_executed.calls_no_hook_of_values (machine_hasModule _) (machine_closed _) (by decide +kernel)
    hook old k

theorem estranged_pairsOnce : estrangedRun.heap.PairsOnce (family.heap.bindings module)
    (estrangedRun.heap.scope family.heap.newScope.1) := by
  have hall : ∀ {c d : ClassRef}, estrangedRun.heap.Paired (family.heap.bindings module)
      (estrangedRun.heap.scope family.heap.newScope.1) c d →
      (c, d) ∈ ([(⟨0⟩, ⟨3⟩), (⟨1⟩, ⟨4⟩), (⟨2⟩, ⟨5⟩)] : List (ClassRef × ClassRef)) :=
    fun hp => hp.mem (by decide +kernel) (by decide +kernel)
  exact single_of_mem hall (by decide)

end Sample

/-- Both heirs are paired, but only the one whose base is as before mirrors its new version. -/
theorem merge_inherited_estranged :
    Merge.Inherited Sample.family.heap Sample.estrangedRun.heap (Sample.family.heap.bindings Sample.module)
        (Sample.estrangedRun.heap.scope Sample.family.heap.newScope.1)
        (Sample.reunited.heap.bindings Sample.module) Sample.reunited.heap ∧
      Sample.estrangedRun.heap.Mirrors (Sample.family.heap.bindings Sample.module)
        (Sample.estrangedRun.heap.scope Sample.family.heap.newScope.1) ⟨2⟩ ⟨5⟩ := by
  refine ⟨merge_inherited (Sample.machine_closed _) Sample.family_layered (Sample.machine_hasModule _)
    Sample.estranged_executed Sample.estranged_merged Sample.estranged_calls_no_hook
    Sample.estranged_pairsOnce, ?_⟩
  exact .intro ⟨"C", _, _, by decide +kernel, by decide +kernel, .here⟩
    (.cons (.intro ⟨"A", ⟨0⟩, ⟨3⟩, by decide +kernel, by decide +kernel, .here⟩ .nil) .nil)

/-- The class `B` has no base in the unit, but goes on inheriting from `A`, here even a new attribute. -/
theorem merge_keeps_bases :
    merge 10 Sample.estranged Sample.module Sample.family =
        .ok ⟨[], [], ["A", "B", "C"], []⟩ Sample.reunited ∧
      (∀ hook old k, ¬ Merge.CallsHook 10 Sample.estranged Sample.module Sample.family hook old k) ∧
      Merge.Executed 10 Sample.estranged Sample.module Sample.family Sample.estrangedRun ∧
      Sample.estrangedRun.heap.PairsOnce (Sample.family.heap.bindings Sample.module)
        (Sample.estrangedRun.heap.scope Sample.family.heap.newScope.1) ∧
      (Sample.family.heap.bindings Sample.module).get? "B" = some (.type ⟨1⟩) ∧
      (Sample.estrangedRun.heap.scope Sample.family.heap.newScope.1).get? "B" = some (.type ⟨4⟩) ∧
      "b" ∉ preservedSlots ∧
      Sample.reunited.heap.lookup ⟨1⟩ "b" = some (.int 1) ∧
      Sample.reunited.heap.lookup ⟨4⟩ "b" = none :=
  ⟨Sample.estranged_merged, Sample.estranged_calls_no_hook, Sample.estranged_executed,
    Sample.estranged_pairsOnce, by decide +kernel, by decide +kernel, by decide +kernel,
    by decide +kernel, by decide +kernel⟩

end LivePatch
