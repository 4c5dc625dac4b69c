/-
Layers through everything a host does. An update of a class gives it other attributes and never other bases,
and going back does the same, so that a merge leaves a layered heap layered, and so does every other deed. So
on whatever heap code comes to run, the bases of classes lead up to an end.
-/
import LivePatch.Proofs.Heap.Ancestry
import LivePatch.Proofs.Module.Deed

namespace LivePatch

/-! ## Writes that keep layers -/

namespace Heap.Layered

variable {h k : Heap}

theorem of_classes (hl : h.Layered) (hk : k.classes = h.classes) : k.Layered := by
  intro c b hb
  rw [show k.type c = h.type c from congrArg (·.get c) hk] at hb
  exact hl c b hb

theorem modifyAttrs (hl : h.Layered) (c : ClassRef) (f : Bindings Value → Bindings Value) :
    (h.modifyAttrs c f).Layered :=
  hl.later (h.footprint_modifyAttrs c f).persists (Arena.size_modify ..)

theorem updateClass {s : Journaled} (hl : s.heap.Layered) (old new : ClassRef) :
    (s.updateClass old new).heap.Layered := by
  let L : Journaled.ClassLaw :=
    { inv := fun t => t.heap.Layered
      allowed := fun _ => True
      attr := fun _ _ _ => trivial
      record := fun ht _ => ht
      change := fun ht _ _ => ht.modifyAttrs _ _ }
  exact L.updateClass_keeps hl trivial trivial

theorem inPlace {s : Journaled} (hl : s.heap.Layered) (old new : Value) :
    (Update.inPlace old new s).2.heap.Layered := by
  rcases Update.inPlace_cases old new s with ⟨c, d, -, -, e⟩ | ⟨f, g, -, -, e⟩ | e
  · rw [e]
    exact hl.updateClass c d
  · rw [e]
    rcases s.updateFunction_cases f g with e | e
    · rw [e]
      exact hl
    · rw [e]
      exact hl.of_classes rfl
  · rw [e]
    exact hl

theorem rollback (hl : h.Layered) (j : Journal) : (j.rollback h).Layered := by
  have hback : ∀ (rs : List Journal.Record) {k : Heap}, k.Layered → (rs.foldl Journal.Record.restore k).Layered := by
    intro rs
    induction rs with
    | nil => exact fun hk => hk
    | cons r rs ih =>
      intro k hk
      refine ih ?_
      cases r with
      | function f state => exact hk.of_classes rfl
      | type c attrs => exact hk.modifyAttrs c _
  exact (hback j.records hl).of_classes rfl

end Heap.Layered

/-! ## Merges -/

/-- A hook is called on a closed and layered heap with what is there. -/
theorem Update.Asks.lawful {m k : Machine} {old new hook : Value} (ha : Asks m old new hook k)
    (hi : Law.layered.inv m.heap) (ho : m.heap.There old) (hn : m.heap.There new) :
    Activity.Lawful .layered m.heap ⟨Run.callActivity k hook [old], k⟩ := by
  obtain ⟨a, hfound, rfl, rfl⟩ := ha.found
  obtain ⟨hs, hhook⟩ := Law.obtain_stays (L := .layered) hi (Law.hook_found (L := .layered) hi hn hfound)
  refine ⟨hs, hhook, fun v hv => ?_⟩
  rw [List.mem_singleton.1 hv]
  exact Law.val_later (L := .layered) hs ho

/-- The heap on which a hook leaves the machine is layered, however the hook ends. -/
theorem Update.Asks.call_layered {m k : Machine} {old new hook : Value} (ha : Asks m old new hook k)
    (hi : Law.layered.inv m.heap) (ho : m.heap.There old) (hn : m.heap.There new) (limit : Nat) :
    (Run.final (Run.call limit hook [old] k)).heap.Layered := by
  obtain ⟨hk, hfit⟩ := ha.lawful hi ho hn
  exact (Activity.final_keeps hk.1 hfit).1.2

namespace Merge

variable {limit : Nat} {u : CodeUnit} {module : ModuleRef} {m m₁ : Machine}

theorem Executed.layered (he : Executed limit u module m m₁) (hc : m.heap.Closed) (hl : m.heap.Layered) :
    m₁.heap.Layered := by
  rw [← show Run.final _ = m₁ from congrArg Run.final he]
  exact CodeUnit.run_layered (m := { m with heap := m.heap.newScope.2 }) hc.newScope (hl.of_classes rfl) limit u _ _

/-- At every stage the heap is layered. -/
theorem Executed.stage_layered (he : Executed limit u module m m₁) (hm : m.heap.HasModule module)
    (hc : m.heap.Closed) (hl : m.heap.Layered) {xs todo : List Name}
    (hxs : sharedNames module m m₁ = xs ++ todo) {a : Stage} (hp : Reaches limit module m m₁ xs a) :
    a.machine.heap.Layered := by
  refine he.induct (I := fun _ a => a.machine.heap.Layered) ?_ ?_ hxs hp
  · rw [opening_heap hm.newScope_ne]
    exact (he.layered hc hl).of_classes rfl
  · intro done x todo a b hdone hreach _ ha hstep
    cases hstep with
    | unbound => exact ha
    | @bound _ _ up _ k ho hn hu =>
      have hs := (he.stage_closed hm hc hdone hreach).heap
      have hk : k.heap.Layered := by
        cases hu with
        | unchanged | replaced => exact ha
        | inPlace => exact ha.inPlace _ _
        | @asked hook v k' _ hasks hcall =>
          have hfinal := hasks.call_layered ⟨hs, ha⟩ (hs.bound ho) (hs.bound hn) limit
          rwa [hcall] at hfinal
      exact hk.of_classes rfl

/-- What a hook is called on in the course of a merge. -/
theorem CallsHook.lawful {hook old : Value} {k : Machine} (h : CallsHook limit u module m hook old k)
    (hm : m.heap.HasModule module) (hc : m.heap.Closed) (hl : m.heap.Layered) :
    Law.layered.inv k.heap ∧ (Run.callActivity k hook [old]).Fits .layered k.heap := by
  obtain ⟨x, a, ⟨m₁, done, todo, he, hs, hp⟩, hold, new, hnew, hasks⟩ := h
  have ha := (he.stage_closed hm hc hs hp).heap
  obtain ⟨hk, hfit⟩ := hasks.lawful ⟨ha, he.stage_layered hm hc hl hs hp⟩ (ha.bound hold) (ha.bound hnew)
  exact ⟨hk.1, hfit⟩

end Merge

/-- A merge into a closed and layered heap leaves a layered heap, however it ends. -/
theorem merge_layered (limit : Nat) (u : CodeUnit) {module : ModuleRef} {m : Machine} (hm : m.heap.HasModule module)
    (hc : m.heap.Closed) (hl : m.heap.Layered) : (Run.final (merge limit u module m)).heap.Layered := by
  cases hr : merge limit u module m with
  | ok s m' =>
    obtain ⟨m₁, a, he, hp, -, rfl⟩ := Merge.succeeds hr
    exact he.stage_layered hm hc hl (List.append_nil _).symm hp
  | error e m' =>
    show m'.heap.Layered
    rcases Merge.stops hr with ⟨e', hr⟩ | ⟨x, a, old, hook, k, e', m₂, ht, ha, hcall, hback⟩
    · rw [← show Run.final _ = m' from congrArg Run.final hr]
      exact CodeUnit.run_layered (m := { m with heap := m.heap.newScope.2 }) hc.newScope (hl.of_classes rfl) limit
        u _ _
    · obtain ⟨hk, hfit⟩ := Merge.CallsHook.lawful ⟨x, a, ht, ha⟩ hm hc hl
      have hfinal : (Run.final (Run.call limit hook [old] k)).heap.Layered :=
        (Activity.final_keeps hk hfit).1.2
      rw [hcall] at hfinal
      rcases hback with rfl | ⟨-, rfl⟩
      · exact hfinal.rollback _
      · exact hfinal

/-! ## Hosts -/

namespace Machine

variable {ms : List ModuleRef} {m : Machine}

/-- By induction on what the host does, one case for each operation. -/
theorem Reachable.layered (h : Reachable ms m) : m.heap.Layered := by
  induction h with
  | start => exact Heap.layered_empty
  | made _ _ _ ih => exact ih.of_classes rfl
  | noted _ _ _ ih => exact ih.of_classes rfl
  | bound _ _ _ _ ih => exact ih.of_classes rfl
  | unbound _ _ _ ih => exact ih.of_classes rfl
  | ran h limit u hm name ih => exact CodeUnit.run_layered (hosts h).1 ih limit u _ name
  | merged h limit u hm ih =>
    obtain ⟨hc, hmodules, -⟩ := hosts h
    exact merge_layered limit u (hmodules _ hm) hc ih
  | called h limit hf ha ih =>
    exact (Run.call_keeps (L := .layered) limit _ _ _ ⟨(hosts h).1, ih⟩ hf ha).final.1.2
  | got h hv x ih => exact (Run.getAttr_keeps (L := .layered) ⟨(hosts h).1, ih⟩ hv x).final.1.2
  | set h ht hv x ih => exact (Run.setAttr_keeps (L := .layered) ⟨(hosts h).1, ih⟩ ht hv x).final.1.2

end Machine

namespace Deed

variable {limit : Nat} {ms : List ModuleRef} {m : Machine} {d : Deed}

/-- What opens a deed opens it on a closed and layered heap, with what is there. -/
theorem Opens.lawful {root : Moment} (ho : d.Opens limit m root) (h : Machine.Reachable ms m)
    (hd : d.Allowed ms m) :
    Law.layered.inv root.machine.heap ∧ root.activity.Fits .layered root.machine.heap := by
  obtain ⟨hc, hmodules, -⟩ := h.hosts
  have hl := h.layered
  cases ho with
  | ran => exact ⟨⟨hc, hl⟩, trivial, fun _ => trivial, fun v hv => nomatch hv⟩
  | unit => exact ⟨⟨hc.newScope, hl.of_classes rfl⟩, trivial, fun _ => trivial, fun v hv => nomatch hv⟩
  | hook hook => exact hook.lawful (hmodules _ hd) hc hl
  | called => exact ⟨⟨hc, hl⟩, hd⟩

/-- In the course of a deed every heap is layered. -/
theorem Passes.layered {k : Machine} (hp : d.Passes limit m k) (h : Machine.Reachable ms m)
    (hd : d.Allowed ms m) : k.heap.Layered := by
  cases hp with
  | begins hp =>
    obtain ⟨root, ho, hp⟩ := hp
    obtain ⟨hi, hf⟩ := ho.lawful h hd
    exact (hp.lawful hi hf).1.1.1.2
  | ends hp =>
    obtain ⟨root, ho, hp⟩ := hp
    obtain ⟨hi, hf⟩ := ho.lawful h hd
    exact (hp.lawful hi hf).2.1.2
  | stage hmerge he hs hr =>
    subst hmerge
    obtain ⟨hc, hmodules, -⟩ := h.hosts
    exact he.stage_layered (hmodules _ hd) hc h.layered hs hr
  | done => exact Machine.Reachable.layered (Machine.Hosting.deed h limit hd)

end Deed

/-- Whatever a host does, and at every moment while it has code run, the classes of the heap have an ancestry:
no class is above itself, and what there is to find in the classes above a class is found. -/
theorem Machine.Reachable.class_ancestry {ms : List ModuleRef} {m : Machine} (h : Reachable ms m) :
    m.heap.Ancestry ∧
      ∀ (limit : Nat) (d : Deed), d.Allowed ms m → ∀ k, d.Passes limit m k → k.heap.Ancestry :=
  ⟨h.layered.ancestry, fun _ _ hd _ hk => (hk.layered h hd).ancestry⟩

namespace Sample

/-- Four classes: `B` and `C` have the base `A`, and `D` has both of them. `A` and `C` have an `x`. -/
def diamond : List Stmt :=
  let base (x : Name) : Expr := .ident x .dummy
  [.classDef "A" [] [.bind "x" (.int 1 .dummy) .dummy] none .dummy,
    .classDef "B" [base "A"] [] none .dummy,
    .classDef "C" [base "A"] [.bind "x" (.int 2 .dummy) .dummy] none .dummy,
    .classDef "D" [base "B", base "C"] [] none .dummy]

end Sample

/-- The walk up from `D` meets `A` twice, and `x` is what the first of its visits finds. The unit can be merged
over itself. -/
theorem Machine.Reachable.class_ancestry_diamond :
    Reachable [Sample.module] (Sample.machine Sample.diamond) ∧
      (Sample.machine Sample.diamond).heap.Ancestry ∧
      (Sample.machine Sample.diamond).heap.Walk [⟨3⟩] [⟨3⟩, ⟨1⟩, ⟨0⟩, ⟨2⟩, ⟨0⟩] ∧
      (Sample.machine Sample.diamond).heap.lookup ⟨3⟩ "x" = some (.int 1) ∧
      (Deed.merge ⟨"m", Sample.diamond⟩ Sample.module).Allowed [Sample.module] (Sample.machine Sample.diamond) ∧
      ((Deed.merge ⟨"m", Sample.diamond⟩ Sample.module).final 10 (Sample.machine Sample.diamond)).heap.Ancestry := by
  have hr : Reachable [Sample.module] (Sample.machine Sample.diamond) :=
    (Hosting.start.made "m" none).ran 10 ⟨"m", Sample.diamond⟩ (List.mem_singleton_self _) "m"
  have hd : (Deed.merge ⟨"m", Sample.diamond⟩ Sample.module).Allowed [Sample.module] (Sample.machine Sample.diamond) :=
    List.mem_singleton_self _
  have hall := class_ancestry hr
  have hbases : ((Sample.machine Sample.diamond).heap.type ⟨3⟩).bases = [⟨1⟩, ⟨2⟩] ∧
      ((Sample.machine Sample.diamond).heap.type ⟨2⟩).bases = [⟨0⟩] ∧
      ((Sample.machine Sample.diamond).heap.type ⟨1⟩).bases = [⟨0⟩] ∧
      ((Sample.machine Sample.diamond).heap.type ⟨0⟩).bases = [] := by decide +kernel
  obtain ⟨h₃, h₂, h₁, h₀⟩ := hbases
  refine ⟨hr, hall.1, ?_, by decide +kernel, hd, hall.2 10 _ hd _ .done⟩
  refine .visit (h₃ ▸ .visit (h₁ ▸ .visit (h₀ ▸ .visit (h₂ ▸ .visit (h₀ ▸ .done)))))

end LivePatch
