/-
The order of the shared names. A merge without hooks takes them one after the other, and they may reach the
same functions and classes. Each function takes over what it is paired with whenever that comes up, and each
class once, when a walk first comes to it; so when every old function and class is paired with a single new
one, what they have taken over in the end depends on the pairs alone, and these are the same in every order.
-/
import LivePatch.Proofs.Module.Closed
import LivePatch.Proofs.Module.Coverage
import LivePatch.Proofs.Module.Replay
import LivePatch.Proofs.Module.Unhooked

namespace LivePatch

/-! ## Pairs of functions -/

namespace Heap

variable {h : Heap} {old new : Bindings Value}

/-- Two functions are paired: they are behind the old and the new value of a name. -/
def FunctionPaired (h : Heap) (old new : Bindings Value) (f g : FunctionRef) : Prop :=
  ∃ x v w, old.get? x = some v ∧ new.get? x = some w ∧ h.functionPair? v w = some (f, g)

/-- Each old function is paired with a single new function. -/
def FunctionsOnce (h : Heap) (old new : Bindings Value) : Prop :=
  ∀ ⦃f g g' : FunctionRef⦄, h.FunctionPaired old new f g → h.FunctionPaired old new f g' → g = g'

theorem FunctionsOnce.eq_of_mem (ho : h.FunctionsOnce old new) {names : List Name}
    {p q : FunctionRef × FunctionRef} (hp : p ∈ h.functionPairs old new names)
    (hq : q ∈ h.functionPairs old new names) (he : p.1 = q.1) : p = q := by
  obtain ⟨f, g⟩ := p
  obtain ⟨f', g'⟩ := q
  obtain rfl : f = f' := he
  obtain ⟨x, -, v, w, hv, hw, hx⟩ := mem_functionPairs hp
  obtain ⟨y, -, v', w', hv', hw', hy⟩ := mem_functionPairs hq
  rw [ho ⟨x, v, w, hv, hw, hx⟩ ⟨y, v', w', hv', hw', hy⟩]

/-- The names that are bound before are all that can pair functions. -/
theorem FunctionPaired.mem {f g : FunctionRef} (hp : h.FunctionPaired old new f g) :
    (f, g) ∈ h.functionPairs old new old.names := by
  obtain ⟨x, v, w, hv, hw, hx⟩ := hp
  refine List.mem_filterMap.2 ⟨x, (Bindings.mem_names_iff _ x).2 (hv ▸ rfl), ?_⟩
  rw [hv, hw]
  exact hx

/-- When each function is paired with a single one, it does not matter when the pairs come up. -/
theorem FunctionsOnce.patched_perm (ho : h.FunctionsOnce old new) {xs ys : List Name} (hp : xs.Perm ys)
    (f : FunctionRef) :
    h.patched f (h.functionPairs old new xs) = h.patched f (h.functionPairs old new ys) := by
  have hpairs : (h.functionPairs old new xs).Perm (h.functionPairs old new ys) := hp.filterMap _
  refine hpairs.foldl_eq' (fun p hp q hq state => ?_) _
  by_cases hpf : p.1 = f
  · by_cases hqf : q.1 = f
    · rw [ho.eq_of_mem hp hq (hpf.trans hqf.symm)]
    · simp only [if_pos hpf, if_neg hqf]
  · simp only [if_neg hpf]

end Heap

/-! ## One name -/

namespace Update

variable {limit : Nat} {v w : Value} {j j' : Journal} {m m' : Machine} {u : Update}

theorem inPlace_others (v w : Value) (s : Journaled) :
    ∃ functions classes, (inPlace v w s).2.heap = { s.heap with functions, classes } := by
  rcases inPlace_cases v w s with ⟨c, d, -, -, e⟩ | ⟨f, g, -, -, e⟩ | e
  · obtain ⟨classes, hc⟩ := s.updateClass_others c d
    exact ⟨s.heap.functions, classes, by rw [e]; exact hc⟩
  · rcases s.updateFunction_cases f g with e' | e'
    · exact ⟨s.heap.functions, s.heap.classes, by rw [e, e']⟩
    · exact ⟨_, s.heap.classes, by rw [e, e']; rfl⟩
  · exact ⟨s.heap.functions, s.heap.classes, by rw [e]⟩

/-- Without a hook, only functions and classes change. -/
theorem Performed.others (hp : Performed (Run.call limit) v w j m u j' m')
    (hno : ∀ hook k, ¬ Asks m v w hook k) :
    ∃ functions classes, m' = { m with heap := { m.heap with functions, classes } } := by
  cases hp with
  | unchanged | replaced => exact ⟨m.heap.functions, m.heap.classes, rfl⟩
  | asked ha => exact absurd ha (hno _ _)
  | inPlace =>
    obtain ⟨functions, classes, he⟩ := inPlace_others v w ⟨j, m.heap⟩
    exact ⟨functions, classes, by rw [he]⟩

end Update

namespace Merge

section

variable {limit : Nat} {u : CodeUnit} {module : ModuleRef} {m m₁ : Machine} {done xs ys : List Name}
  {a b : Stage}

/-- When no hook is called as the names come, no name has one that would be asked. -/
theorem Executed.unhooked (he : Executed limit u module m m₁) (hm : m.heap.HasModule module)
    (hc : m.heap.Closed) (hh : ∀ hook old k, ¬ CallsHook limit u module m hook old k) {x : Name} {v w : Value}
    (hv : (m.heap.bindings module).get? x = some v)
    (hw : (m₁.heap.scope m.heap.newScope.1).get? x = some w) (hn : v ≠ w) (hk : v.kind = w.kind) :
    Update.hook? m₁.heap w = none := by
  by_contra hne
  -- the turn of the name comes, and its hook is then what it is now
  obtain ⟨s, m', h⟩ := he.succeeds hh
  obtain ⟨m₂, b, he₂, hp, -, -⟩ := Merge.succeeds h
  cases he.symm.trans he₂
  obtain ⟨done, todo, hd⟩ := List.append_of_mem (he.mem_sharedNames hm hv hw)
  rw [hd] at hp
  obtain ⟨a, ha, -⟩ := passes_append.1 hp
  have ht := he.taking hm hc (fun _ hturn _ _ old hook k ha => hh hook old k ⟨_, _, hturn, ha⟩) hd ha
  rw [← ht.hook?_new he.isolated.1 (he.reaches hm ha).1 (he.new_made hw)] at hne
  obtain ⟨found, hf⟩ := Option.ne_none_iff_exists'.1 hne
  obtain ⟨hlive, hscratch⟩ := he.bound_at_turn hm hd ha
  exact hh _ v _ ⟨x, a, ⟨m₁, done, todo, he, hd, ha⟩, hlive.trans hv, w, hscratch.trans hw, hn, hk, found, hf,
    rfl, rfl⟩

/-- The live bindings when some shared names have been updated without a hook, and what they were at the
opening. -/
structure Settling (old new start : Bindings Value) (done : List Name) (live : Bindings Value) : Prop where
  names : live.names = start.names
  settled : ∀ x ∈ done, ∀ v w, old.get? x = some v → new.get? x = some w →
    (v.kind = w.kind ∧ v.Patchable → live.get? x = some v) ∧
      (¬ (v.kind = w.kind ∧ v.Patchable) → live.get? x = some w)
  others : ∀ x ∉ done, live.get? x = start.get? x

namespace Settling

variable {old new start live live' : Bindings Value}

theorem next (hs : Settling old new start done live) {x : Name} {v w b : Value} (hv : old.get? x = some v)
    (hw : new.get? x = some w) (hx : x ∈ live.names) (hkeeps : v.kind = w.kind ∧ v.Patchable → b = v)
    (htakes : ¬ (v.kind = w.kind ∧ v.Patchable) → b = w) :
    Settling old new start (done ++ [x]) (live.insert x b) where
  names := by rw [Bindings.names_insert, if_pos hx, hs.names]
  settled y hy v' w' hv' hw' := by
    rw [Bindings.get?_insert]
    by_cases hyx : y = x
    · subst hyx
      cases hv.symm.trans hv'
      cases hw.symm.trans hw'
      rw [if_pos rfl]
      exact ⟨fun h => congrArg some (hkeeps h), fun h => congrArg some (htakes h)⟩
    · rw [if_neg hyx]
      refine hs.settled y ?_ v' w' hv' hw'
      exact (List.mem_append.1 hy).resolve_right fun hy => hyx (List.mem_singleton.1 hy)
  others y hy := by
    rw [List.mem_append, List.mem_singleton, not_or] at hy
    rw [Bindings.get?_insert, if_neg hy.2]
    exact hs.others y hy.1

/-- The names alone, and not their order, decide what is bound. -/
theorem unique (hs : Settling old new start xs live) (hs' : Settling old new start ys live') (hp : xs.Perm ys)
    (hxs : ∀ x ∈ xs, ∃ v w, old.get? x = some v ∧ new.get? x = some w) : live = live' := by
  refine Bindings.ext_get? (hs.names.trans hs'.names.symm) fun x => ?_
  by_cases hx : x ∈ xs
  · obtain ⟨v, w, hv, hw⟩ := hxs x hx
    obtain ⟨hkeeps, htakes⟩ := hs.settled x hx v w hv hw
    obtain ⟨hkeeps', htakes'⟩ := hs'.settled x (hp.subset hx) v w hv hw
    by_cases hk : v.kind = w.kind ∧ v.Patchable
    · exact (hkeeps hk).trans (hkeeps' hk).symm
    · exact (htakes hk).trans (htakes' hk).symm
  · exact (hs.others x hx).trans (hs'.others x fun hy => hx (hp.mem_iff.2 hy)).symm

end Settling

/-! ## All names -/

/-- How far a merge without hooks has come when some shared names have been updated, in whatever order. -/
structure Arranged (limit : Nat) (module : ModuleRef) (m m₁ : Machine) (done : List Name) (a : Stage) :
    Prop where
  reaches : Reaches limit module m m₁ done a
  taking : Taking m.heap m₁.heap (m.heap.bindings module) (m₁.heap.scope m.heap.newScope.1) done
    ⟨a.journal, a.machine.heap⟩
  settling : Settling (m.heap.bindings module) (m₁.heap.scope m.heap.newScope.1)
    ((opening m.heap.newScope.1 (m.heap.module module).scope m₁).machine.heap.scope
      (m.heap.module module).scope) done (a.machine.heap.scope (m.heap.module module).scope)
  /-- Only functions, classes and the live namespace have changed. -/
  rest : ∃ f functions classes, a.machine =
    { m₁ with heap := { m₁.heap.modifyScope (m.heap.module module).scope f with functions, classes } }

theorem opening_arranged (limit : Nat) (hm : m.heap.HasModule module) (m₁ : Machine) :
    Arranged limit module m m₁ [] (opening m.heap.newScope.1 (m.heap.module module).scope m₁) where
  reaches := rfl
  taking := opening_taking hm m₁
  settling := ⟨rfl, nofun, fun _ _ => rfl⟩
  rest := by
    let new := m₁.heap.scope m.heap.newScope.1
    refine ⟨openingBindings (diff (m₁.heap.scope (m.heap.module module).scope) new) new, m₁.heap.functions,
      m₁.heap.classes, ?_⟩
    have hheap := opening_heap hm.newScope_ne m₁
    unfold opening at hheap ⊢
    dsimp only at hheap ⊢
    rw [hheap]
    rfl

/-- Where the turn of a shared name comes that has not been updated, both sides bind it as they did. -/
theorem Arranged.bound (ha : Arranged limit module m m₁ done a) (he : Executed limit u module m m₁)
    (hm : m.heap.HasModule module) {x : Name} (hx : x ∈ sharedNames module m m₁) (hnew : x ∉ done) : ∃ v w,
      (m.heap.bindings module).get? x = some v ∧ (m₁.heap.scope m.heap.newScope.1).get? x = some w ∧
        (a.machine.heap.scope (m.heap.module module).scope).get? x = some v ∧
        (a.machine.heap.scope m.heap.newScope.1).get? x = some w := by
  obtain ⟨v, w, hv, hw⟩ := he.bound_of_mem hm hx
  rw [he.sharedNames_eq hm] at hx
  refine ⟨v, w, hv, hw, ?_, ?_⟩
  · rw [ha.settling.others x hnew, he.opening_scope hm, (shared_opening hx).2, hv]
  · rw [(he.reaches hm ha.reaches).2, hw]

/-- One more shared name is updated. -/
theorem Arranged.next (ha : Arranged limit module m m₁ done a) (he : Executed limit u module m m₁)
    (hm : m.heap.HasModule module) (hc : m.heap.Closed) {x : Name} (hx : x ∈ sharedNames module m m₁)
    (hnew : x ∉ done)
    (hno : ∀ v w, (m.heap.bindings module).get? x = some v →
      (m₁.heap.scope m.heap.newScope.1).get? x = some w → ∀ hook k, ¬ Update.Asks a.machine v w hook k)
    (hnext : Passes (Run.call limit) m.heap.newScope.1 (m.heap.module module).scope a [x] b) :
    Arranged limit module m m₁ (done ++ [x]) b := by
  obtain ⟨v, w, hv, hw, hlive, hscratch⟩ := ha.bound he hm hx hnew
  have hreaches : Reaches limit module m m₁ (done ++ [x]) b := passes_append.2 ⟨a, ha.reaches, hnext⟩
  cases hnext.singleton with
  | unbound hnone =>
    rw [hlive, hscratch] at hnone
    simp at hnone
  | @bound v' w' up j k ho hn hu =>
    obtain rfl : v = v' := Option.some.inj (hlive.symm.trans ho)
    obtain rfl : w = w' := Option.some.inj (hscratch.symm.trans hn)
    have hunasked := hno v w hv hw
    obtain ⟨hkeeps, htakes⟩ := (Settled.of_performed hu).value hunasked
    obtain ⟨f, functions, classes, hrest⟩ := ha.rest
    obtain ⟨functions', classes', hothers⟩ := hu.others hunasked
    have hlt : (m.heap.module module).scope.index < k.heap.scopes.size := by
      have hlt := Nat.lt_of_lt_of_le (he.live_lt hm) (he.reaches hm ha.reaches).1.scopes
      exact Nat.lt_of_lt_of_le hlt hu.persists.1.scopes
    have hscope : k.heap.scope (m.heap.module module).scope =
        a.machine.heap.scope (m.heap.module module).scope := by
      rw [hothers]
      rfl
    have hafter : (k.heap.modifyScope (m.heap.module module).scope (·.insert x up.value)).scope
        (m.heap.module module).scope =
        (a.machine.heap.scope (m.heap.module module).scope).insert x up.value := by
      rw [← hscope]
      exact Arena.get_modify_self k.heap.scopes _ hlt
    have hmem : x ∈ (a.machine.heap.scope (m.heap.module module).scope).names := by
      rw [Bindings.mem_names_iff, hlive]
      rfl
    refine ⟨hreaches, ?_, ?_, ?_⟩
    · exact (ha.taking.performed hc he.isolated.1 hv hw (Executed.old_made hc hv) (he.new_made hw) hu
        hunasked).modifyScope _ _
    · dsimp only
      rw [hafter]
      exact ha.settling.next hv hw hmem hkeeps htakes
    · refine ⟨fun bs => (f bs).insert x up.value, functions', classes', ?_⟩
      rw [hothers, hrest]
      have hsame := m₁.heap.modifyScope_modifyScope (m.heap.module module).scope f (·.insert x up.value)
      rw [← hsame]
      rfl

/-- In whatever order some shared names are taken, they are all updated. -/
theorem Executed.arranged (he : Executed limit u module m m₁) (hm : m.heap.HasModule module)
    (hc : m.heap.Closed) (hh : ∀ hook old k, ¬ CallsHook limit u module m hook old k) (xs : List Name)
    (hnodup : xs.Nodup) (hxs : ∀ x ∈ xs, x ∈ sharedNames module m m₁) :
    ∃ a, Arranged limit module m m₁ xs a := by
  induction xs using List.reverseRecOn with
  | nil => exact ⟨_, opening_arranged limit hm m₁⟩
  | append_singleton xs x ih =>
    obtain ⟨hnd, -, hnew⟩ := List.nodup_append.1 hnodup
    have hnew : x ∉ xs := fun hx => hnew x hx x (List.mem_singleton_self x) rfl
    have hx := hxs x (by simp)
    obtain ⟨a, ha⟩ := ih hnd fun y hy => hxs y (List.mem_append_left _ hy)
    have hno : ∀ v w, (m.heap.bindings module).get? x = some v →
        (m₁.heap.scope m.heap.newScope.1).get? x = some w → ∀ hook k, ¬ Update.Asks a.machine v w hook k := by
      intro v w hv hw hook k hasks
      obtain ⟨found, hf, -⟩ := hasks.found
      rw [ha.taking.hook?_new he.isolated.1 (he.reaches hm ha.reaches).1 (he.new_made hw),
        he.unhooked hm hc hh hv hw hasks.differ hasks.sameKind] at hf
      cases hf
    rcases updateNames_singleton (Run.call limit) m.heap.newScope.1 (m.heap.module module).scope x a with
      ⟨b, -, hb⟩ | ⟨old, hook, k, e, m₂, ⟨hlive, w, hscratch, hasks⟩, -⟩
    · exact ⟨b, ha.next he hm hc hx hnew hno hb⟩
    · obtain ⟨v, w', hv, hw, hlive', hscratch'⟩ := ha.bound he hm hx hnew
      cases hlive.symm.trans hlive'
      cases hscratch.symm.trans hscratch'
      exact absurd hasks (hno _ _ hv hw hook k)

/-! ## Two orders -/

theorem Arranged.functions_eq (ha : Arranged limit module m m₁ xs a) (hb : Arranged limit module m m₁ ys b)
    (he : Executed limit u module m m₁) (hm : m.heap.HasModule module) (hp : xs.Perm ys)
    (ho : m₁.heap.FunctionsOnce (m.heap.bindings module) (m₁.heap.scope m.heap.newScope.1)) :
    a.machine.heap.functions = b.machine.heap.functions := by
  refine Arena.ext_get (ha.taking.size.trans hb.taking.size.symm) fun f hf => ?_
  have hf : f.index < m₁.heap.functions.size := by
    rw [← ha.taking.size]
    exact hf
  refine FunctionObject.eq_of_fixed ?_ ?_
  · exact ((he.reaches hm ha.reaches).1.functions.get f hf).trans
      ((he.reaches hm hb.reaches).1.functions.get f hf).symm
  · exact (ha.taking.functions f hf).trans ((ho.patched_perm hp f).trans (hb.taking.functions f hf).symm)

/-- In every order the walks come to the same pairs, though a class may be met through another first. -/
theorem Arranged.classes_eq (ha : Arranged limit module m m₁ xs a) (hb : Arranged limit module m m₁ ys b)
    (he : Executed limit u module m m₁) (hm : m.heap.HasModule module) (hp : xs.Perm ys) (hc : m.heap.Closed)
    (ho : m₁.heap.PairsOnce (m.heap.bindings module) (m₁.heap.scope m.heap.newScope.1))
    (hxs : ∀ x ∈ sharedNames module m m₁, x ∈ xs) :
    a.machine.heap.classes = b.machine.heap.classes := by
  have hpairs : ∀ {names : List Name}, (∀ x ∈ sharedNames module m m₁, x ∈ names) → ∀ {c d : ClassRef},
      (c, d) ∈ m₁.heap.classPairs (m.heap.bindings module) (m₁.heap.scope m.heap.newScope.1) names ↔
        m₁.heap.Paired (m.heap.bindings module) (m₁.heap.scope m.heap.newScope.1) c d :=
    fun hnames => ho.mem_classPairs_iff (he.closed hc)
      (fun hx => Nat.lt_of_lt_of_le (Executed.old_made hc hx).2 he.persists.classes.size)
      (fun hv hw => hnames _ (he.mem_sharedNames hm hv hw))
  have hys : ∀ x ∈ sharedNames module m m₁, x ∈ ys := fun x hx => hp.subset (hxs x hx)
  refine Arena.ext_get (ha.taking.walked.size.trans hb.taking.walked.size.symm) fun c hlt => ?_
  have hlt : c.index < m₁.heap.classes.size := by
    rw [← ha.taking.walked.size]
    exact hlt
  by_cases hpaired : ∃ d,
      m₁.heap.Paired (m.heap.bindings module) (m₁.heap.scope m.heap.newScope.1) c d
  · obtain ⟨d, hd⟩ := hpaired
    refine ClassObject.eq_of_fixed ?_ ?_
    · exact ((he.reaches hm ha.reaches).1.classes.get c hlt).trans
        ((he.reaches hm hb.reaches).1.classes.get c hlt).symm
    · exact (ha.taking.updated (c, d) ((hpairs hxs).2 hd)).trans
        (hb.taking.updated (c, d) ((hpairs hys).2 hd)).symm
  · have hno : ∀ {names : List Name}, (∀ x ∈ sharedNames module m m₁, x ∈ names) →
        c ∉ (m₁.heap.classPairs (m.heap.bindings module) (m₁.heap.scope m.heap.newScope.1) names).map
          Prod.fst := by
      intro names hnames hmem
      obtain ⟨⟨c, d⟩, hq, rfl⟩ := List.mem_map.1 hmem
      exact hpaired ⟨d, (hpairs hnames).1 hq⟩
    exact (ha.taking.walked.pristine c (hno hxs)).trans (hb.taking.walked.pristine c (hno hys)).symm

/-- Only functions, classes and the live namespace can differ. -/
theorem Arranged.machine_eq (ha : Arranged limit module m m₁ xs a) (hb : Arranged limit module m m₁ ys b)
    (hf : a.machine.heap.functions = b.machine.heap.functions)
    (hcl : a.machine.heap.classes = b.machine.heap.classes)
    (hlive : a.machine.heap.scope (m.heap.module module).scope =
      b.machine.heap.scope (m.heap.module module).scope) : a.machine = b.machine := by
  obtain ⟨f, functions, classes, hma⟩ := ha.rest
  obtain ⟨g, functions', classes', hmb⟩ := hb.rest
  rw [hma, hmb] at hf hcl hlive
  have hscopes : (m₁.heap.modifyScope (m.heap.module module).scope f).scopes =
      (m₁.heap.modifyScope (m.heap.module module).scope g).scopes := by
    refine Arena.ext_get ((Arena.size_modify _ _ _).trans (Arena.size_modify _ _ _).symm) fun r _ => ?_
    by_cases hr : r = (m.heap.module module).scope
    · rw [hr]
      exact hlive
    · exact (Arena.get_modify_of_ne m₁.heap.scopes f hr).trans (Arena.get_modify_of_ne m₁.heap.scopes g hr).symm
  dsimp only at hf hcl
  rw [hma, hmb, hf, hcl]
  dsimp only
  rw [hscopes]
  rfl

end

end Merge

/-- A merge without hooks, in which each old function and each old class is paired with a single new one,
comes to the same machine in whatever order it takes the shared names: the same live bindings, and every
function and every class in the same state. -/
theorem merge_in_any_order {limit : Nat} {u : CodeUnit} {module : ModuleRef} {m m₁ : Machine}
    (hc : m.heap.Closed) (hm : m.heap.HasModule module) (he : Merge.Executed limit u module m m₁)
    (hh : ∀ hook old k, ¬ Merge.CallsHook limit u module m hook old k)
    (hfunctions : m₁.heap.FunctionsOnce (m.heap.bindings module) (m₁.heap.scope m.heap.newScope.1))
    (hclasses : m₁.heap.PairsOnce (m.heap.bindings module) (m₁.heap.scope m.heap.newScope.1)) :
    ∃ s m', merge limit u module m = .ok s m' ∧
      ∀ xs : List Name, xs.Perm (Merge.sharedNames module m m₁) →
        ∃ a, Merge.Reaches limit module m m₁ xs a ∧ a.machine = m' := by
  obtain ⟨s, m', h⟩ := he.succeeds hh
  obtain ⟨m₂, b, he₂, hrb, -, rfl⟩ := Merge.succeeds h
  cases he.symm.trans he₂
  refine ⟨s, b.machine, h, fun xs hp => ?_⟩
  have hnodup := he.nodup_sharedNames hm
  obtain ⟨a, ha⟩ := he.arranged hm hc hh xs (hp.nodup_iff.2 hnodup) fun x hx => hp.subset hx
  obtain ⟨b', hb⟩ := he.arranged hm hc hh _ hnodup fun x hx => hx
  obtain rfl := hrb.unique hb.reaches
  refine ⟨a, ha.reaches, ha.machine_eq hb ?_ ?_ ?_⟩
  · exact ha.functions_eq hb he hm hp hfunctions
  · exact ha.classes_eq hb he hm hp hc hclasses fun x hx => hp.mem_iff.2 hx
  · exact ha.settling.unique hb.settling hp fun x hx => he.bound_of_mem hm (hp.subset hx)

namespace Sample

/-- A function and its other name, a class and the name of its inner class, and a method both as a function
and as the method of an instance. -/
def tangle (n : Int64) (y : Name) : List Stmt :=
  [constant "f" n, sameAs "g" "f",
    .classDef "C" [] [holder "D" y,
      .function "hello" [⟨"self", none⟩] [.leave (some (.int n .dummy)) .dummy] none .dummy] none .dummy,
    .bind "D" (.attr (.ident "C" .dummy) "D" .dummy) .dummy,
    .bind "hello" (.attr (.ident "C" .dummy) "hello" .dummy) .dummy,
    .bind "say" (.attr (.call (.ident "C" .dummy) [] .dummy) "hello" .dummy) .dummy]

def tangled : Machine := machine (tangle 1 "a")

def retangle : CodeUnit := ⟨"m", tangle 2 "b"⟩

def retangledRun : Machine := ranOn retangle tangled

theorem retangle_executed : Merge.Executed 10 retangle module tangled retangledRun :=
  ranOn_executed (by decide +kernel)

theorem retangle_calls_no_hook (hook old : Value) (k : Machine) :
    ¬ Merge.CallsHook 10 retangle module tangled hook old k :=
  retangle_executed.calls_no_hook_of_values (machine_hasModule _) (machine_closed _) (by decide +kernel)
    hook old k

theorem retangled_functionsOnce : retangledRun.heap.FunctionsOnce (tangled.heap.bindings module)
    (retangledRun.heap.scope tangled.heap.newScope.1) :=
  single_of_mem (fun hp => hp.mem) (by decide +kernel)

theorem retangled_pairsOnce : retangledRun.heap.PairsOnce (tangled.heap.bindings module)
    (retangledRun.heap.scope tangled.heap.newScope.1) := by
  have hall : ∀ {c d : ClassRef}, retangledRun.heap.Paired (tangled.heap.bindings module)
      (retangledRun.heap.scope tangled.heap.newScope.1) c d →
      (c, d) ∈ ([(⟨1⟩, ⟨3⟩), (⟨0⟩, ⟨2⟩)] : List (ClassRef × ClassRef)) :=
    fun hp => hp.mem (by decide +kernel) (by decide +kernel)
  exact single_of_mem hall (by decide)

end Sample

/-- From the last name to the first, the walk comes to the inner class before the class that holds it. -/
theorem merge_in_any_order_reversed :
    Merge.sharedNames Sample.module Sample.tangled Sample.retangledRun = ["f", "g", "C", "D", "hello", "say"] ∧
      ∃ s m', merge 10 Sample.retangle Sample.module Sample.tangled = .ok s m' ∧
        ∃ a, Merge.Reaches 10 Sample.module Sample.tangled Sample.retangledRun
          ["say", "hello", "D", "C", "g", "f"] a ∧ a.machine = m' := by
  have hnames : Merge.sharedNames Sample.module Sample.tangled Sample.retangledRun =
      ["f", "g", "C", "D", "hello", "say"] := by
    decide +kernel
  have hperm : ["say", "hello", "D", "C", "g", "f"].Perm
      (Merge.sharedNames Sample.module Sample.tangled Sample.retangledRun) := by
    rw [hnames]
    exact List.reverse_perm ["f", "g", "C", "D", "hello", "say"]
  obtain ⟨s, m', h, horder⟩ := merge_in_any_order (Sample.machine_closed _) (Sample.machine_hasModule _)
    Sample.retangle_executed Sample.retangle_calls_no_hook Sample.retangled_functionsOnce
    Sample.retangled_pairsOnce
  exact ⟨hnames, s, m', h, horder _ hperm⟩

end LivePatch
