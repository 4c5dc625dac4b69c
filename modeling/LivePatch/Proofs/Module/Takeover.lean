/-
What a merge without hooks makes of functions and classes. A name keeps its function or class, which
takes over a new version; but an object can be bound to several names, and the unit can bind these to
different versions. A function takes over every version in turn, so that the last one stands; a class
takes over the first version that it is paired with, and passes over the others.
-/
import LivePatch.Proofs.Machine.Closed
import LivePatch.Proofs.Module.Outcome
import LivePatch.Proofs.Module.Pairing

namespace LivePatch

/-! ## Pairs -/

namespace Heap

/-- The functions behind an old value and a new one of the same kind. -/
def functionPair? (h : Heap) (old new : Value) : Option (FunctionRef × FunctionRef) :=
  match old, new with
  | .function f, .function g => some (f, g)
  | .method m, .method n => some ((h.method m).function, (h.method n).function)
  | _, _ => none

/-- The pairs of functions that some shared names make, in the order of the names. -/
def functionPairs (h : Heap) (old new : Bindings Value) (names : List Name) :
    List (FunctionRef × FunctionRef) :=
  names.filterMap fun x =>
    match old.get? x, new.get? x with
    | some v, some w => h.functionPair? v w
    | _, _ => none

/-- The pairs of classes that the updates of some shared names come to, first come first served. -/
def classPairs (h : Heap) (old new : Bindings Value) (names : List Name) : List (ClassRef × ClassRef) :=
  names.foldl (fun ps x =>
    match old.get? x, new.get? x with
    | some (.type c), some (.type d) => h.pairWithin (h.classes.size + 1) c d ps
    | _, _ => ps) []

/-- The state of a function when the pairs have been dealt with in order. -/
def patched (h : Heap) (f : FunctionRef) (ps : List (FunctionRef × FunctionRef)) : FunctionState :=
  ps.foldl (fun s p => if p.1 = f then s.patch (h.function p.2).state else s) (h.function f).state

variable {h k : Heap} {f : FunctionRef}

theorem functionPair?_congr (hk : k.methods = h.methods) (v w : Value) :
    k.functionPair? v w = h.functionPair? v w := by
  unfold functionPair? method
  rw [hk]

theorem behind?_of_functionPair? {v w : Value} {g : FunctionRef} (hp : h.functionPair? v w = some (f, g)) :
    h.behind? v = some f ∧ h.behind? w = some g := by
  unfold functionPair? at hp
  split at hp <;> cases hp <;> exact ⟨rfl, rfl⟩

/-- Behind a value there is always the same function. -/
theorem behind?_later {pre : Heap} (hp : h.Persists k) {v : Value} (hv : v.MadeBetween pre h) :
    k.behind? v = h.behind? v := by
  cases v with
  | method m => exact congrArg (fun o => some o.function) (hp.methods.get m hv.2)
  | _ => rfl

/-- The function behind a value of a closed region lies within. -/
theorem behind?_within {R : Region} (hc : R.Closed h) {v : Value} (hv : R.Has h (.value v))
    (hf : h.behind? v = some f) : R.Has h (.value (.function f)) := by
  cases v with
  | function g =>
    cases hf
    exact hv
  | method m =>
    cases hf
    exact hc.refs hv _ (List.mem_cons_of_mem _ (List.mem_singleton_self _))
  | _ => cases hf

/-- The function behind an old value is old, and the one behind a value of the unit is new. -/
theorem functionPair?_made {pre : Heap} {scope : ScopeRef} (hc : pre.Closed) (hi : Isolated pre scope h)
    {v w : Value} {g : FunctionRef} (hp : h.functionPair? v w = some (f, g))
    (hv : v.MadeBetween .empty pre) (hw : w.MadeBetween pre h) :
    (Value.function f).MadeBetween .empty pre ∧ (Value.function g).MadeBetween pre h := by
  obtain ⟨hf, hg⟩ := behind?_of_functionPair? hp
  rw [behind?_later hi.kept.footprint.persists hv] at hf
  exact ⟨behind?_within (R := .whole) hc hv hf, behind?_within hi.closed hw hg⟩

theorem functionPairs_split {old new : Bindings Value} {x : Name} {v w : Value} (before later : List Name)
    (hv : old.get? x = some v) (hw : new.get? x = some w) :
    h.functionPairs old new (before ++ x :: later) =
      h.functionPairs old new before ++ ((h.functionPair? v w).toList ++ h.functionPairs old new later) := by
  unfold functionPairs
  rw [List.filterMap_append, List.filterMap_cons, hv, hw]
  dsimp only
  cases h.functionPair? v w <;> rfl

theorem mem_functionPairs {old new : Bindings Value} {names : List Name} {p : FunctionRef × FunctionRef}
    (hp : p ∈ h.functionPairs old new names) : ∃ x ∈ names, ∃ v w, old.get? x = some v ∧ new.get? x = some w ∧
      h.functionPair? v w = some p := by
  obtain ⟨x, hx, hp⟩ := List.mem_filterMap.1 hp
  split at hp
  · exact ⟨x, hx, _, _, ‹_›, ‹_›, hp⟩
  · cases hp

theorem patched_append (ps : List (FunctionRef × FunctionRef)) (p : FunctionRef × FunctionRef) :
    h.patched f (ps ++ [p]) =
      if p.1 = f then (h.patched f ps).patch (h.function p.2).state else h.patched f ps := by
  unfold patched
  rw [List.foldl_append]
  rfl

theorem patched_append_of_ne (ps : List (FunctionRef × FunctionRef)) {qs : List (FunctionRef × FunctionRef)}
    (hf : ∀ p ∈ qs, p.1 ≠ f) : h.patched f (ps ++ qs) = h.patched f ps := by
  induction qs using List.reverseRecOn with
  | nil => rw [List.append_nil]
  | append_singleton qs q ih =>
    rw [← List.append_assoc, patched_append, if_neg (hf q (by simp))]
    exact ih fun p hp => hf p (List.mem_append_left _ hp)

theorem patched_of_ne {ps : List (FunctionRef × FunctionRef)} (hf : ∀ p ∈ ps, p.1 ≠ f) :
    h.patched f ps = (h.function f).state := patched_append_of_ne [] hf

/-- A function that is paired once takes over the one function that it is paired with. -/
theorem patched_once {before later : List (FunctionRef × FunctionRef)} {g : FunctionRef}
    (hb : ∀ p ∈ before, p.1 ≠ f) (hl : ∀ p ∈ later, p.1 ≠ f) :
    h.patched f (before ++ (f, g) :: later) = (h.function f).state.patch (h.function g).state := by
  rw [show before ++ (f, g) :: later = before ++ [(f, g)] ++ later by simp, patched_append_of_ne _ hl,
    patched_append, if_pos rfl, patched_of_ne hb]

/-- A function that is paired at all has the doc text, code and defaults of the last one that it is
paired with. -/
theorem patched_last (h : Heap) {f : FunctionRef} (ps : List (FunctionRef × FunctionRef)) (hf : ∃ g, (f, g) ∈ ps) :
    ∃ before g after, ps = before ++ (f, g) :: after ∧ (∀ p ∈ after, p.1 ≠ f) ∧
      (h.patched f ps).doc = (h.function g).state.doc ∧
      (h.patched f ps).code = (h.function g).state.code ∧
      (h.patched f ps).defaults = (h.function g).state.defaults := by
  induction ps using List.reverseRecOn with
  | nil =>
    obtain ⟨g, hg⟩ := hf
    cases hg
  | append_singleton ps p ih =>
    rw [patched_append]
    by_cases he : p.1 = f
    · rw [if_pos he]
      subst he
      exact ⟨ps, p.2, [], rfl, by simp, rfl, rfl, rfl⟩
    · rw [if_neg he]
      obtain ⟨g, hg⟩ := hf
      rcases List.mem_append.1 hg with hg | hg
      · obtain ⟨before, k, after, rfl, hafter, hstate⟩ := ih ⟨g, hg⟩
        refine ⟨before, k, after ++ [p], by simp, fun q hq => ?_, hstate⟩
        rcases List.mem_append.1 hq with hq | hq
        · exact hafter q hq
        · rw [List.mem_singleton.1 hq]
          exact he
      · exact absurd (congrArg Prod.fst (List.mem_singleton.1 hg)).symm he

end Heap

/-- The ways in which an old object is updated in place: along a pair of classes, along a pair of
functions, or not at all. -/
theorem Update.inPlace_pair (v w : Value) (s : Journaled) :
    (∃ c d, v = .type c ∧ w = .type d ∧ (inPlace v w s).2 = s.updateClass c d) ∨
      (∃ f g, s.heap.functionPair? v w = some (f, g) ∧ (∀ c d, v = .type c → w ≠ .type d) ∧
        (inPlace v w s).2 = s.updateFunction f g) ∨
      (s.heap.functionPair? v w = none ∧ (∀ c d, v = .type c → w ≠ .type d) ∧
        (inPlace v w s).2 = s) := by
  unfold inPlace Heap.functionPair?
  split
  · exact .inl ⟨_, _, rfl, rfl, rfl⟩
  · exact .inr (.inl ⟨_, _, rfl, nofun, rfl⟩)
  · exact .inr (.inl ⟨_, _, rfl, nofun, rfl⟩)
  · rename_i hc hf hm
    refine .inr (.inr ⟨?_, fun c d hv hw => hc c d hv hw, rfl⟩)
    split
    · exact absurd rfl (hf _ _ rfl)
    · exact absurd rfl (hm _ _ rfl)
    · rfl

/-! ## New objects -/

/-- Classes of a closed region have the same attributes on two heaps on which they are the same. -/
theorem Isolated.lookup_congr {pre h k : Heap} {scope : ScopeRef} (hi : Isolated pre scope h)
    (hk : ∀ {d : ClassRef}, (Value.type d).MadeBetween pre h → k.type d = h.type d) {c : ClassRef}
    (hc : (Value.type c).MadeBetween pre h) (x : Name) : k.lookup c x = h.lookup c x := by
  have hwithin : ∀ (n : Nat) (c : ClassRef), (Value.type c).MadeBetween pre h →
      k.lookupWithin x n c = h.lookupWithin x n c := by
    intro n
    induction n with
    | zero => intro c _; rfl
    | succ n ih =>
      intro c hc
      unfold Heap.lookupWithin
      rw [hk hc, findSome?_congr fun b hb => ?_]
      -- the bases lie in the region as well
      exact ih b (hi.closed.refs (a := .value (.type c)) hc _
        (List.mem_append_left _ (List.mem_map_of_mem hb)))
  exact hwithin _ c hc

theorem Update.hook?_congr {h k : Heap} {v : Value}
    (hk : k.attr? v updateHook = h.attr? v updateHook) : hook? k v = hook? h v := by
  unfold hook?
  rw [hk]

/-! ## The course -/

namespace Merge

section Course

variable {pre h : Heap} {scope : ScopeRef} {old new : Bindings Value} {done : List Name}
  {s : Journaled} {v w : Value} {x : Name}

/-- How far a merge without hooks has come when some shared names have been updated. -/
structure Taking (pre h : Heap) (old new : Bindings Value) (done : List Name) (s : Journaled) : Prop where
  walked : Journaled.Walked h (Journaled.Straddles pre h) (h.classPairs old new done) s
  updated : ∀ p ∈ h.classPairs old new done, Journaled.Updated h p s.heap
  functions : ∀ f : FunctionRef, f.index < h.functions.size →
    (s.heap.function f).state = h.patched f (h.functionPairs old new done)
  older : ∀ p ∈ h.functionPairs old new done, p.1.index < pre.functions.size
  size : s.heap.functions.size = h.functions.size
  methods : s.heap.methods = h.methods
  instances : s.heap.instances = h.instances

theorem classPairs_append (h : Heap) (old new : Bindings Value) (done : List Name) (x : Name) :
    h.classPairs old new (done ++ [x]) =
      match old.get? x, new.get? x with
      | some (.type c), some (.type d) =>
        h.pairWithin (h.classes.size + 1) c d (h.classPairs old new done)
      | _, _ => h.classPairs old new done := by
  unfold Heap.classPairs
  rw [List.foldl_append]
  rfl

theorem classPairs_of_none (done : List Name) (hv : old.get? x = some v) (hw : new.get? x = some w)
    (hc : ∀ c d, v = .type c → w ≠ .type d) :
    h.classPairs old new (done ++ [x]) = h.classPairs old new done := by
  rw [classPairs_append, hv, hw]
  split
  · rename_i hc' hd'
    cases hc'
    cases hd'
    exact absurd rfl (hc _ _ rfl)
  · rfl

theorem functionPairs_append (h : Heap) (done : List Name) (hv : old.get? x = some v)
    (hw : new.get? x = some w) :
    h.functionPairs old new (done ++ [x]) =
      h.functionPairs old new done ++ (h.functionPair? v w).toList := by
  rw [Heap.functionPairs_split done [] hv hw]
  exact congrArg _ (List.append_nil _)

theorem mem_classPairs_append {p : ClassRef × ClassRef} (xs : List Name) {ys : List Name}
    (hp : p ∈ h.classPairs old new ys) : p ∈ h.classPairs old new (ys ++ xs) := by
  induction xs using List.reverseRecOn with
  | nil =>
    rw [List.append_nil]
    exact hp
  | append_singleton xs x ih =>
    rw [← List.append_assoc, classPairs_append]
    split
    · exact Heap.mem_pairWithin_of_mem _ ih
    · exact ih

/-- A pair that has come up was led to from the classes of a shared name. -/
theorem leads_of_mem_classPairs {p : ClassRef × ClassRef} (xs : List Name)
    (hp : p ∈ h.classPairs old new xs) :
    ∃ y ∈ xs, ∃ c d, old.get? y = some (.type c) ∧ new.get? y = some (.type d) ∧
      h.Leads c d p.1 p.2 := by
  induction xs using List.reverseRecOn with
  | nil => cases hp
  | append_singleton xs x ih =>
    have hearlier : p ∈ h.classPairs old new xs → ∃ y ∈ xs ++ [x], ∃ c d,
        old.get? y = some (.type c) ∧ new.get? y = some (.type d) ∧ h.Leads c d p.1 p.2 := by
      intro hp
      obtain ⟨y, hy, hrest⟩ := ih hp
      exact ⟨y, List.mem_append_left _ hy, hrest⟩
    rw [classPairs_append] at hp
    split at hp
    · rename_i c d hc hd
      rcases Heap.leads_of_mem_pairWithin _ hp with hp | hp
      · exact hearlier hp
      · exact ⟨x, by simp, c, d, hc, hd, hp⟩
    · exact hearlier hp

/-- The class of a shared name is paired with the new class of this name, or with one to which an
earlier name has led. -/
theorem classPairs_cases (before later : List Name) {c d : ClassRef}
    (hc : old.get? x = some (.type c)) (hd : new.get? x = some (.type d)) :
    ∃ d', (c, d') ∈ h.classPairs old new (before ++ x :: later) ∧
      (d' = d ∨ ∃ y ∈ before, ∃ c₀ d₀, old.get? y = some (.type c₀) ∧
        new.get? y = some (.type d₀) ∧ h.Leads c₀ d₀ c d') := by
  rw [show before ++ x :: later = before ++ [x] ++ later by simp]
  have hstep := classPairs_append h old new before x
  rw [hc, hd] at hstep
  by_cases hmem : c ∈ (h.classPairs old new before).map Prod.fst
  · obtain ⟨⟨e, d'⟩, hp, rfl⟩ := List.mem_map.1 hmem
    refine ⟨d', mem_classPairs_append later ?_, .inr (leads_of_mem_classPairs before hp)⟩
    rw [hstep]
    exact Heap.mem_pairWithin_of_mem _ hp
  · refine ⟨d, mem_classPairs_append later ?_, .inl rfl⟩
    rw [hstep]
    exact Heap.mem_pairWithin_self _ d hmem

namespace Taking

theorem took (ht : Taking pre h old new done s) : ∀ p ∈ h.classPairs old new done, h.Took p s.heap :=
  fun p hp => (ht.updated p hp).took

theorem modifyScope {j : Journal} {k : Heap} (ht : Taking pre h old new done ⟨j, k⟩) (r : ScopeRef)
    (f : Bindings Value → Bindings Value) : Taking pre h old new done ⟨j, k.modifyScope r f⟩ :=
  { ht with walked := { ht.walked with } }

/-- A pair that is neither of functions nor of classes changes nothing. -/
theorem skip (ht : Taking pre h old new done s) (hv : old.get? x = some v) (hw : new.get? x = some w)
    (hf : h.functionPair? v w = none) (hc : ∀ c d, v = .type c → w ≠ .type d) :
    Taking pre h old new (done ++ [x]) s := by
  have hfs : h.functionPairs old new (done ++ [x]) = h.functionPairs old new done := by
    rw [functionPairs_append h done hv hw, hf]
    exact List.append_nil _
  have hcs := classPairs_of_none (h := h) done hv hw hc
  exact ⟨hcs ▸ ht.walked, hcs ▸ ht.updated, hfs ▸ ht.functions, hfs ▸ ht.older, ht.size, ht.methods,
    ht.instances⟩

/-- What a unit has made is what it was at the beginning. -/
theorem new_function (ht : Taking pre h old new done s) {g : FunctionRef}
    (hg : (Value.function g).MadeBetween pre h) : (s.heap.function g).state = (h.function g).state := by
  rw [ht.functions g hg.2]
  refine Heap.patched_of_ne fun p hp hpg => ?_
  have hlt := ht.older p hp
  rw [hpg] at hlt
  exact Nat.not_lt.2 hg.1 hlt

/-- A pair of functions: the old one takes over the new one. -/
theorem patch (ht : Taking pre h old new done s) (hle : pre.functions.size ≤ h.functions.size)
    (hv : old.get? x = some v) (hw : new.get? x = some w) {f g : FunctionRef}
    (hp : h.functionPair? v w = some (f, g)) (hc : ∀ c d, v = .type c → w ≠ .type d)
    (hf : f.index < pre.functions.size) (hg : (Value.function g).MadeBetween pre h) :
    Taking pre h old new (done ++ [x]) (s.updateFunction f g) := by
  have hne : f ≠ g := by
    rintro rfl
    exact Nat.not_lt.2 hg.1 hf
  have hlt : f.index < s.heap.functions.size := by
    rw [ht.size]
    omega
  have hfs : h.functionPairs old new (done ++ [x]) = h.functionPairs old new done ++ [(f, g)] := by
    rw [functionPairs_append h done hv hw, hp]
    rfl
  have hcs := classPairs_of_none (h := h) done hv hw hc
  have heq : s.updateFunction f g = ⟨s.journal.recordFunction s.heap f,
      s.heap.modifyFunction f (·.patch (s.heap.function g).state)⟩ := by
    unfold Journaled.updateFunction
    rw [if_neg hne]
    rfl
  rw [heq, ht.new_function hg]
  refine ⟨?_, ?_, fun e he => ?_, fun p hp => ?_, ?_, ht.methods, ht.instances⟩
  · rw [hcs]
    refine { ht.walked with visited := fun c => ?_ }
    rw [Journal.hasClass_recordFunction]
    exact ht.walked.visited c
  · rw [hcs]
    exact ht.updated
  · rw [hfs, Heap.patched_append]
    by_cases hfe : f = e
    · subst hfe
      rw [if_pos rfl, Heap.function_modifyFunction_self _ hlt, ← ht.functions f he]
    · rw [if_neg hfe, Heap.function_modifyFunction_of_ne _ fun hef => hfe hef.symm]
      exact ht.functions e he
  · rw [hfs] at hp
    rcases List.mem_append.1 hp with hp | hp
    · exact ht.older p hp
    · rw [List.mem_singleton.1 hp]
      exact hf
  · rw [← ht.size]
    exact Arena.size_modify _ _ _

/-- A pair of classes: the update of the old one comes to the pairs that can be read off. -/
theorem walk (ht : Taking pre h old new done s) (hc : pre.Closed) (hi : Isolated pre scope h)
    {c d : ClassRef} (hv : old.get? x = some (.type c)) (hw : new.get? x = some (.type d))
    (hold : c.index < pre.classes.size) (hnew : (Value.type d).MadeBetween pre h) :
    Taking pre h old new (done ++ [x]) (s.updateClass c d) := by
  have hfs : h.functionPairs old new (done ++ [x]) = h.functionPairs old new done := by
    rw [functionPairs_append h done hv hw]
    exact List.append_nil _
  have hcs : h.classPairs old new (done ++ [x]) =
      h.pairWithin (h.classes.size + 1) c d (h.classPairs old new done) := by
    rw [classPairs_append, hv, hw]
  have hon := Journaled.updateClassWithin_onward (Journaled.Straddles.walkable hc hi) (h.classes.size + 1)
    ⟨hold, hnew⟩ ht.walked
  obtain ⟨classes, hothers⟩ := s.updateClass_others c d
  have hfun := congrArg Heap.functions hothers
  have hmeth := congrArg Heap.methods hothers
  have hinst := congrArg Heap.instances hothers
  clear hothers
  unfold Journaled.updateClass at hfun hmeth hinst ⊢
  rw [ht.walked.size] at hfun hmeth hinst ⊢
  refine ⟨?_, fun p hp => ?_, fun f hf => ?_, ?_, ?_, hmeth.trans ht.methods, hinst.trans ht.instances⟩
  · rw [hcs]
    exact hon.walked
  · rw [hcs] at hp
    obtain ⟨rs, hrs, hupdated⟩ := hon.more
    rw [hrs] at hp
    rcases List.mem_append.1 hp with hp | hp
    · exact hon.updated (fun q hq => List.mem_map_of_mem hq) ht.updated p hp
    · exact hupdated p hp
  · rw [hfs, ← ht.functions f hf]
    exact congrArg (fun a => (Arena.get a f).state) hfun
  · rw [hfs]
    exact ht.older
  · rw [hfun]
    exact ht.size

/-- Without a hook, one more shared name is dealt with. -/
theorem performed {limit : Nat} {j j' : Journal} {m m' : Machine} {u : Update}
    (ht : Taking pre h old new done ⟨j, m.heap⟩) (hc : pre.Closed) (hi : Isolated pre scope h)
    (hv : old.get? x = some v) (hw : new.get? x = some w) (hold : v.MadeBetween .empty pre)
    (hnew : w.MadeBetween pre h) (hp : Update.Performed (Run.call limit) v w j m u j' m')
    (hh : ∀ hook k, ¬ Update.Asks m v w hook k) : Taking pre h old new (done ++ [x]) ⟨j', m'.heap⟩ := by
  cases hp with
  | unchanged he =>
    subst he
    refine ht.skip hv hw ?_ fun c d hvc => ?_
    · -- no object is both old and new
      cases v with
      | function f => exact absurd hold.2 (Nat.not_lt.2 hnew.1)
      | method r => exact absurd hold.2 (Nat.not_lt.2 hnew.1)
      | _ => rfl
    · subst hvc
      exact absurd hold.2 (Nat.not_lt.2 hnew.1)
  | replaced hk =>
    refine ht.skip hv hw ?_ fun c d hvc hwd => hk ?_
    · unfold Heap.functionPair?
      split
      · exact absurd rfl hk
      · exact absurd rfl hk
      · rfl
    · rw [hvc, hwd]
      rfl
  | asked ha => exact absurd ha (hh _ _)
  | inPlace =>
    show Taking pre h old new (done ++ [x]) (Update.inPlace v w ⟨j, m.heap⟩).2
    rcases Update.inPlace_pair v w ⟨j, m.heap⟩ with
      ⟨c, d, rfl, rfl, e⟩ | ⟨f, g, hpair, hno, e⟩ | ⟨hpair, hno, e⟩
    · rw [e]
      exact ht.walk hc hi hv hw hold.2 hnew
    · rw [e]
      rw [Heap.functionPair?_congr ht.methods] at hpair
      obtain ⟨hf, hg⟩ := Heap.functionPair?_made hc hi hpair hold hnew
      exact ht.patch hi.kept.functions.size hv hw hpair hno hf.2 hg
    · rw [e]
      rw [Heap.functionPair?_congr ht.methods] at hpair
      exact ht.skip hv hw hpair hno

/-- What a unit has made has the attributes that it had at the beginning. -/
theorem attr?_new (ht : Taking pre h old new done s) (hi : Isolated pre scope h)
    (hp : h.Persists s.heap) (hw : w.MadeBetween pre h) (x : Name) :
    s.heap.attr? w x = h.attr? w x := by
  have hclass : ∀ {d : ClassRef}, (Value.type d).MadeBetween pre h → s.heap.type d = h.type d :=
    fun hd => ht.walked.new hd
  have hfunction : ∀ {g : FunctionRef}, (Value.function g).MadeBetween pre h →
      s.heap.functionAttr? g x = h.functionAttr? g x := by
    intro g hg
    have heq : s.heap.function g = h.function g :=
      FunctionObject.eq_of_fixed (hp.functions.get g hg.2) (ht.new_function hg)
    unfold Heap.functionAttr?
    rw [heq]
  cases w with
  | object o =>
    have hobj : s.heap.object o = h.object o := congrArg (Arena.get · o) ht.instances
    have hc : (Value.type (h.object o).type).MadeBetween pre h :=
      hi.closed.refs (a := .value (.object o)) hw _ (List.mem_cons_self ..)
    unfold Heap.attr?
    simp only [hobj, hi.lookup_congr hclass hc]
  | type d =>
    unfold Heap.attr?
    simp only [hclass hw, hi.lookup_congr hclass hw]
  | function g =>
    unfold Heap.attr?
    simp only [hfunction hw]
  | method r =>
    have hmethod : s.heap.method r = h.method r := congrArg (Arena.get · r) ht.methods
    have hf : (Value.function (h.method r).function).MadeBetween pre h :=
      hi.closed.refs (a := .value (.method r)) hw _ (List.mem_cons_of_mem _ (List.mem_cons_self ..))
    unfold Heap.attr?
    simp only [hmethod, hfunction hf]
  | _ => rfl

/-- So it has the hook that it had. -/
theorem hook?_new (ht : Taking pre h old new done s) (hi : Isolated pre scope h)
    (hp : h.Persists s.heap) (hw : w.MadeBetween pre h) : Update.hook? s.heap w = Update.hook? h w :=
  Update.hook?_congr (ht.attr?_new hi hp hw updateHook)

end Taking

end Course

section Whole

variable {limit : Nat} {u : CodeUnit} {module : ModuleRef} {m m₁ : Machine}

/-- What the live namespace binds to begin with was there before the unit ran. -/
theorem Executed.old_made (hc : m.heap.Closed) {x : Name} {v : Value}
    (hv : (m.heap.bindings module).get? x = some v) : v.MadeBetween .empty m.heap := hc.bound hv

/-- What the unit has bound it has made. -/
theorem Executed.new_made (he : Executed limit u module m m₁) {x : Name} {w : Value}
    (hw : (m₁.heap.scope m.heap.newScope.1).get? x = some w) : w.MadeBetween m.heap m₁.heap :=
  he.isolated.1.closed.scopes _ rfl (.value w) (List.mem_map_of_mem (Bindings.mem_values_of_get? hw))

theorem opening_taking (hm : m.heap.HasModule module) (m₁ : Machine) :
    let a := opening m.heap.newScope.1 (m.heap.module module).scope m₁
    Taking m.heap m₁.heap (m.heap.bindings module) (m₁.heap.scope m.heap.newScope.1) []
      ⟨a.journal, a.machine.heap⟩ := by
  intro a
  have ha : a.machine.heap = _ := opening_heap hm.newScope_ne m₁
  rw [ha]
  refine ⟨⟨fun c => ⟨nofun, nofun⟩, fun c _ => rfl, List.nodup_nil, nofun, rfl⟩, nofun, fun f _ => rfl,
    nofun, rfl, rfl, rfl⟩

theorem Executed.bound_of_mem (he : Executed limit u module m m₁) (hm : m.heap.HasModule module) {x : Name}
    (hx : x ∈ sharedNames module m m₁) :
    ∃ v w, (m.heap.bindings module).get? x = some v ∧ (m₁.heap.scope m.heap.newScope.1).get? x = some w := by
  rw [he.sharedNames_eq hm] at hx
  obtain ⟨ho, hn⟩ := NameDiff.mem_shared.1 hx
  rw [Bindings.mem_names_iff, Option.isSome_iff_exists] at ho hn
  obtain ⟨v, hv⟩ := ho
  obtain ⟨w, hw⟩ := hn
  exact ⟨v, w, hv, hw⟩

/-- When its turn comes, a shared name still has its old value and its new one. -/
theorem Executed.bound_at_turn (he : Executed limit u module m m₁) (hm : m.heap.HasModule module)
    {done todo : List Name} {x : Name} (hd : sharedNames module m m₁ = done ++ x :: todo) {a : Stage}
    (ha : Reaches limit module m m₁ done a) :
    (a.machine.heap.scope (m.heap.module module).scope).get? x = (m.heap.bindings module).get? x ∧
      (a.machine.heap.scope m.heap.newScope.1).get? x = (m₁.heap.scope m.heap.newScope.1).get? x := by
  obtain ⟨hshared, hx⟩ := he.mem_shared hm hd
  rw [(he.reaches hm ha).2]
  exact ⟨((he.progress hm hd ha).others x hx).trans (shared_opening hshared).2, rfl⟩

/-- As long as no hook is asked, a merge deals with one shared name after the other. -/
theorem Executed.taking (he : Executed limit u module m m₁) (hm : m.heap.HasModule module)
    (hc : m.heap.Closed)
    (hh : ∀ {done x todo a}, sharedNames module m m₁ = done ++ x :: todo → Turn limit u module m x a →
      Reaches limit module m m₁ done a →
      Taking m.heap m₁.heap (m.heap.bindings module) (m₁.heap.scope m.heap.newScope.1) done
        ⟨a.journal, a.machine.heap⟩ →
      ∀ old hook k, ¬ AsksAt m.heap.newScope.1 (m.heap.module module).scope x a old hook k)
    {xs todo : List Name} (hxs : sharedNames module m m₁ = xs ++ todo) {a : Stage}
    (hp : Reaches limit module m m₁ xs a) :
    Taking m.heap m₁.heap (m.heap.bindings module) (m₁.heap.scope m.heap.newScope.1) xs
      ⟨a.journal, a.machine.heap⟩ := by
  refine he.induct (I := fun done a => Taking m.heap m₁.heap (m.heap.bindings module)
    (m₁.heap.scope m.heap.newScope.1) done ⟨a.journal, a.machine.heap⟩) (opening_taking hm m₁) ?_ hxs hp
  intro done x todo a b hd ha hturn htaking hstep
  obtain ⟨hlive, hscratch⟩ := he.bound_at_turn hm hd ha
  obtain ⟨v, w, hv, hw⟩ := he.bound_of_mem hm (x := x) (by rw [hd]; simp)
  cases hstep with
  | unbound hnone =>
    rw [hlive, hscratch, hv, hw] at hnone
    simp at hnone
  | @bound v' w' up j k hv' hw' hu =>
    have hno : ∀ hook k, ¬ Update.Asks a.machine v' w' hook k :=
      fun hook k hasks => hh hd hturn ha htaking v' hook k ⟨hv', w', hw', hasks⟩
    rw [hlive] at hv'
    rw [hscratch] at hw'
    exact (htaking.performed hc he.isolated.1 hv' hw' (old_made hc hv') (he.new_made hw') hu
      hno).modifyScope _ _

/-- As long as no hook was asked, the values of the unit have the hooks that they had when the unit had
run. -/
theorem Executed.hook?_at_turn (he : Executed limit u module m m₁) (hm : m.heap.HasModule module)
    {done todo : List Name} {x : Name} (hd : sharedNames module m m₁ = done ++ x :: todo) {a : Stage}
    (hreach : Reaches limit module m m₁ done a)
    (ht : Taking m.heap m₁.heap (m.heap.bindings module) (m₁.heap.scope m.heap.newScope.1) done
      ⟨a.journal, a.machine.heap⟩) {old hook : Value} {k : Machine}
    (ha : AsksAt m.heap.newScope.1 (m.heap.module module).scope x a old hook k) :
    ∃ w, (m₁.heap.scope m.heap.newScope.1).get? x = some w ∧ Update.hook? m₁.heap w ≠ none := by
  obtain ⟨-, w, hw, hasks⟩ := ha
  rw [(he.bound_at_turn hm hd hreach).2] at hw
  obtain ⟨found, hf, -, -⟩ := hasks.found
  refine ⟨w, hw, fun hnone => ?_⟩
  rw [ht.hook?_new he.isolated.1 (he.reaches hm hreach).1 (he.new_made hw), hnone] at hf
  cases hf

/-- When no value of the unit has a hook, none is called. -/
theorem Executed.calls_no_hook (he : Executed limit u module m m₁) (hm : m.heap.HasModule module)
    (hc : m.heap.Closed)
    (hno : ∀ x w, (m₁.heap.scope m.heap.newScope.1).get? x = some w → Update.hook? m₁.heap w = none)
    (hook old : Value) (k : Machine) : ¬ CallsHook limit u module m hook old k := by
  have hh : ∀ {done x todo a}, sharedNames module m m₁ = done ++ x :: todo → Turn limit u module m x a →
      Reaches limit module m m₁ done a →
      Taking m.heap m₁.heap (m.heap.bindings module) (m₁.heap.scope m.heap.newScope.1) done
        ⟨a.journal, a.machine.heap⟩ →
      ∀ old hook k, ¬ AsksAt m.heap.newScope.1 (m.heap.module module).scope x a old hook k := by
    intro done x todo a hd _ hreach ht old hook k ha
    obtain ⟨w, hw, hne⟩ := he.hook?_at_turn hm hd hreach ht ha
    exact hne (hno x w hw)
  rintro ⟨x, a, hturn, ha⟩
  obtain ⟨m₂, done, todo, he₂, hd, hreach⟩ := id hturn
  cases he.symm.trans he₂
  exact hh hd hturn hreach (he.taking hm hc hh hd hreach) old hook k ha

theorem Executed.calls_no_hook_of_values (he : Executed limit u module m m₁)
    (hm : m.heap.HasModule module) (hc : m.heap.Closed)
    (hno : ∀ w ∈ (m₁.heap.scope m.heap.newScope.1).values, Update.hook? m₁.heap w = none)
    (hook old : Value) (k : Machine) : ¬ CallsHook limit u module m hook old k :=
  he.calls_no_hook hm hc (fun _ w hw => hno w (Bindings.mem_values_of_get? hw)) hook old k

/-- Without a hook, an old value that can be updated stays, and any other is replaced. -/
theorem Settled.value {m : Machine} {v w b : Value} {o : Outcome} (hs : Settled limit m v w b o)
    (hno : ∀ hook k, ¬ Update.Asks m v w hook k) :
    (v.kind = w.kind ∧ v.Patchable → b = v) ∧ (¬ (v.kind = w.kind ∧ v.Patchable) → b = w) := by
  cases hs with
  | unchanged he => exact ⟨fun _ => rfl, fun _ => he⟩
  | patched _ hk _ hp => exact ⟨fun _ => rfl, fun hno => absurd ⟨hk, hp⟩ hno⟩
  | rebound _ _ _ hno => exact ⟨fun hp => absurd hp.2 hno, fun _ => rfl⟩
  | replaced hne => exact ⟨fun hk => absurd hk.1 hne, fun _ => rfl⟩
  | asked ha => exact absurd ha (hno _ _)

/-- Without hooks, a name that has an old and a new value keeps the old one if both are of one kind and it
can be updated, and takes the new one if not. -/
theorem Executed.settled (he : Executed limit u module m m₁) (hm : m.heap.HasModule module)
    (hh : ∀ hook old k, ¬ CallsHook limit u module m hook old k) {after : Bindings Value} {s : Summary}
    {x : Name} {v w : Value}
    (ht : Treats limit u module m (m.heap.bindings module) (m₁.heap.scope m.heap.newScope.1) after s x)
    (hv : (m.heap.bindings module).get? x = some v)
    (hw : (m₁.heap.scope m.heap.newScope.1).get? x = some w) :
    (v.kind = w.kind ∧ v.Patchable → after.get? x = some v) ∧
      (¬ (v.kind = w.kind ∧ v.Patchable) → after.get? x = some w) := by
  obtain ⟨a, v', w', b, o, hturn, hv', hw', hs, hb, -, -⟩ := ht
  cases hv.symm.trans hv'
  cases hw.symm.trans hw'
  obtain ⟨m₂, done, todo, he₂, hd, hreach⟩ := id hturn
  cases he.symm.trans he₂
  obtain ⟨hlive, hscratch⟩ := he.bound_at_turn hm hd hreach
  have hno : ∀ hook k, ¬ Update.Asks a.machine v w hook k := fun hook k ha =>
    hh hook v k ⟨x, a, hturn, hlive.trans hv, w, hscratch.trans hw, ha⟩
  obtain ⟨hkeeps, htakes⟩ := hs.value hno
  exact ⟨fun h => hb.trans (congrArg some (hkeeps h)), fun h => hb.trans (congrArg some (htakes h))⟩

theorem Executed.treated (he : Executed limit u module m m₁) (hm : m.heap.HasModule module)
    (hh : ∀ hook old k, ¬ CallsHook limit u module m hook old k) {after : Bindings Value} {s : Summary}
    {x : Name} {v w : Value}
    (ht : Treats limit u module m (m.heap.bindings module) (m₁.heap.scope m.heap.newScope.1) after s x)
    (hv : (m.heap.bindings module).get? x = some v)
    (hw : (m₁.heap.scope m.heap.newScope.1).get? x = some w) (hk : v.kind = w.kind) :
    (v.Patchable → after.get? x = some v) ∧ (¬ v.Patchable → after.get? x = some w) := by
  obtain ⟨hold, hnew⟩ := he.settled hm hh ht hv hw
  exact ⟨fun hp => hold ⟨hk, hp⟩, fun hno => hnew fun hp => hno hp.2⟩

end Whole

/-! ## The end -/

/-- What shared names have taken over: the unit has run on the heap `h`, and `after` and `k` are the live
bindings and the heap in the end. -/
structure TakenOver (h : Heap) (old new : Bindings Value) (names : List Name) (after : Bindings Value)
    (k : Heap) : Prop where
  /-- A name that is bound to a function keeps it, and the function has the doc text, code and defaults
  of the last function that it is paired with. -/
  function : ∀ {x f g}, old.get? x = some (.function f) → new.get? x = some (.function g) →
    after.get? x = some (.function f) ∧
      ∃ before g' later, h.functionPairs old new names = before ++ (f, g') :: later ∧
        (∀ p ∈ later, p.1 ≠ f) ∧
        (k.function f).state.doc = (h.function g').state.doc ∧
        (k.function f).state.code = (h.function g').state.code ∧
        (k.function f).state.defaults = (h.function g').state.defaults
  /-- A name that is bound to a class keeps it, and the class has the attributes of the first class that
  it is paired with: the new class of the name, or one to which an earlier name has led. -/
  type : ∀ {x c d}, old.get? x = some (.type c) → new.get? x = some (.type d) →
    after.get? x = some (.type c) ∧
      ∃ before later d', names = before ++ x :: later ∧ (c, d') ∈ h.classPairs old new names ∧
        (d' = d ∨ ∃ y ∈ before, ∃ c₀ d₀, old.get? y = some (.type c₀) ∧
          new.get? y = some (.type d₀) ∧ h.Leads c₀ d₀ c d') ∧
        ∀ y, y ∉ preservedSlots → (y ∈ (k.type c).attrs.names ↔ y ∈ (h.type d').attrs.names)
  /-- No class is paired twice. -/
  single : ((h.classPairs old new names).map Prod.fst).Nodup

end Merge

theorem Heap.mem_names_of_took {h k : Heap} {c d : ClassRef} (ht : h.Took (c, d) k) {x : Name}
    (hx : x ∉ preservedSlots) : x ∈ (k.type c).attrs.names ↔ x ∈ (h.type d).attrs.names := by
  rw [Bindings.mem_names_iff, Bindings.mem_names_iff, ht x]
  show (h.slotAfter c d x).isSome = true ↔ _
  unfold slotAfter
  rw [if_neg fun hp => hx hp.1]
  split
  · rename_i c' d' hs
    rw [(sharedClasses?_eq_some hs).2]
    rfl
  · rfl

/-- In a merge that succeeds and calls no hook, each shared name keeps its function or class. A function
takes over every version that it is paired with, so that the last one stands; a class takes over the first
one. -/
theorem merge_takes_over {limit : Nat} {u : CodeUnit} {module : ModuleRef} {m m' : Machine} {s : Summary}
    (hc : m.heap.Closed) (hm : m.heap.HasModule module) (h : merge limit u module m = .ok s m')
    (hh : ∀ hook old k, ¬ Merge.CallsHook limit u module m hook old k) :
    ∃ m₁, Merge.Executed limit u module m m₁ ∧
      Merge.TakenOver m₁.heap (m.heap.bindings module) (m₁.heap.scope m.heap.newScope.1)
        (Merge.sharedNames module m m₁) (m'.heap.bindings module) m'.heap := by
  obtain ⟨m₁, a, he, hp, rfl, rfl⟩ := Merge.succeeds h
  have hprog := he.progress hm (List.append_nil _).symm hp
  have htaking := he.taking hm hc (fun _ hturn _ _ old hook k ha => hh hook old k ⟨_, _, hturn, ha⟩)
    (List.append_nil _).symm hp
  have hlater := he.persists.trans (he.reaches hm hp).1
  have hscope : a.machine.heap.bindings module = a.machine.heap.scope (m.heap.module module).scope :=
    congrArg a.machine.heap.scope (hlater.scope_module hm.module_lt)
  rw [← hscope] at hprog
  have hshared : ∀ {x v w}, (m.heap.bindings module).get? x = some v →
      (m₁.heap.scope m.heap.newScope.1).get? x = some w → x ∈ Merge.sharedNames module m m₁ := by
    intro x v w hv hw
    rw [he.sharedNames_eq hm]
    refine NameDiff.mem_shared.2 ⟨?_, ?_⟩
    · rw [Bindings.mem_names_iff, hv]; rfl
    · rw [Bindings.mem_names_iff, hw]; rfl
  refine ⟨m₁, he, ⟨fun {x f g} hv hw => ?_, fun {x c d} hv hw => ?_, htaking.walked.nodup⟩⟩
  · have hx := hshared hv hw
    refine ⟨(he.treated hm hh (hprog.treats x hx) hv hw rfl).1 trivial, ?_⟩
    have hpair : (f, g) ∈ m₁.heap.functionPairs (m.heap.bindings module)
        (m₁.heap.scope m.heap.newScope.1) (Merge.sharedNames module m m₁) := by
      refine List.mem_filterMap.2 ⟨x, hx, ?_⟩
      rw [hv, hw]
      rfl
    obtain ⟨before, g', later, hsplit, hlast, hstate⟩ := m₁.heap.patched_last _ ⟨g, hpair⟩
    refine ⟨before, g', later, hsplit, hlast, ?_⟩
    have hf : f.index < m₁.heap.functions.size :=
      Nat.lt_of_lt_of_le (Merge.Executed.old_made hc hv).2 he.persists.functions.size
    rw [htaking.functions f hf]
    exact hstate
  · have hx := hshared hv hw
    refine ⟨(he.treated hm hh (hprog.treats x hx) hv hw rfl).1 trivial, ?_⟩
    obtain ⟨before, later, hsplit⟩ := List.append_of_mem hx
    obtain ⟨d', hpair, hd'⟩ := Merge.classPairs_cases before later hv hw
    rw [← hsplit] at hpair
    exact ⟨before, later, d', hsplit, hpair, hd', fun y hy =>
      Heap.mem_names_of_took (htaking.took _ hpair) hy⟩

/-! ## Names of one object -/

namespace Sample

/-- A class that holds one number. -/
def holder (x y : Name) : Stmt := .classDef x [] [number y 1] none .dummy

def sameAs (x y : Name) : Stmt := .bind x (.ident y .dummy) .dummy

/-- A module in which a function has two names, and so has a class. -/
def aliased : Machine :=
  machine [constant "f" 1, sameAs "g" "f", holder "C" "a", sameAs "D" "C"]

/-- A unit that gives each of the names an object of its own. -/
def split : CodeUnit := ⟨"m", [constant "f" 2, constant "g" 3, holder "C" "b", holder "D" "c"]⟩

/-- The machine on which the unit has run. -/
def splitRun : Machine :=
  Run.final (split.run 10 aliased.heap.newScope.1 "m" { aliased with heap := aliased.heap.newScope.2 })

/-- The machine after the merge. -/
def merged : Machine := Run.final (merge 10 split module aliased)

theorem split_executed : Merge.Executed 10 split module aliased splitRun := Run.eq_ok_final rfl

theorem split_merged : merge 10 split module aliased = .ok ⟨[], [], ["f", "g", "C", "D"], []⟩ merged :=
  Run.eq_ok_final (by decide +kernel)

theorem machine_hasModule (body : List Stmt) : (machine body).heap.HasModule module :=
  (Heap.hasModule_newModule (h := .empty) "m" none).later
    (CodeUnit.run_keeps (L := .closed) (m := ⟨_, 0⟩) (Heap.closed_empty.newModule "m" none) 10 _ trivial
      trivial "m").final.2

theorem machine_closed (body : List Stmt) : (machine body).heap.Closed :=
  CodeUnit.run_closed (m := ⟨_, 0⟩) (Heap.closed_empty.newModule "m" none) 10 _ _ "m"

theorem split_calls_no_hook (hook old : Value) (k : Machine) :
    ¬ Merge.CallsHook 10 split module aliased hook old k :=
  split_executed.calls_no_hook_of_values (machine_hasModule _) (machine_closed _) (by decide +kernel) hook old k

end Sample

theorem merge_takes_over_split :
    ∃ m₁, Merge.Executed 10 Sample.split Sample.module Sample.aliased m₁ ∧
      Merge.TakenOver m₁.heap (Sample.aliased.heap.bindings Sample.module)
        (m₁.heap.scope Sample.aliased.heap.newScope.1)
        (Merge.sharedNames Sample.module Sample.aliased m₁)
        (Sample.merged.heap.bindings Sample.module) Sample.merged.heap :=
  merge_takes_over (Sample.machine_closed _) (Sample.machine_hasModule _) Sample.split_merged
    Sample.split_calls_no_hook

/-- The name `f` has got the code of the new `g`, with which it shares its function, and the name `D` has
got the attributes of the new `C`. -/
theorem merge_mixes_names :
    merge 10 Sample.split Sample.module Sample.aliased =
        .ok ⟨[], [], ["f", "g", "C", "D"], []⟩ Sample.merged ∧
      (∀ hook old k, ¬ Merge.CallsHook 10 Sample.split Sample.module Sample.aliased hook old k) ∧
      Merge.Executed 10 Sample.split Sample.module Sample.aliased Sample.splitRun ∧
      (Sample.aliased.heap.bindings Sample.module).get? "f" = some (.function ⟨0⟩) ∧
      (Sample.splitRun.heap.scope Sample.aliased.heap.newScope.1).get? "f" = some (.function ⟨1⟩) ∧
      (Sample.merged.heap.bindings Sample.module).get? "f" = some (.function ⟨0⟩) ∧
      (Sample.merged.heap.function ⟨0⟩).state.code ≠ (Sample.splitRun.heap.function ⟨1⟩).state.code ∧
      (Sample.aliased.heap.bindings Sample.module).get? "D" = some (.type ⟨0⟩) ∧
      (Sample.splitRun.heap.scope Sample.aliased.heap.newScope.1).get? "D" = some (.type ⟨2⟩) ∧
      (Sample.merged.heap.bindings Sample.module).get? "D" = some (.type ⟨0⟩) ∧
      "c" ∉ (Sample.merged.heap.type ⟨0⟩).attrs.names ∧
      "c" ∈ (Sample.splitRun.heap.type ⟨2⟩).attrs.names := by
  refine ⟨Sample.split_merged, Sample.split_calls_no_hook, Sample.split_executed, by decide +kernel,
    by decide +kernel, by decide +kernel, fun hcode => ?_, by decide +kernel, by decide +kernel,
    by decide +kernel, by decide +kernel, by decide +kernel⟩
  have hlive : (Sample.merged.heap.function ⟨0⟩).state.code =
      ⟨[], [.leave (some (.int 3 .dummy)) .dummy]⟩ := rfl
  have hnew : (Sample.splitRun.heap.function ⟨1⟩).state.code =
      ⟨[], [.leave (some (.int 2 .dummy)) .dummy]⟩ := rfl
  rw [hlive, hnew] at hcode
  simp at hcode

end LivePatch
