/-
A merge that fails. What a merge changes by itself, it has recorded before: every object that was there
either is as it was, or has a record of what it was. Going back through the records therefore gives
back everything, whatever the hooks did to names, and up to what the hooks themselves wrote.
-/
import LivePatch.Proofs.Module.Course

namespace LivePatch

/-- Between two moments, no object of a heap was written to. -/
structure Heap.Spared (pre h k : Heap) : Prop where
  functions : ∀ f : FunctionRef, f.index < pre.functions.size → k.function f = h.function f
  classes : ∀ c : ClassRef, c.index < pre.classes.size → k.type c = h.type c
  instances : ∀ o : InstanceRef, o.index < pre.instances.size → k.object o = h.object o

theorem Heap.Extends.spared {pre h k : Heap} (he : h.Extends k) (hp : pre.Persists h) : pre.Spared h k where
  functions f hf := he.functions.get f (Nat.lt_of_lt_of_le hf hp.functions.size)
  classes c hc := he.classes.get c (Nat.lt_of_lt_of_le hc hp.classes.size)
  instances o ho := he.instances.get o (Nat.lt_of_lt_of_le ho hp.instances.size)

/-- A function that gets back the state it had is what it was. -/
theorem Heap.Persists.function_restored {h k : Heap} (hp : h.Persists k) {f : FunctionRef}
    (hf : f.index < h.functions.size) :
    (k.modifyFunction f fun _ => (h.function f).state).function f = h.function f := by
  rw [k.function_modifyFunction_self (Nat.lt_of_lt_of_le hf hp.functions.size)]
  exact FunctionObject.eq_of_fixed (hp.functions.get f hf) rfl

/-- A class that gets back the attributes it had is what it was. -/
theorem Heap.Persists.type_restored {h k : Heap} (hp : h.Persists k) {c : ClassRef}
    (hc : c.index < h.classes.size) :
    (k.modifyAttrs c fun _ => (h.type c).attrs).type c = h.type c := by
  rw [k.type_modifyAttrs_self (Nat.lt_of_lt_of_le hc hp.classes.size)]
  exact ClassObject.eq_of_fixed (hp.classes.get c hc) rfl

namespace Journal

/-- A record of an object that was there holds what the object was. -/
def Record.Faithful (pre : Heap) : Record → Prop
  | function f state => f.index < pre.functions.size → state = (pre.function f).state
  | type c attrs => c.index < pre.classes.size → attrs = (pre.type c).attrs

/-- Every object that was there is as it was or has a faithful record. Only the bindings of the live
namespace are left open. -/
structure Covers (pre : Heap) (live : ScopeRef) (records : List Record) (h : Heap) : Prop where
  faithful : ∀ r ∈ records, r.Faithful pre
  persists : pre.Persists h
  scopes : ∀ s : ScopeRef, s.index < pre.scopes.size → s ≠ live → h.scope s = pre.scope s
  functions : ∀ f : FunctionRef, f.index < pre.functions.size →
    h.function f = pre.function f ∨ records.any (·.isOfFunction f) = true
  classes : ∀ c : ClassRef, c.index < pre.classes.size →
    h.type c = pre.type c ∨ records.any (·.isOfClass c) = true
  instances : ∀ o : InstanceRef, o.index < pre.instances.size → h.object o = pre.object o
  modules : pre.modules.Keeps id h.modules

namespace Covers

variable {pre : Heap} {live : ScopeRef} {rs : List Record} {h k : Heap}

theorem start (he : pre.Extends h) (live : ScopeRef) : Covers pre live [] h where
  faithful r hr := by cases hr
  persists := he.footprint.persists
  scopes s hs _ := he.scopes.get s hs
  functions f hf := .inl (he.functions.get f hf)
  classes c hc := .inl (he.classes.get c hc)
  instances o ho := he.instances.get o ho
  modules := he.modules

/-- What spares the objects that were there needs no record. -/
theorem later (hc : Covers pre live rs h) (hf : h.Footprint k) (hs : pre.Spared h k) :
    Covers pre live rs k where
  faithful := hc.faithful
  persists := hc.persists.trans hf.persists
  scopes s hs hne := by
    rw [hf.scope_eq (Nat.lt_of_lt_of_le hs hc.persists.scopes)]
    exact hc.scopes s hs hne
  functions f hf := by
    rw [hs.functions f hf]
    exact hc.functions f hf
  classes c hc' := by
    rw [hs.classes c hc']
    exact hc.classes c hc'
  instances o ho := by
    rw [hs.instances o ho]
    exact hc.instances o ho
  modules := hc.modules.trans hf.modules

theorem modifyScope (hc : Covers pre live rs h) (f : Bindings Value → Bindings Value) :
    Covers pre live rs (h.modifyScope live f) :=
  { hc with
    persists := hc.persists.trans (h.persists_modifyScope live f)
    scopes := fun s hs hne => by
      rw [← hc.scopes s hs hne]
      exact Arena.get_modify_of_ne h.scopes f hne }

theorem modifyFunction (hc : Covers pre live rs h) {f : FunctionRef}
    (hr : rs.any (·.isOfFunction f) = true) (g : FunctionState → FunctionState) :
    Covers pre live rs (h.modifyFunction f g) :=
  { hc with
    persists := hc.persists.trans (h.persists_modifyFunction f g)
    functions := fun e he => by
      by_cases hef : e = f
      · subst hef
        exact .inr hr
      · rw [show (h.modifyFunction f g).function e = h.function e from
          Arena.get_modify_of_ne h.functions _ hef]
        exact hc.functions e he }

theorem modifyAttrs (hc : Covers pre live rs h) {c : ClassRef} (hr : rs.any (·.isOfClass c) = true)
    (g : Bindings Value → Bindings Value) : Covers pre live rs (h.modifyAttrs c g) :=
  { hc with
    persists := hc.persists.trans (h.footprint_modifyAttrs c g).persists
    classes := fun d hd => by
      by_cases hdc : d = c
      · subst hdc
        exact .inr hr
      · rw [show (h.modifyAttrs c g).type d = h.type d from Arena.get_modify_of_ne h.classes _ hdc]
        exact hc.classes d hd }

/-! ## Recording -/

theorem cons (hc : Covers pre live rs h) {r : Record} (hr : r.Faithful pre) :
    Covers pre live (r :: rs) h :=
  { hc with
    faithful := fun s hs => by
      rcases List.mem_cons.1 hs with rfl | hs
      · exact hr
      · exact hc.faithful s hs
    functions := fun f hf => by
      rw [List.any_cons, Bool.or_eq_true]
      exact (hc.functions f hf).imp id .inr
    classes := fun c hc' => by
      rw [List.any_cons, Bool.or_eq_true]
      exact (hc.classes c hc').imp id .inr }

theorem recordFunction {j : Journal} (hc : Covers pre live j.records h) (f : FunctionRef) :
    Covers pre live (j.recordFunction h f).records h := by
  unfold Journal.recordFunction
  split
  · exact hc
  · rename_i hr
    refine hc.cons fun hf => ?_
    rcases hc.functions f hf with he | he
    · rw [he]
    · exact absurd he hr

theorem recordClass {j : Journal} (hc : Covers pre live j.records h) (c : ClassRef) :
    Covers pre live (j.recordClass h c).records h := by
  unfold Journal.recordClass
  split
  · exact hc
  · rename_i hr
    refine hc.cons fun hc' => ?_
    rcases hc.classes c hc' with he | he
    · rw [he]
    · exact absurd he hr

/-! ## Updates -/

theorem updateFunction {s : Journaled} (hc : Covers pre live s.journal.records s.heap)
    (f g : FunctionRef) :
    Covers pre live (s.updateFunction f g).journal.records (s.updateFunction f g).heap := by
  rcases s.updateFunction_cases f g with e | e
  · rw [e]
    exact hc
  · rw [e]
    exact (hc.recordFunction f).modifyFunction (s.journal.hasFunction_recordFunction s.heap f)
      (·.patch (s.heap.function g).state)

/-- The law of the update of a class: what it changes has a record. -/
def law (pre : Heap) (live : ScopeRef) : Journaled.ClassLaw where
  inv s := Covers pre live s.journal.records s.heap
  allowed _ := True
  attr _ _ _ := trivial
  record hs _ := hs.recordClass _
  change hs hr _ := hs.modifyAttrs hr _

theorem updateClass {s : Journaled} (hc : Covers pre live s.journal.records s.heap) (c d : ClassRef) :
    Covers pre live (s.updateClass c d).journal.records (s.updateClass c d).heap :=
  (law pre live).updateClass_keeps hc trivial trivial

theorem inPlace {s : Journaled} (hc : Covers pre live s.journal.records s.heap) (old new : Value) :
    Covers pre live (Update.inPlace old new s).2.journal.records (Update.inPlace old new s).2.heap := by
  rcases Update.inPlace_cases old new s with ⟨c, d, -, -, e⟩ | ⟨f, g, -, -, e⟩ | e
  · rw [e]
    exact hc.updateClass c d
  · rw [e]
    exact hc.updateFunction f g
  · rw [e]
    exact hc

/-! ## Going back -/

theorem restoreFunction {f : FunctionRef} {state : FunctionState}
    (hc : Covers pre live (.function f state :: rs) h) :
    Covers pre live rs (h.modifyFunction f fun _ => state) := by
  have hr := hc.faithful _ (List.mem_cons_self ..)
  have hk := hc.modifyFunction (f := f) (by simp [Record.isOfFunction]) fun _ => state
  have hback : f.index < pre.functions.size →
      (h.modifyFunction f fun _ => state).function f = pre.function f := by
    intro hf
    rw [hr hf]
    exact hc.persists.function_restored hf
  refine { hk with
    faithful := fun s hs => hc.faithful s (List.mem_cons_of_mem _ hs)
    functions := fun e he => ?_
    classes := fun c hc' => (hk.classes c hc').imp id fun ha => by simpa [Record.isOfClass] using ha }
  by_cases hef : e = f
  · subst hef
    exact .inl (hback he)
  · have hfe : ¬ f = e := fun hfe => hef hfe.symm
    exact (hk.functions e he).imp id fun ha => by simpa [Record.isOfFunction, hfe] using ha

theorem restoreClass {c : ClassRef} {attrs : Bindings Value}
    (hc : Covers pre live (.type c attrs :: rs) h) :
    Covers pre live rs (h.modifyAttrs c fun _ => attrs) := by
  have hr := hc.faithful _ (List.mem_cons_self ..)
  have hk := hc.modifyAttrs (c := c) (by simp [Record.isOfClass]) fun _ => attrs
  have hback : c.index < pre.classes.size → (h.modifyAttrs c fun _ => attrs).type c = pre.type c := by
    intro hc'
    rw [hr hc']
    exact hc.persists.type_restored hc'
  refine { hk with
    faithful := fun s hs => hc.faithful s (List.mem_cons_of_mem _ hs)
    functions := fun f hf => (hk.functions f hf).imp id fun ha => by simpa [Record.isOfFunction] using ha
    classes := fun d hd => ?_ }
  by_cases hdc : d = c
  · subst hdc
    exact .inl (hback hd)
  · have hcd : ¬ c = d := fun hcd => hdc hcd.symm
    exact (hk.classes d hd).imp id fun ha => by simpa [Record.isOfClass, hcd] using ha

/-- Going back through one record leaves the rest to the others. -/
theorem restore {r : Record} (hc : Covers pre live (r :: rs) h) : Covers pre live rs (r.restore h) := by
  cases r with
  | function f state => exact hc.restoreFunction
  | type c attrs => exact hc.restoreClass

theorem restore_all (rs : List Record) :
    ∀ {h : Heap}, Covers pre live rs h → Covers pre live [] (rs.foldl Record.restore h) := by
  induction rs with
  | nil => intro h hc; exact hc
  | cons r rs ih => intro h hc; exact ih hc.restore

end Covers

/-- Going back through records touches nothing but functions and classes. -/
theorem foldl_restore (rs : List Record) (h : Heap) :
    rs.foldl Record.restore h = { h with
      functions := (rs.foldl Record.restore h).functions
      classes := (rs.foldl Record.restore h).classes } := by
  induction rs generalizing h with
  | nil => rfl
  | cons r rs ih =>
    rw [List.foldl_cons, ih]
    cases r <;> rfl

theorem rollback_eq (j : Journal) (h : Heap) :
    j.rollback h = { h with
      scopes := h.scopes.modify j.scope fun _ => j.bindings
      functions := (j.records.foldl Record.restore h).functions
      classes := (j.records.foldl Record.restore h).classes } := by
  rw [rollback, foldl_restore]
  rfl

theorem rollback_module (j : Journal) (h : Heap) (module : ModuleRef) :
    (j.rollback h).module module = h.module module := by
  rw [rollback_eq]
  rfl

theorem persists_restore (h : Heap) (r : Record) : h.Persists (r.restore h) := by
  cases r with
  | function f state => exact h.persists_modifyFunction f fun _ => state
  | type c attrs => exact (h.footprint_modifyAttrs c fun _ => attrs).persists

theorem persists_rollback (j : Journal) (h : Heap) : h.Persists (j.rollback h) := by
  refine Heap.Persists.trans ?_ (Heap.persists_modifyScope _ _ _)
  refine List.foldlRecOn (motive := fun k => h.Persists k) j.records Record.restore (.refl h) ?_
  intro k hk r _
  exact hk.trans (persists_restore k r)

theorem rollback_scope (j : Journal) {h : Heap} (hs : j.scope.index < h.scopes.size) :
    (j.rollback h).scope j.scope = j.bindings := by
  rw [rollback_eq]
  exact Arena.get_modify_self h.scopes _ hs

theorem rollback_extends {pre h : Heap} {j : Journal} (hc : Covers pre j.scope j.records h)
    (hb : j.bindings = pre.scope j.scope) : pre.Extends (j.rollback h) := by
  have hk := (hc.restore_all j.records).modifyScope fun _ => j.bindings
  refine ⟨⟨hk.persists.scopes, fun s hs => ?_⟩, ⟨hk.persists.functions.size, fun f hf => ?_⟩,
    hk.persists.methods, ⟨hk.persists.classes.size, fun c hc => ?_⟩,
    ⟨hk.persists.instances.size, hk.instances⟩, hk.modules⟩
  · by_cases hne : s = j.scope
    · subst hne
      exact (j.rollback_scope (Nat.lt_of_lt_of_le hs hc.persists.scopes)).trans hb
    · exact hk.scopes s hs hne
  · exact (hk.functions f hf).resolve_right (by simp)
  · exact (hk.classes c hc).resolve_right (by simp)

end Journal

/-! ## The course of a merge -/

theorem Update.Performed.journal {limit : Nat} {old new : Value} {j j' : Journal} {m m' : Machine}
    {u : Update} (hp : Performed (Run.call limit) old new j m u j' m') :
    j'.scope = j.scope ∧ j'.bindings = j.bindings := by
  cases hp with
  | unchanged | replaced | asked => exact ⟨rfl, rfl⟩
  | inPlace =>
    rcases inPlace_cases old new ⟨j, m.heap⟩ with ⟨c, d, -, -, e⟩ | ⟨f, g, -, -, e⟩ | e
    · rw [e]
      let L : Journaled.ClassLaw :=
        { inv := fun s => s.journal.scope = j.scope ∧ s.journal.bindings = j.bindings
          allowed := fun _ => True
          attr := fun _ _ _ => trivial
          record := fun hs _ => by simpa using hs
          change := fun hs _ _ => hs }
      exact L.updateClass_keeps (s := ⟨j, m.heap⟩) ⟨rfl, rfl⟩ trivial trivial
    · rw [e]
      rcases Journaled.updateFunction_cases ⟨j, m.heap⟩ f g with e | e <;> simp [e]
    · rw [e]
      exact ⟨rfl, rfl⟩

/-- An update keeps the objects covered when its hook spares them. -/
theorem Journal.Covers.performed {pre : Heap} {live : ScopeRef} {limit : Nat} {old new : Value}
    {j j' : Journal} {m m' : Machine} {u : Update} (hc : Covers pre live j.records m.heap)
    (hp : Update.Performed (Run.call limit) old new j m u j' m')
    (hs : ∀ hook k, Update.Asks m old new hook k →
      pre.Spared k.heap (Run.final (Run.call limit hook [old] k)).heap) :
    Covers pre live j'.records m'.heap := by
  cases hp with
  | unchanged | replaced => exact hc
  | @asked hook v k m' ha hr =>
    have hf := Run.call_footprint limit hook [old] k
    have hs := hs hook k ha
    rw [hr] at hf hs
    have hk := hc.later ha.extends.footprint (ha.extends.spared hc.persists)
    exact hk.later hf hs
  | inPlace => exact hc.inPlace (s := ⟨j, m.heap⟩) old new

namespace Merge

variable {limit : Nat} {u : CodeUnit} {module : ModuleRef} {m : Machine} {x : Name} {a : Stage}

/-- At every turn, the journal has the bindings of the beginning. -/
theorem Turn.journal (hm : m.heap.HasModule module) (ht : Turn limit u module m x a) :
    a.journal.scope = (m.heap.module module).scope ∧ a.journal.bindings = m.heap.bindings module := by
  obtain ⟨m₁, done, todo, he, hxs, hp⟩ := ht
  refine he.induct (I := fun _ a => a.journal.scope = (m.heap.module module).scope ∧
    a.journal.bindings = m.heap.bindings module) ⟨rfl, he.live_eq hm⟩ ?_ hxs hp
  rintro done y todo b c - - - ⟨hs, hb⟩ hstep
  cases hstep with
  | unbound => exact ⟨hs, hb⟩
  | bound ho hn hu => exact ⟨hu.journal.1.trans hs, hu.journal.2.trans hb⟩

/-- At every turn, the objects that were there are covered, if all hooks have spared them. -/
theorem Turn.covers (hm : m.heap.HasModule module)
    (hs : ∀ hook old k, CallsHook limit u module m hook old k →
      m.heap.Spared k.heap (Run.final (Run.call limit hook [old] k)).heap)
    (ht : Turn limit u module m x a) :
    Journal.Covers m.heap (m.heap.module module).scope a.journal.records a.machine.heap := by
  obtain ⟨m₁, done, todo, he, hxs, hp⟩ := ht
  refine he.induct (I := fun _ a =>
    Journal.Covers m.heap (m.heap.module module).scope a.journal.records a.machine.heap) ?_ ?_ hxs hp
  · rw [opening_heap hm.newScope_ne]
    exact (Journal.Covers.start he.isolated.1.kept _).modifyScope _
  · intro done y todo b c _ _ hturn hc hstep
    cases hstep with
    | unbound => exact hc
    | bound ho hn hu =>
      refine (hc.performed hu fun hook k ha => ?_).modifyScope _
      exact hs hook _ k ⟨y, b, hturn, ho, _, hn, ha⟩

end Merge

/-! ## Failure -/

/-- A merge that fails leaves the module with the bindings that it had, whatever its hooks have done. If
the hooks themselves wrote to nothing that was there, then everything that was there is as it was. -/
theorem merge_failure {limit : Nat} {u : CodeUnit} {module : ModuleRef} {m m' : Machine}
    {e : ModuleError} (hm : m.heap.HasModule module)
    (h : merge limit u module m = .error (.failure e) m') :
    m'.heap.bindings module = m.heap.bindings module ∧
      ((∀ hook old k, Merge.CallsHook limit u module m hook old k →
          m.heap.Spared k.heap (Run.final (Run.call limit hook [old] k)).heap) →
        m.heap.Extends m'.heap) := by
  rcases Merge.stops h with ⟨e', hr⟩ | ⟨x, a, old, hook, k, e', m₂, ht, ha, hc, hback⟩
  · -- the unit has failed, and nothing that was there has been touched
    have hk := Merge.extends_of_unit_error hr
    exact ⟨hk.bindings_eq hm, fun _ => hk⟩
  · obtain rfl := hback.resolve_right (by simp)
    obtain ⟨hscope, hbindings⟩ := ht.journal hm
    obtain ⟨-, new, -, hasks⟩ := id ha
    have hf : k.heap.Footprint m₂.heap := by
      rw [← show Run.final _ = m₂ from congrArg Run.final hc]
      exact Run.call_footprint limit hook [old] k
    constructor
    · have hp := (ht.persists hm).trans (hasks.extends.footprint.trans hf).persists
      unfold Heap.bindings at hbindings ⊢
      rw [Journal.rollback_module, hp.scope_module hm.module_lt, ← hbindings, ← hscope]
      refine Journal.rollback_scope _ ?_
      rw [hscope]
      exact Nat.lt_of_lt_of_le hm.scope_lt hp.scopes
    · intro hs
      have hspared := hs hook old k ⟨x, a, ht, ha⟩
      rw [hc] at hspared
      -- from the last turn on, only the failing hook has run
      have hcov := ht.covers hm hs
      have hcov := hcov.later hasks.extends.footprint (hasks.extends.spared hcov.persists)
      have hcov := hcov.later hf hspared
      rw [← hscope] at hcov
      refine Journal.rollback_extends hcov ?_
      rw [hbindings, hscope]
      rfl

/-- A merge loses no object, however it ends. -/
theorem merge_persists (limit : Nat) (u : CodeUnit) {module : ModuleRef} {m : Machine}
    (hm : m.heap.HasModule module) :
    m.heap.Persists (Run.final (merge limit u module m)).heap := by
  cases hr : merge limit u module m with
  | ok s m' =>
    obtain ⟨m₁, a, he, hp, -, rfl⟩ := Merge.succeeds hr
    exact he.persists.trans (he.reaches hm hp).1
  | error e m' =>
    show m.heap.Persists m'.heap
    rcases Merge.stops hr with ⟨e', hr⟩ | ⟨x, a, old, hook, k, e', m₂, ht, ha, hc, hback⟩
    · exact (Merge.extends_of_unit_error hr).footprint.persists
    · obtain ⟨-, new, -, hasks⟩ := ha
      have hp : m.heap.Persists m₂.heap := by
        rw [← show Run.final _ = m₂ from congrArg Run.final hc]
        have hf := Run.call_footprint limit hook [old] k
        exact (ht.persists hm).trans (hasks.extends.footprint.trans hf).persists
      -- a failure goes back, a divergence does not
      rcases hback with rfl | ⟨-, rfl⟩
      · exact hp.trans (a.journal.persists_rollback m₂.heap)
      · exact hp

/-! ## A hook that cannot be called -/

namespace Sample

def functionAndClass (n : Int64) (body : List Stmt) : List Stmt :=
  [constant "f" n, .classDef "H" [] body none .dummy]

/-- A module, and a unit that cannot be merged into it: the hook of its class is a number. -/
def plain : Machine := machine (functionAndClass 1 [])

def refused : CodeUnit := ⟨"m", functionAndClass 2 [.bind updateHook (.int 1 .dummy) .dummy]⟩

/-- The only hook that the merge meets is the number. -/
theorem refused_calls {hook old : Value} {k : Machine}
    (h : Merge.CallsHook 10 refused module plain hook old k) : hook = .int 1 := by
  obtain ⟨x, a, ⟨m₁, done, todo, he, hs, hp⟩, -, new, hn, ha⟩ := h
  obtain ⟨found, hf, rfl, -⟩ := ha.found
  obtain rfl : Run.final _ = m₁ := congrArg Run.final he
  have hs := (show _ = ["f", "H"] by decide +kernel).symm.trans hs
  match done, hs with
  | [], hs =>
    -- the function is first, and has no hook
    cases hs
    obtain rfl := hp.nil
    have hnew := (show _ = some (Value.function ⟨1⟩) by decide +kernel).symm.trans hn
    cases hnew
    cases (show _ = none by decide +kernel).symm.trans hf
  | [y], hs =>
    cases hs
    obtain ⟨summary, journal, machine⟩ := a
    obtain rfl : Merge.Shared.machine _ = machine := congrArg Merge.Shared.machine hp
    dsimp only at hn hf
    have hnew := (show _ = some (Value.type ⟨1⟩) by decide +kernel).symm.trans hn
    cases hnew
    cases (show _ = some (Attribute.value (.int 1)) by decide +kernel).symm.trans hf
    rfl
  | _ :: _ :: _, hs => simp at hs

end Sample

theorem merge_failure_refused :
    ∃ e m', merge 10 Sample.refused Sample.module Sample.plain = .error (.failure e) m' ∧
      m'.heap.bindings Sample.module = Sample.plain.heap.bindings Sample.module ∧
      Sample.plain.heap.Extends m'.heap := by
  obtain ⟨e, m', h⟩ : ∃ e m', merge 10 Sample.refused Sample.module Sample.plain =
      .error (.failure e) m' := ⟨_, _, rfl⟩
  obtain ⟨hb, hk⟩ := merge_failure ⟨by decide +kernel, by decide +kernel⟩ h
  refine ⟨e, m', h, hb, hk fun hook old k hc => ?_⟩
  -- calling a number changes nothing
  rw [Sample.refused_calls hc]
  exact ⟨fun _ _ => rfl, fun _ _ => rfl, fun _ _ => rfl⟩

end LivePatch
