/-
Where the functions of a module look for names. A function that the module got when it was imported
looks in the module's own namespace, and goes on doing so however often it is patched. A function that
came with a later merge looks in the namespace that this merge ran its unit in, and which is given up
when the merge is over.
-/
import LivePatch.Proofs.Module.Course
import LivePatch.Proofs.Program.Import

namespace LivePatch

/-- A place of the graph that is no older value. -/
def Node.Since (pre h : Heap) : Node → Prop
  | .value v => v.MadeBetween pre h
  | .scope _ => True

theorem Node.Since.later {pre h k : Heap} {a : Node} (ha : a.Since pre h) (hk : h.Persists k) :
    a.Since pre k := by
  cases a with
  | value v => exact Value.MadeBetween.later ha hk
  | scope s => trivial

/-- A module that has been merged into since some first moment. Its namespace `live` holds only what was
made since it was, and functions newer than the first moment look for names in newer namespaces. -/
structure Descends (pre : Heap) (live : ScopeRef) (first h : Heap) : Prop where
  persists : first.Persists h
  values : (Region.fresh pre live).RefersOnly (Node.Since pre h) h
  globals : h.functions.From first.functions.size fun o => first.scopes.size ≤ o.globals.index

namespace Descends

variable {pre first h : Heap} {live : ScopeRef}

theorem start (hi : Isolated pre live h) (r : ModuleRef) (origin : Path) :
    Descends pre live (h.setOrigin r origin) (h.setOrigin r origin) := by
  have hv : (Region.fresh pre live).RefersOnly (Node.Since pre (h.setOrigin r origin)) h := by
    refine hi.closed.imp fun a ha => ?_
    cases a with
    | value v => exact Value.MadeBetween.later ha (h.persists_setOrigin r origin)
    | scope s => trivial
  exact ⟨.refl _, ⟨hv.scopes, hv.functions, hv.methods, hv.classes, hv.instances⟩,
    fun f h₁ h₂ => absurd h₂ (Nat.not_lt.2 h₁)⟩

theorem refs (hd : Descends pre live first h) {v : Value} (hv : v.MadeBetween pre h) :
    ∀ b ∈ h.refs (.value v), b.Since pre h :=
  hd.values.refs (a := .value v) hv

theorem attr (hd : Descends pre live first h) {c : ClassRef} (hc : (Value.type c).MadeBetween pre h)
    {x : Name} {v : Value} (hx : (h.type c).attrs.get? x = some v) : v.MadeBetween pre h :=
  hd.refs hc _ (List.mem_append_right _ (List.mem_map_of_mem (Bindings.mem_values_of_get? hx)))

theorem bound (hd : Descends pre live first h) {x : Name} {v : Value}
    (hx : (h.scope live).get? x = some v) : v.MadeBetween pre h :=
  hd.values.scopes live rfl _ (List.mem_map_of_mem (Bindings.mem_values_of_get? hx))

theorem behind (hd : Descends pre live first h) {v : Value} (hv : v.MadeBetween pre h)
    {f : FunctionRef} (hf : h.behind? v = some f) : (Value.function f).MadeBetween pre h := by
  cases v with
  | function g =>
    cases hf
    exact hv
  | method m =>
    cases hf
    exact hd.refs hv _ (List.mem_cons_of_mem _ (List.mem_cons_self ..))
  | _ => cases hf

/-! ## The parts of a merge -/

theorem modifyScope (hd : Descends pre live first h) {f : Bindings Value → Bindings Value}
    (hf : ∀ b : Bindings Value, ∀ w ∈ (f b).values, w ∈ b.values ∨ w.MadeBetween pre h) :
    Descends pre live first (h.modifyScope live f) where
  persists := hd.persists.trans (h.persists_modifyScope live f)
  values := (hd.values.modifyScope live hf).imp fun _ ha => ha.later (h.persists_modifyScope live f)
  globals := hd.globals

theorem insert (hd : Descends pre live first h) (x : Name) {v : Value} (hv : v.MadeBetween pre h) :
    Descends pre live first (h.modifyScope live (·.insert x v)) := by
  refine hd.modifyScope fun b w hw => ?_
  rcases Bindings.mem_values_insert hw with rfl | hw
  · exact .inr hv
  · exact .inl hw

theorem updateClass {s : Journaled} (hd : Descends pre live first s.heap) {c d : ClassRef}
    (hc : (Value.type c).MadeBetween pre s.heap) (hn : (Value.type d).MadeBetween pre s.heap) :
    Descends pre live first (s.updateClass c d).heap := by
  let L : Journaled.ClassLaw :=
    { inv := fun t => s.heap.Persists t.heap ∧ t.heap.functions = s.heap.functions ∧
        (Region.fresh pre live).RefersOnly (Node.Since pre s.heap) t.heap
      allowed := fun v => v.MadeBetween pre s.heap
      attr := fun ⟨hp, _, hr⟩ hc hx => hr.refs (a := .value (.type _)) (Value.MadeBetween.later hc hp) _
        (List.mem_append_right _ (List.mem_map_of_mem (Bindings.mem_values_of_get? hx)))
      record := fun hs _ => hs
      change := fun ⟨hp, hf, hr⟩ _ hw =>
        ⟨hp.trans (Heap.footprint_modifyAttrs _ _ _).persists, hf, hr.modifyAttrs _ hw⟩ }
  obtain ⟨hp, hf, hr⟩ := L.updateClass_keeps ⟨.refl s.heap, rfl, hd.values⟩ hc hn
  refine ⟨hd.persists.trans hp, hr.imp fun _ ha => ha.later hp, ?_⟩
  rw [hf]
  exact hd.globals

/-- The update of a function takes values over from a newer one, and leaves it where it looks for
names. -/
theorem updateFunction {s : Journaled} (hd : Descends pre live first s.heap) {f g : FunctionRef}
    (hg : (Value.function g).MadeBetween pre s.heap) :
    Descends pre live first (s.updateFunction f g).heap := by
  have hp := (s.updateFunction_persists f g).1
  rcases s.updateFunction_cases f g with e | e
  · rw [e]
    exact hd
  · rw [e] at hp ⊢
    refine ⟨hd.persists.trans hp, ?_, hd.globals.modify f fun _ ho => ho⟩
    refine (hd.values.modifyFunction f (f := (·.patch (s.heap.function g).state)) fun state w hw =>
      ?_).imp fun _ ha => ha.later hp
    rcases FunctionState.mem_values_patch hw with hw | hw
    · exact .inl hw
    · exact .inr (hd.refs hg _ (List.mem_cons_of_mem _ (List.mem_map_of_mem hw)))

/-- Without a hook, a value is brought up to date with values that are no older. -/
theorem performed {limit : Nat} {old new : Value} {j j' : Journal} {m m' : Machine} {u : Update}
    (hd : Descends pre live first m.heap) (ho : old.MadeBetween pre m.heap)
    (hn : new.MadeBetween pre m.heap) (hp : Update.Performed (Run.call limit) old new j m u j' m')
    (hh : ∀ hook k, ¬ Update.Asks m old new hook k) :
    Descends pre live first m'.heap ∧ u.value.MadeBetween pre m'.heap := by
  cases hp with
  | unchanged => exact ⟨hd, ho⟩
  | replaced => exact ⟨hd, hn⟩
  | asked ha => exact absurd ha (hh _ _)
  | inPlace =>
    have hk := (Update.inPlace_persists old new ⟨j, m.heap⟩).1
    rcases Update.inPlace_cases old new ⟨j, m.heap⟩ with ⟨c, d, rfl, rfl, e⟩ | ⟨f, g, hf, hg, e⟩ | e
    · rw [e] at hk ⊢
      exact ⟨hd.updateClass (s := ⟨j, m.heap⟩) ho hn, ho.later hk⟩
    · rw [e] at hk ⊢
      exact ⟨hd.updateFunction (s := ⟨j, m.heap⟩) (hd.behind hn hg), ho.later hk⟩
    · rw [e]
      exact ⟨hd, hn⟩

/-- A unit that runs in a namespace of its own brings only new values and newer namespaces. -/
theorem executed {limit : Nat} {u : CodeUnit} {module : ModuleRef} {m m₁ : Machine}
    (hd : Descends pre live first m.heap) (hpre : pre.Persists m.heap)
    (hlive : live.index < m.heap.scopes.size) (he : Merge.Executed limit u module m m₁) :
    Descends pre live first m₁.heap := by
  obtain ⟨hi, -⟩ := he.isolated
  have hp := hi.kept.footprint.persists
  refine ⟨hd.persists.trans hp, ?_, ?_⟩
  · -- the unit's objects refer to each other only, and those of the module are as they were
    refine hd.values.grow hi.kept hi.closed rfl (fun s hs => ?_) (fun a ha => ha.later hp) fun a ha => ?_
    · cases hs
      exact hlive
    · cases a with
      | value v => exact Value.MadeBetween.earlier ha hpre
      | scope s => trivial
  · refine hd.globals.grow hi.kept.functions hi.closed.functions (fun _ ho => ho) fun o ho => ?_
    have hscope : o.globals = m.heap.newScope.1 := ho (.scope o.globals) (List.mem_cons_self ..)
    rw [hscope]
    exact hd.persists.scopes

end Descends

/-! ## Runs of merges -/

/-- A run of merges into a module, all of which succeed without calling a hook. -/
inductive Merge.History (module : ModuleRef) (m : Machine) : Machine → Prop
  | start : History module m m
  | next {limit : Nat} {u : CodeUnit} {s : Summary} {k k' : Machine} (h : History module m k)
      (hm : merge limit u module k = .ok s k')
      (hh : ∀ hook old k₂, ¬ CallsHook limit u module k hook old k₂) : History module m k'

theorem Descends.merge {pre first : Heap} {limit : Nat} {u : CodeUnit} {module : ModuleRef}
    {s : Summary} {m m' : Machine} (hd : Descends pre (m.heap.module module).scope first m.heap)
    (hpre : pre.Persists m.heap) (hmod : m.heap.HasModule module)
    (hm : merge limit u module m = .ok s m')
    (hh : ∀ hook old k, ¬ Merge.CallsHook limit u module m hook old k) :
    Descends pre (m.heap.module module).scope first m'.heap := by
  obtain ⟨m₁, a, he, hp, -, rfl⟩ := Merge.succeeds hm
  have hd₁ := hd.executed hpre hmod.scope_lt he
  have hscratch : ∀ w ∈ (m₁.heap.scope m.heap.newScope.1).values, w.MadeBetween pre m₁.heap := by
    intro w hw
    have hw := he.isolated.1.closed.scopes _ rfl (.value w) (List.mem_map_of_mem hw)
    exact Value.MadeBetween.earlier hw hpre
  refine he.induct (I := fun _ a => Descends pre (m.heap.module module).scope first a.machine.heap)
    ?_ ?_ (List.append_nil _).symm hp
  · rw [Merge.opening_heap hmod.newScope_ne]
    exact hd₁.modifyScope fun b w hw => (Merge.mem_values_openingBindings hw).imp id (hscratch w)
  · intro done x todo a b _ ha hturn hda hstep
    obtain ⟨hk, hs⟩ := he.reaches hmod ha
    cases hstep with
    | unbound => exact hda
    | bound ho hn hu =>
      have hnew := hn
      rw [hs] at hnew
      have hnew := (hscratch _ (Bindings.mem_values_of_get? hnew)).later hk
      -- the unit's value is still one that was made since the module was
      obtain ⟨hdk, hv⟩ := hda.performed (hda.bound ho) hnew hu fun hook k hasks =>
        hh hook _ k ⟨x, a, hturn, ho, _, hn, hasks⟩
      exact hdk.insert x hv

/-- So does any number of them. -/
theorem Descends.history {pre : Heap} {module : ModuleRef} {m m' : Machine}
    (hd : Descends pre (m.heap.module module).scope m.heap m.heap) (hpre : pre.Persists m.heap)
    (hmod : m.heap.HasModule module) (hh : Merge.History module m m') :
    Descends pre (m.heap.module module).scope m.heap m'.heap := by
  induction hh with
  | start => exact hd
  | next h hm hh ih =>
    have hscope := ih.persists.scope_module hmod.module_lt
    rw [← hscope] at ih ⊢
    exact ih.merge (hpre.trans ih.persists) (hmod.later ih.persists) hm hh

/-- A function bound to a name of a module, or an attribute of a class that is. -/
inductive Heap.Exposes (h : Heap) (module : ModuleRef) (f : FunctionRef) : Prop
  | name {x : Name} (hx : (h.bindings module).get? x = some (.function f)) : Exposes h module f
  | member {x y : Name} {c : ClassRef} (hx : (h.bindings module).get? x = some (.type c))
      (hy : (h.type c).attrs.get? y = some (.function f)) : Exposes h module f

/-- A function that a module exposes was made since the module was. -/
theorem Descends.exposed {pre first h : Heap} {module : ModuleRef} {f : FunctionRef}
    (hd : Descends pre (h.module module).scope first h) (hf : h.Exposes module f) :
    (Value.function f).MadeBetween pre h := by
  cases hf with
  | name hx => exact hd.bound hx
  | member hx hy => exact hd.attr (hd.bound hx) hy

/-- An import is a first moment: what it has made looks for names in the namespace of the module. -/
theorem Program.importModule_descends {find : Finder} {name : Name} {p p₀ : Program}
    {module : ModuleRef} (hn : p.modules.get? name = none)
    (hi : importModule find name p = .ok module p₀) :
    p₀.machine.heap.HasModule module ∧ ∃ pre : Heap, pre.Persists p₀.machine.heap ∧
      Descends pre (p₀.machine.heap.module module).scope p₀.machine.heap p₀.machine.heap ∧
      p₀.machine.heap.functions.From pre.functions.size fun o =>
        o.globals = (p₀.machine.heap.module module).scope := by
  obtain ⟨p', _, loaded, -, -, -, m₁, he⟩ := importModule_ok hn hi
  -- noting the origin of the module changes neither its namespace nor a function
  have hd := Descends.start he.isolated module loaded.location
  rw [← he.heap] at hd
  rw [show (p₀.machine.heap.module module).scope = _ from congrArg (·.2.1) he.fixed]
  refine ⟨he.hasModule, p'.machine.heap, he.persists, hd, ?_⟩
  intro f h₁ h₂
  rw [he.heap] at h₂ ⊢
  exact he.isolated.closed.functions f h₁ h₂ (.scope _) (List.mem_cons_self ..)

/-- After the import of a module and any number of merges into it, none of which calls a hook, the
functions of the module that look for names in its namespace are those that the import made. Every other
one came with a merge, and looks in the namespace that its unit ran in. -/
theorem Program.globals_eq_iff {find : Finder} {name : Name} {p p₀ : Program} {module : ModuleRef}
    {m : Machine} {f : FunctionRef} (hn : p.modules.get? name = none)
    (hi : importModule find name p = .ok module p₀) (hh : Merge.History module p₀.machine m)
    (hf : m.heap.Exposes module f) :
    (m.heap.function f).globals = (m.heap.module module).scope ↔
      f.index < p₀.machine.heap.functions.size := by
  obtain ⟨hm, pre, hpre, hd₀, hown⟩ := importModule_descends hn hi
  have hd := hd₀.history hpre hm hh
  have hscope := hd.persists.scope_module hm.module_lt
  have hlive := hm.scope_lt
  rw [← hscope] at hd hown hlive
  have hsince := hd.exposed hf
  constructor
  · intro hglobals
    by_contra hlt
    -- a function that came with a merge looks in a namespace that is newer than the module's
    have hle : p₀.machine.heap.scopes.size ≤ (m.heap.function f).globals.index :=
      hd.globals f (Nat.not_lt.1 hlt) hsince.2
    rw [hglobals] at hle
    omega
  · intro hlt
    have hfixed : (m.heap.function f).globals = (p₀.machine.heap.function f).globals :=
      congrArg (fun o => o.2.2) (hd.persists.functions.get f hlt)
    rw [hfixed]
    exact hown f hsince.1 hlt

namespace Sample

/-- A place where every unit is the text of a function. -/
def finder : Finder := fun _ _ =>
  .ok ⟨some ⟨"m.em", .ok "fn f() = 1".toUTF8.toList⟩, "m.em", .source⟩

def imported : Program := Run.final (Program.importModule finder "m" (.start [] 10 .keep))

/-- A unit with another version of the function, and with one more. -/
def addition : CodeUnit := ⟨"m", [constant "f" 2, constant "g" 3]⟩

def extended : Machine := Run.final (merge 10 addition module imported.machine)

theorem addition_calls (hook old : Value) (k : Machine) :
    ¬ Merge.CallsHook 10 addition module imported.machine hook old k := by
  rintro ⟨x, a, ⟨m₁, done, todo, he, hs, hp⟩, -, new, hn, ha⟩
  obtain ⟨found, hf, -, -⟩ := ha.found
  obtain rfl : Run.final _ = m₁ := congrArg Run.final he
  have hs := (show _ = ["f"] by decide +kernel).symm.trans hs
  match done, hs with
  | [], hs =>
    cases hs
    obtain rfl := hp.nil
    have hnew := (show _ = some (Value.function ⟨1⟩) by decide +kernel).symm.trans hn
    cases hnew
    cases (show _ = none by decide +kernel).symm.trans hf
  | _ :: _, hs => simp at hs

theorem addition_history : Merge.History module imported.machine extended :=
  .next .start (Run.eq_ok_final (a := ⟨["g"], [], ["f"], []⟩) (by decide +kernel)) addition_calls

end Sample

theorem Program.globals_eq_iff_addition :
    (Sample.extended.heap.function ⟨0⟩).globals = (Sample.extended.heap.module Sample.module).scope ∧
      (Sample.extended.heap.function ⟨2⟩).globals ≠ (Sample.extended.heap.module Sample.module).scope := by
  have hi : importModule Sample.finder "m" (.start [] 10 .keep) = .ok Sample.module Sample.imported :=
    Run.eq_ok_final (by decide +kernel)
  constructor
  · exact (Program.globals_eq_iff rfl hi Sample.addition_history
      (.name (x := "f") (by decide +kernel))).2 (by decide +kernel)
  · intro h
    exact absurd ((Program.globals_eq_iff rfl hi Sample.addition_history
      (.name (x := "g") (by decide +kernel))).1 h) (by decide +kernel)

end LivePatch
