/-
The versions of a function. Merges one after the other keep a function where it is and give it each version
on top of the one before: it runs the code of the last one and has gathered the attributes of all. An update
goes to the function behind a name, be it bound directly or within a method, so that a function would also
take over the versions of other names that lead to it. That no two names lead to one function holds after
every merge when it holds before the first and of each unit on its own.
-/
import LivePatch.Proofs.Module.Closed
import LivePatch.Proofs.Module.Unhooked

namespace LivePatch

/-! ## Functions behind names -/

namespace Heap

/-- The function that a name is bound to, directly or within a method. -/
def behindName? (h : Heap) (b : Bindings Value) (x : Name) : Option FunctionRef := (b.get? x).bind h.behind?

/-- No two names lead to the same function. -/
def Separates (h : Heap) (b : Bindings Value) : Prop :=
  ∀ x ∈ b.names, ∀ y ∈ b.names, h.behindName? b x ≠ none →
    h.behindName? b x = h.behindName? b y → x = y

instance (h : Heap) (b : Bindings Value) : Decidable (h.Separates b) :=
  inferInstanceAs (Decidable (∀ x ∈ b.names, ∀ y ∈ b.names, _ → _ → x = y))

/-- The same of any two bindings, by the values that they bind. -/
theorem separates_iff {h : Heap} {b : Bindings Value} : h.Separates b ↔
    ∀ {x y v w f}, b.get? x = some v → b.get? y = some w → h.behind? v = some f → h.behind? w = some f →
      x = y := by
  constructor
  · intro hs x y v w f hx hy hf hg
    have hxf : h.behindName? b x = some f := by rw [behindName?, hx, Option.bind_some, hf]
    have hyf : h.behindName? b y = some f := by rw [behindName?, hy, Option.bind_some, hg]
    exact hs x ((b.mem_names_iff x).2 (Option.isSome_of_eq_some hx)) y
      ((b.mem_names_iff y).2 (Option.isSome_of_eq_some hy)) (by simp [hxf]) (hxf.trans hyf.symm)
  · intro hs x _ y _ hne he
    obtain ⟨f, hf⟩ := Option.ne_none_iff_exists'.1 hne
    obtain ⟨v, hx, hv⟩ := Option.bind_eq_some_iff.1 hf
    obtain ⟨w, hy, hw⟩ := Option.bind_eq_some_iff.1 (he.symm.trans hf)
    exact hs hx hy hv hw

end Heap

/-! ## States -/

namespace FunctionState

/-- The attributes that versions leave are those of each on top of the ones before. -/
theorem attrs_foldl_patch (vs : List FunctionState) (s : FunctionState) :
    (vs.foldl patch s).attrs = vs.foldl (fun b v => b.override v.attrs) s.attrs := by
  induction vs generalizing s with
  | nil => rfl
  | cons v vs ih => exact ih (s.patch v)

/-- Of each attribute the latest version stands that has it. -/
theorem get?_attrs_foldl_patch (vs : List FunctionState) (s : FunctionState) (y : Name) :
    (vs.foldl patch s).attrs.get? y = (vs.reverse.findSome? (·.attrs.get? y)).or (s.attrs.get? y) := by
  induction vs using List.reverseRecOn with
  | nil => rfl
  | append_singleton vs v ih =>
    rw [List.foldl_append, List.reverse_append]
    show ((vs.foldl patch s).attrs.override v.attrs).get? y = _
    rw [Bindings.get?_override, ih]
    show _ = ((v :: vs.reverse).findSome? _).or _
    rw [List.findSome?_cons]
    cases v.attrs.get? y <;> rfl

/-- The doc text, the code and the defaults are those of the last version. -/
theorem foldl_patch_last {vs : List FunctionState} {v : FunctionState} (hv : v ∈ vs.getLast?)
    (s : FunctionState) : (vs.foldl patch s).doc = v.doc ∧ (vs.foldl patch s).code = v.code ∧
      (vs.foldl patch s).defaults = v.defaults := by
  obtain ⟨us, rfl⟩ := List.getLast?_eq_some_iff.1 hv
  rw [List.foldl_append]
  exact ⟨rfl, rfl, rfl⟩

end FunctionState

namespace Merge

variable {limit : Nat} {u : CodeUnit} {module : ModuleRef} {m m₁ m' : Machine} {s : Summary}

/-! ## One merge -/

/-- After the merge as well, no two names lead to one function: those that the unit has made are others than
those that were there. -/
theorem Executed.separates (he : Executed limit u module m m₁) (hm : m.heap.HasModule module)
    (hc : m.heap.Closed) (h : merge limit u module m = .ok s m')
    (hh : ∀ hook old k, ¬ CallsHook limit u module m hook old k)
    (hold : m.heap.Separates (m.heap.bindings module))
    (hnew : m₁.heap.Separates (m₁.heap.scope m.heap.newScope.1)) :
    m'.heap.Separates (m'.heap.bindings module) := by
  have hlater := he.merged_persists hm h
  have hside : ∀ {x v f}, (m'.heap.bindings module).get? x = some v → m'.heap.behind? v = some f →
      ((m.heap.bindings module).get? x = some v ∧ m.heap.behind? v = some f ∧
        f.index < m.heap.functions.size) ∨
      ((m₁.heap.scope m.heap.newScope.1).get? x = some v ∧ m₁.heap.behind? v = some f ∧
        m.heap.functions.size ≤ f.index) := by
    intro x v f hx hf
    rcases he.bound_after hm h hh hx with ⟨hv, -⟩ | hv
    · have hthere := hc.bound hv
      rw [Heap.behind?_later (he.persists.trans hlater) hthere] at hf
      exact .inl ⟨hv, hf, (Heap.behind?_within (R := .whole) hc hthere hf).2⟩
    · have hmade := he.new_made hv
      rw [Heap.behind?_later hlater hmade] at hf
      exact .inr ⟨hv, hf, (Heap.behind?_within he.isolated.1.closed hmade hf).1⟩
  rw [Heap.separates_iff] at hold hnew ⊢
  intro x y v w f hx hy hf hg
  rcases hside hx hf with ⟨hv, hf, hlt⟩ | ⟨hv, hf, hle⟩
  · rcases hside hy hg with ⟨hw, hg, -⟩ | ⟨-, -, hle⟩
    · exact hold hv hw hf hg
    · omega
  · rcases hside hy hg with ⟨-, -, hlt⟩ | ⟨hw, hg, -⟩
    · omega
    · exact hnew hv hw hf hg

/-- A function that one name leads to takes over the unit's function of this name, and nothing else. -/
theorem Executed.takes_version (he : Executed limit u module m m₁) (hm : m.heap.HasModule module)
    (hc : m.heap.Closed) (h : merge limit u module m = .ok s m')
    (hh : ∀ hook old k, ¬ CallsHook limit u module m hook old k)
    (hsep : m.heap.Separates (m.heap.bindings module)) {x : Name} {f g : FunctionRef}
    (hf : (m.heap.bindings module).get? x = some (.function f))
    (hg : (m₁.heap.scope m.heap.newScope.1).get? x = some (.function g)) :
    m'.heap.function f =
      { m.heap.function f with state := (m.heap.function f).state.patch (m₁.heap.function g).state } := by
  obtain ⟨j, ht⟩ := he.taken hm hc h hh
  have hlt : f.index < m.heap.functions.size := (hc.bound hf).2
  have hsame : m₁.heap.function f = m.heap.function f := he.isolated.1.kept.functions.get f hlt
  let pairs := m₁.heap.functionPairs (m.heap.bindings module) (m₁.heap.scope m.heap.newScope.1)
  have hstate : (m'.heap.function f).state = m₁.heap.patched f (pairs (sharedNames module m m₁)) :=
    ht.functions f (Nat.lt_of_lt_of_le hlt he.persists.functions.size)
  -- the pairs of the other names are of other functions
  have hother : ∀ names : List Name, x ∉ names → ∀ p ∈ pairs names, p.1 ≠ f := by
    rintro names hx p hp rfl
    obtain ⟨y, hy, v, w, hv, -, hpair⟩ := Heap.mem_functionPairs hp
    have hbehind := (Heap.behind?_of_functionPair? hpair).1
    rw [Heap.behind?_later he.persists (hc.bound hv)] at hbehind
    exact hx (Heap.separates_iff.1 hsep hf hv rfl hbehind ▸ hy)
  obtain ⟨before, later, hnames⟩ := List.append_of_mem (he.mem_sharedNames hm hf hg)
  have hbefore := (he.mem_shared hm hnames).2
  have hnd := he.nodup_sharedNames hm
  rw [hnames] at hnd hstate
  have hlater : x ∉ later := (List.nodup_cons.1 (List.nodup_append.1 hnd).2.1).1
  have hpairs : pairs (before ++ x :: later) = pairs before ++ (f, g) :: pairs later :=
    Heap.functionPairs_split before later hf hg
  rw [hpairs, Heap.patched_once (hother before hbefore) (hother later hlater), hsame] at hstate
  exact FunctionObject.eq_of_fixed ((he.persists.trans (he.merged_persists hm h)).functions.get f hlt) hstate

/-! ## One merge after the other -/

/-- A run of merges into a module, all of which succeed: their units bind a name to a function, have no value
with a hook, and do not lead to one function under two names. The list has the function of each unit as it
was when the unit had run. -/
inductive Versions (module : ModuleRef) (x : Name) (m : Machine) : List FunctionState → Machine → Prop
  | start : Versions module x m [] m
  | next {vs : List FunctionState} {k k₁ k' : Machine} {limit : Nat} {u : CodeUnit} {s : Summary}
      {g : FunctionRef} (h : Versions module x m vs k) (hmerge : merge limit u module k = .ok s k')
      (he : Executed limit u module k k₁)
      (hg : (k₁.heap.scope k.heap.newScope.1).get? x = some (.function g))
      (hno : ∀ y w, (k₁.heap.scope k.heap.newScope.1).get? y = some w →
        k₁.heap.attr? w updateHook = none)
      (hsep : k₁.heap.Separates (k₁.heap.scope k.heap.newScope.1)) :
      Versions module x m (vs ++ [(k₁.heap.function g).state]) k'

/-- A module in which a name is bound to a function that has taken over some versions since it was `o`. -/
structure TakenVersions (module : ModuleRef) (x : Name) (f : FunctionRef) (o : FunctionObject)
    (vs : List FunctionState) (h : Heap) : Prop where
  closed : h.Closed
  hasModule : h.HasModule module
  separates : h.Separates (h.bindings module)
  bound : (h.bindings module).get? x = some (.function f)
  object : h.function f = { o with state := vs.foldl FunctionState.patch o.state }

/-- By induction on the merges: each finds the module as this says, and leaves it so with one more version. -/
theorem Versions.taken {x : Name} {f : FunctionRef} {o : FunctionObject} {vs : List FunctionState}
    (hv : Versions module x m vs m') (h : TakenVersions module x f o [] m.heap) :
    TakenVersions module x f o vs m'.heap := by
  induction hv with
  | start => exact h
  | @next vs k k₁ k' limit u s g _ hmerge he hg hno hsep ih =>
    have hm := ih.hasModule
    have hcalls := he.calls_no_hook hm ih.closed fun y w hw => Update.hook?_of_attr? (hno y w hw)
    have hpersists := he.persists.trans (he.merged_persists hm hmerge)
    have hclosed := merge_closed limit u hm ih.closed
    rw [hmerge] at hclosed
    refine ⟨hclosed, hm.later hpersists, he.separates hm ih.closed hmerge hcalls ih.separates hsep,
      he.still_bound hm hmerge hcalls ih.bound hg rfl trivial, ?_⟩
    rw [he.takes_version hm ih.closed hmerge hcalls ih.separates ih.bound hg, ih.object, List.foldl_append]
    rfl

end Merge

/-- Merges that follow one another give a function one version after the other. Its name stays bound to it,
and it keeps its name, its module and its globals. It has the doc text, the code and the defaults of the
last version; its attributes are the original ones with those of each version on top in turn, so that of
each attribute the latest version stands that has it. -/
theorem merge_versions {module : ModuleRef} {x : Name} {m m' : Machine} {f : FunctionRef}
    {vs : List FunctionState} (hc : m.heap.Closed) (hm : m.heap.HasModule module)
    (hsep : m.heap.Separates (m.heap.bindings module))
    (hf : (m.heap.bindings module).get? x = some (.function f)) (hv : Merge.Versions module x m vs m') :
    (m'.heap.bindings module).get? x = some (.function f) ∧
      (m'.heap.function f).name = (m.heap.function f).name ∧
      (m'.heap.function f).module = (m.heap.function f).module ∧
      (m'.heap.function f).globals = (m.heap.function f).globals ∧
      (∀ v ∈ vs.getLast?, (m'.heap.function f).state.doc = v.doc ∧
        (m'.heap.function f).state.code = v.code ∧ (m'.heap.function f).state.defaults = v.defaults) ∧
      (m'.heap.function f).state.attrs =
        vs.foldl (fun b v => b.override v.attrs) (m.heap.function f).state.attrs ∧
      ∀ y, (m'.heap.function f).state.attrs.get? y =
        (vs.reverse.findSome? (·.attrs.get? y)).or ((m.heap.function f).state.attrs.get? y) := by
  have ht := hv.taken ⟨hc, hm, hsep, hf, rfl⟩
  rw [ht.object]
  exact ⟨ht.bound, rfl, rfl, rfl, fun v hv => FunctionState.foldl_patch_last hv _,
    FunctionState.attrs_foldl_patch vs _, FunctionState.get?_attrs_foldl_patch vs _⟩

namespace Sample

/-- A unit with a function that has an attribute, and with another function. -/
def version (n : Int64) (y : Name) : CodeUnit := ⟨"m", [constant "f" n,
  .assign (.attr (.ident "f" .dummy) y .dummy) (.int n .dummy) .dummy, constant "g" n]⟩

def original : Machine := machine [constant "f" 1]

def second : Machine := mergedInto (version 2 "tag") original

def third : Machine := mergedInto (version 3 "mark") second

/-- The function `f` of each unit when it has run. -/
def versions : List FunctionState :=
  [((ranOn (version 2 "tag") original).heap.function ⟨1⟩).state,
    ((ranOn (version 3 "mark") second).heap.function ⟨3⟩).state]

theorem version_next {vs : List FunctionState} {m k : Machine} (h : Merge.Versions module "f" m vs k)
    (u : CodeUnit) (s : Summary) (g : FunctionRef) (hm : Run.value? (merge 10 u module k) = some s)
    (hr : Run.value? (u.run 10 k.heap.newScope.1 (k.heap.module module).name
      { k with heap := k.heap.newScope.2 }) = some ())
    (hg : ((ranOn u k).heap.scope k.heap.newScope.1).get? "f" = some (.function g))
    (hno : ∀ w ∈ ((ranOn u k).heap.scope k.heap.newScope.1).values,
      (ranOn u k).heap.attr? w updateHook = none)
    (hsep : (ranOn u k).heap.Separates ((ranOn u k).heap.scope k.heap.newScope.1)) :
    Merge.Versions module "f" m (vs ++ [((ranOn u k).heap.function g).state]) (mergedInto u k) :=
  .next h (mergedInto_ok hm) (ranOn_executed hr) hg (fun _ w hw => hno w (Bindings.mem_values_of_get? hw)) hsep

end Sample

theorem merge_versions_third :
    Merge.Versions Sample.module "f" Sample.original Sample.versions Sample.third ∧
      (Sample.third.heap.bindings Sample.module).get? "f" = some (.function ⟨0⟩) ∧
      (Sample.third.heap.function ⟨0⟩).state.attrs =
        Sample.versions.foldl (fun b v => b.override v.attrs)
          (Sample.original.heap.function ⟨0⟩).state.attrs ∧
      (Sample.third.heap.function ⟨0⟩).state.attrs.names = ["tag", "mark"] := by
  have h₁ := Sample.version_next (m := Sample.original) .start (Sample.version 2 "tag")
    ⟨["g"], [], ["f"], []⟩ ⟨1⟩
    (by decide +kernel) (by decide +kernel) (by decide +kernel) (by decide +kernel) (by decide +kernel)
  have h₂ := Sample.version_next h₁ (Sample.version 3 "mark") ⟨[], [], ["f", "g"], []⟩ ⟨3⟩
    (by decide +kernel) (by decide +kernel) (by decide +kernel) (by decide +kernel) (by decide +kernel)
  have hf : (Sample.original.heap.bindings Sample.module).get? "f" = some (.function ⟨0⟩) := by decide +kernel
  obtain ⟨hf, -, -, -, -, hattrs, -⟩ := merge_versions (Sample.machine_closed _) (Sample.machine_hasModule _)
    (by decide +kernel) hf h₂
  exact ⟨h₂, hf, hattrs, by decide +kernel⟩

end LivePatch
