/-
Twin heaps. Two runs of one tree, each on a heap of its own, make the same objects in the same order, so
that the objects of the one run correspond to those of the other. Corresponding objects have the same
names, texts and code and hold corresponding values, and whatever running code reads of them is the same;
what was there before makes no difference.

The namespace of the one run may begin with some names more than that of the other. As long as the code
does not look such a name up, or has bound it itself, the heaps stay twins.
-/
import LivePatch.Proofs.Heap.Twin
import LivePatch.Proofs.Machine.Law

namespace LivePatch

/-! ## The names that code reads -/

mutual

/-- The names that an expression may look up. -/
def Expr.reads : Expr → List Name
  | .int .. | .str .. | .bool .. | .none _ => []
  | .ident x _ => [x]
  | .attr object _ _ => object.reads
  | .call callee args _ => callee.reads ++ Expr.readsAll args
  | .binary _ left right _ => left.reads ++ right.reads
  | .unary _ operand _ => operand.reads

def Expr.readsAll : List Expr → List Name
  | [] => []
  | e :: es => e.reads ++ Expr.readsAll es

end

/-- A name that is assigned to is not looked up. -/
def Expr.targetReads : Expr → List Name
  | .attr object _ _ => object.reads
  | _ => []

mutual

/-- The names that a statement, and the code of what it defines, may look up. -/
def Stmt.reads : Stmt → List Name
  | .bind _ value _ => value.reads
  | .assign target value _ => value.reads ++ target.targetReads
  | .function _ params body _ _ =>
    Expr.readsAll (params.filterMap (·.default)) ++ Stmt.readsAll body
  | .classDef _ bases body _ _ => Expr.readsAll bases ++ Stmt.readsAll body
  | .leave (some value) _ => value.reads
  | .leave none _ => []
  | .raise value _ => value.reads
  | .branch cond whenTrue whenFalse _ =>
    cond.reads ++ (Stmt.readsAll whenTrue ++ Stmt.readsAll whenFalse)
  | .expr value => value.reads

def Stmt.readsAll : List Stmt → List Name
  | [] => []
  | s :: ss => s.reads ++ Stmt.readsAll ss

end

def CodeUnit.reads (u : CodeUnit) : List Name := Stmt.readsAll u.body

/-! ## Corresponding objects -/

/-- What two runs of one tree start from, each on a heap and in a namespace of its own. -/
structure Twins where
  left : Heap
  right : Heap
  leftScope : ScopeRef
  rightScope : ScopeRef
  /-- What the left namespace has bound at the start, where the right one is empty. -/
  given : Bindings Value
  /-- The names that the tree may look up. -/
  reads : List Name
  notBuiltin : ∀ x ∈ given.names, Builtin.ofName? x = none

namespace Twins

variable (T : Twins)

/-- Corresponding values: equal scalars, or objects of one kind and one number. -/
inductive Val (h : Heap) : Value → Value → Prop
  | scalar {v : Value} (hv : v.IsScalar) : Val h v v
  | function {f g : FunctionRef}
      (hp : Ref.Pair T.left.functions.size T.right.functions.size h.functions.size f g) :
      Val h (.function f) (.function g)
  | method {r s : MethodRef}
      (hp : Ref.Pair T.left.methods.size T.right.methods.size h.methods.size r s) :
      Val h (.method r) (.method s)
  | type {c d : ClassRef}
      (hp : Ref.Pair T.left.classes.size T.right.classes.size h.classes.size c d) :
      Val h (.type c) (.type d)
  | object {o p : InstanceRef}
      (hp : Ref.Pair T.left.instances.size T.right.instances.size h.instances.size o p) :
      Val h (.object o) (.object p)

section

variable (V : Value → Value → Prop)

/-- Two functions of the same name, module, doc text and code, each at home in the namespace of its run. -/
structure FunctionTwin (o p : FunctionObject) : Prop where
  name : o.name = p.name
  module : o.module = p.module
  leftGlobals : o.globals = T.leftScope
  rightGlobals : p.globals = T.rightScope
  doc : o.state.doc = p.state.doc
  attrs : Bindings.Alike .empty V o.state.attrs p.state.attrs
  code : o.state.code = p.state.code
  reads : Stmt.readsAll o.state.code.body ⊆ T.reads
  defaults : List.Forall₂ V o.state.defaults p.state.defaults

structure MethodTwin (o p : MethodObject) : Prop where
  receiver : V o.receiver p.receiver
  function : V (.function o.function) (.function p.function)

/-- Two classes of the same name, the left one being `c`. Bases are older than the class, which keeps the
walk up from a class from going on for ever. -/
structure ClassTwin (c : ClassRef) (o p : ClassObject) : Prop where
  name : o.name = p.name
  bases : List.Forall₂ (fun d e => V (.type d) (.type e)) o.bases p.bases
  older : ∀ d ∈ o.bases, d.index < c.index
  attrs : Bindings.Alike .empty V o.attrs p.attrs

structure InstanceTwin (o p : InstanceObject) : Prop where
  type : V (.type o.type) (.type p.type)
  fields : Bindings.Alike .empty V o.fields p.fields

/-- On both heaps the same was made since the start, holding values related by `V`. -/
structure Alike (h k : Heap) : Prop where
  leftThere : T.leftScope.index < h.scopes.size
  rightThere : T.rightScope.index < k.scopes.size
  scope : Bindings.Alike T.given V (h.scope T.leftScope) (k.scope T.rightScope)
  functions : h.functions.Twin T.left.functions.size T.right.functions.size
    (fun _ => T.FunctionTwin V) k.functions
  methods : h.methods.Twin T.left.methods.size T.right.methods.size
    (fun _ => MethodTwin V) k.methods
  classes : h.classes.Twin T.left.classes.size T.right.classes.size (ClassTwin V) k.classes
  instances : h.instances.Twin T.left.instances.size T.right.instances.size
    (fun _ => InstanceTwin V) k.instances

end

/-- The heaps are twins: what was made on the one corresponds to what was made on the other. -/
def Heaps (h k : Heap) : Prop := T.Alike (T.Val h) h k

variable {T}

/-! ## Corresponding values -/

namespace Val

variable {h k l : Heap} {v w v' w' : Value}

theorem later (hv : T.Val h v w) (hk : h.Persists k) : T.Val k v w := by
  cases hv with
  | scalar hs => exact .scalar hs
  | function hp => exact .function (hp.later hk.functions.size)
  | method hp => exact .method (hp.later hk.methods.size)
  | type hp => exact .type (hp.later hk.classes.size)
  | object hp => exact .object (hp.later hk.instances.size)

theorem types {c d : ClassRef} (hv : T.Val h (.type c) (.type d)) :
    Ref.Pair T.left.classes.size T.right.classes.size h.classes.size c d := by
  cases hv with
  | scalar hs => exact hs.elim
  | type hp => exact hp

theorem isTruthy_eq (hv : T.Val h v w) : v.isTruthy = w.isTruthy := by
  cases hv <;> rfl

/-- Two values are the same on the left exactly when they are on the right. -/
theorem eq_iff (hv : T.Val h v w) (hv' : T.Val h v' w') : v = v' ↔ w = w' := by
  cases hv with
  | scalar hs =>
    cases hv' with
    | scalar => rfl
    | _ => constructor <;> rintro rfl <;> exact hs.elim
  | function hp =>
    cases hv' with
    | scalar hs => constructor <;> rintro rfl <;> exact hs.elim
    | function hp' => rw [Value.function.injEq, Value.function.injEq]; exact hp.eq_iff hp'
    | _ => constructor <;> nofun
  | method hp =>
    cases hv' with
    | scalar hs => constructor <;> rintro rfl <;> exact hs.elim
    | method hp' => rw [Value.method.injEq, Value.method.injEq]; exact hp.eq_iff hp'
    | _ => constructor <;> nofun
  | type hp =>
    cases hv' with
    | scalar hs => constructor <;> rintro rfl <;> exact hs.elim
    | type hp' => rw [Value.type.injEq, Value.type.injEq]; exact hp.eq_iff hp'
    | _ => constructor <;> nofun
  | object hp =>
    cases hv' with
    | scalar hs => constructor <;> rintro rfl <;> exact hs.elim
    | object hp' => rw [Value.object.injEq, Value.object.injEq]; exact hp.eq_iff hp'
    | _ => constructor <;> nofun

end Val

/-! ## What running code reads -/

/-- Corresponding attributes. -/
inductive Found (T : Twins) (h : Heap) : Attribute → Attribute → Prop
  | value {v w : Value} (hv : T.Val h v w) : Found T h (.value v) (.value w)
  | bound {v w : Value} {f g : FunctionRef} (hv : T.Val h v w) (hf : T.Val h (.function f) (.function g)) :
      Found T h (.bound v f) (.bound w g)

namespace Heaps

variable {h k : Heap} {v w : Value}

theorem function (hh : T.Heaps h k) {f g : FunctionRef} (hv : T.Val h (.function f) (.function g)) :
    T.FunctionTwin (T.Val h) (h.function f) (k.function g) := by
  cases hv with
  | scalar hs => exact hs.elim
  | function hp => exact hh.functions.get hp

theorem method (hh : T.Heaps h k) {r s : MethodRef} (hv : T.Val h (.method r) (.method s)) :
    MethodTwin (T.Val h) (h.method r) (k.method s) := by
  cases hv with
  | scalar hs => exact hs.elim
  | method hp => exact hh.methods.get hp

theorem type (hh : T.Heaps h k) {c d : ClassRef} (hv : T.Val h (.type c) (.type d)) :
    ClassTwin (T.Val h) c (h.type c) (k.type d) := by
  cases hv with
  | scalar hs => exact hs.elim
  | type hp => exact hh.classes.get hp

theorem object (hh : T.Heaps h k) {o p : InstanceRef} (hv : T.Val h (.object o) (.object p)) :
    InstanceTwin (T.Val h) (h.object o) (k.object p) := by
  cases hv with
  | scalar hs => exact hs.elim
  | object hp => exact hh.instances.get hp

theorem typeName (hh : T.Heaps h k) (hv : T.Val h v w) : h.typeName v = k.typeName w := by
  cases hv with
  | @scalar v hs => cases v <;> first | exact hs.elim | rfl
  | object hp => exact (hh.type (hh.object (.object hp)).type).name
  | _ => rfl

theorem display (hh : T.Heaps h k) (hv : T.Val h v w) : h.display v = k.display w := by
  cases hv with
  | @scalar v hs => cases v <;> first | exact hs.elim | rfl
  | function hp => rw [Heap.display, Heap.display, (hh.function (.function hp)).name]
  | method hp =>
    rw [Heap.display, Heap.display, (hh.function (hh.method (.method hp)).function).name]
  | type hp => rw [Heap.display, Heap.display, (hh.type (.type hp)).name]
  | object hp => rw [Heap.display, Heap.display, (hh.type (hh.object (.object hp)).type).name]

/-- The walks up from corresponding classes find corresponding values, if both may go on to the end. -/
theorem lookupWithin (hh : T.Heaps h k) (x : Name) : ∀ (n n' : Nat) {c d : ClassRef},
    T.Val h (.type c) (.type d) → c.index < T.left.classes.size + n →
      c.index < T.left.classes.size + n' →
        Option.Rel (T.Val h) (h.lookupWithin x n c) (k.lookupWithin x n' d)
  | 0, _, c, d, hv, hn, _ => absurd hn (Nat.not_lt.2 hv.types.since)
  | _ + 1, 0, c, d, hv, _, hn => absurd hn (Nat.not_lt.2 hv.types.since)
  | n + 1, n' + 1, c, d, hv, hn, hn' => by
    have ht := hh.type hv
    have hown := ht.attrs.rel x
    unfold Heap.lookupWithin
    cases hc : (h.type c).attrs.get? x <;> cases hd : (k.type d).attrs.get? x <;>
      rw [hc, hd] at hown
    · refine findSome?_of_forall₂ ht.bases fun e he e' hv => ?_
      have hlt := ht.older e he
      exact hh.lookupWithin x n n' hv (by omega) (by omega)
    · cases hown
    · cases hown
    · exact hown

theorem lookup (hh : T.Heaps h k) {c d : ClassRef} (hv : T.Val h (.type c) (.type d)) (x : Name) :
    Option.Rel (T.Val h) (h.lookup c x) (k.lookup d x) := by
  have hn := hv.types.number
  exact hh.lookupWithin x _ _ hv (by omega) (by omega)

theorem descendsWithin (hh : T.Heaps h k) {o p : ClassRef} (hv : T.Val h (.type o) (.type p)) :
    ∀ (n n' : Nat) {c d : ClassRef}, T.Val h (.type c) (.type d) → c.index < T.left.classes.size + n →
      c.index < T.left.classes.size + n' → h.descendsWithin o n c = k.descendsWithin p n' d
  | 0, _, c, d, hc, hn, _ => absurd hn (Nat.not_lt.2 hc.types.since)
  | _ + 1, 0, c, d, hc, _, hn => absurd hn (Nat.not_lt.2 hc.types.since)
  | n + 1, n' + 1, c, d, hc, hn, hn' => by
    have ht := hh.type hc
    unfold Heap.descendsWithin
    have hself : decide (c = o) = decide (d = p) := decide_eq_decide.2 (hc.types.eq_iff hv.types)
    rw [hself, any_of_forall₂ ht.bases fun e he e' hv' => ?_]
    have hlt := ht.older e he
    exact hh.descendsWithin hv n n' hv' (by omega) (by omega)

theorem isSubclass (hh : T.Heaps h k) {c d o p : ClassRef} (hc : T.Val h (.type c) (.type d))
    (ho : T.Val h (.type o) (.type p)) : h.isSubclass c o = k.isSubclass d p := by
  have hn := hc.types.number
  exact hh.descendsWithin ho _ _ hc (by omega) (by omega)

theorem functionAttr? (hh : T.Heaps h k) {f g : FunctionRef}
    (hv : T.Val h (.function f) (.function g)) (x : Name) :
    Option.Rel (T.Val h) (h.functionAttr? f x) (k.functionAttr? g x) := by
  have hf := hh.function hv
  unfold Heap.functionAttr?
  simp only
  split
  · rw [hf.name]; exact .some (.scalar trivial)
  · split
    · rw [hf.module]; exact .some (.scalar trivial)
    · split
      · rw [hf.doc]
        cases (k.function g).state.doc <;> exact .some (.scalar trivial)
      · exact hf.attrs.rel x

theorem attr? (hh : T.Heaps h k) (hv : T.Val h v w) (x : Name) :
    Option.Rel (Found T h) (h.attr? v x) (k.attr? w x) := by
  cases hv with
  | @scalar v hs => cases v <;> first | exact hs.elim | exact .none
  | function hp => exact map_of_rel (hh.functionAttr? (.function hp) x) fun _ _ => .value
  | method hp =>
    have hm := hh.method (.method hp)
    unfold Heap.attr?
    simp only
    split
    · exact .some (.value hm.function)
    · split
      · exact .some (.value hm.receiver)
      · exact map_of_rel (hh.functionAttr? hm.function x) fun _ _ => .value
  | type hp =>
    unfold Heap.attr?
    simp only
    split
    · rw [(hh.type (.type hp)).name]
      exact .some (.value (.scalar trivial))
    · exact map_of_rel (hh.lookup (.type hp) x) fun _ _ => .value
  | @object o p hp =>
    have ho := hh.object (.object hp)
    have hfield := ho.fields.rel x
    unfold Heap.attr?
    simp only
    cases hl : (h.object o).fields.get? x <;> cases hr : (k.object p).fields.get? x <;>
      rw [hl, hr] at hfield
    · -- a function of the class comes back bound to the instance
      refine map_of_rel (hh.lookup ho.type x) fun a b hab => ?_
      cases hab with
      | scalar hs => cases a <;> first | exact hs.elim | exact .value (.scalar trivial)
      | function hf => exact .bound (.object hp) (.function hf)
      | method hm => exact .value (.method hm)
      | type hc => exact .value (.type hc)
      | object ho => exact .value (.object ho)
    · cases hfield
    · cases hfield
    · cases hfield with
      | some hv => exact .some (.value hv)

theorem attr?_eq_none (hh : T.Heaps h k) (hv : T.Val h v w) {x : Name} (hx : h.attr? v x = none) :
    k.attr? w x = none := by
  have hsome := isSome_of_rel (hh.attr? hv x)
  rw [hx] at hsome
  exact Option.not_isSome_iff_eq_none.1 (by rw [← hsome]; exact Bool.false_ne_true)

end Heaps

/-! ## Making and changing objects -/

namespace FunctionTwin

variable {V W : Value → Value → Prop} {o p : FunctionObject}

theorem imp (h : T.FunctionTwin V o p) (hVW : ∀ v w, V v w → W v w) : T.FunctionTwin W o p :=
  { h with attrs := h.attrs.imp hVW, defaults := h.defaults.imp hVW }

end FunctionTwin

namespace Alike

variable {V W : Value → Value → Prop} {h k : Heap}

theorem imp (hh : T.Alike V h k) (hVW : ∀ v w, V v w → W v w) : T.Alike W h k :=
  { hh with
    scope := hh.scope.imp hVW
    functions := hh.functions.imp fun _ _ _ ho => ho.imp hVW
    methods := hh.methods.imp fun _ _ _ ho => ⟨hVW _ _ ho.receiver, hVW _ _ ho.function⟩
    classes := hh.classes.imp fun _ _ _ ho =>
      { ho with bases := ho.bases.imp fun _ _ => hVW _ _, attrs := ho.attrs.imp hVW }
    instances := hh.instances.imp fun _ _ _ ho => ⟨hVW _ _ ho.type, ho.fields.imp hVW⟩ }

theorem heaps {l : Heap} (hh : T.Alike (T.Val l) h k) (hl : l.Persists h) : T.Heaps h k :=
  hh.imp fun _ _ hv => hv.later hl

end Alike

namespace Heaps

variable {h k : Heap}

/-- The heaps that the runs start from are twins. -/
theorem start (hl : T.leftScope.index < T.left.scopes.size)
    (hr : T.rightScope.index < T.right.scopes.size) (hgiven : T.left.scope T.leftScope = T.given)
    (hempty : T.right.scope T.rightScope = .empty) : T.Heaps T.left T.right where
  leftThere := hl
  rightThere := hr
  scope := by
    rw [hgiven, hempty]
    exact .start _
  functions := .start _ _
  methods := .start _ _
  classes := .start _ _
  instances := .start _ _

theorem newFunction (hh : T.Heaps h k) {o p : FunctionObject} (ho : T.FunctionTwin (T.Val h) o p) :
    T.Heaps (h.newFunction o).2 (k.newFunction p).2 ∧
      T.Val (h.newFunction o).2 (.function (h.newFunction o).1) (.function (k.newFunction p).1) := by
  have hk := (h.extends_newFunction o).footprint.persists
  exact ⟨Alike.heaps { hh with functions := hh.functions.push ho } hk, .function (hh.functions.next o)⟩

theorem newMethod (hh : T.Heaps h k) {o p : MethodObject} (ho : MethodTwin (T.Val h) o p) :
    T.Heaps (h.newMethod o).2 (k.newMethod p).2 ∧
      T.Val (h.newMethod o).2 (.method (h.newMethod o).1) (.method (k.newMethod p).1) := by
  have hk := (h.extends_newMethod o).footprint.persists
  exact ⟨Alike.heaps { hh with methods := hh.methods.push ho } hk, .method (hh.methods.next o)⟩

/-- The bases of a new class are there, so they are older. -/
theorem newClass (hh : T.Heaps h k) {x : Name} {cs ds : List ClassRef} {b c : Bindings Value}
    (hbases : List.Forall₂ (fun d e => T.Val h (.type d) (.type e)) cs ds)
    (hattrs : Bindings.Alike .empty (T.Val h) b c) :
    T.Heaps (h.newClass ⟨x, cs, b⟩).2 (k.newClass ⟨x, ds, c⟩).2 ∧
      T.Val (h.newClass ⟨x, cs, b⟩).2 (.type (h.newClass ⟨x, cs, b⟩).1)
        (.type (k.newClass ⟨x, ds, c⟩).1) := by
  have hk := (h.extends_newClass ⟨x, cs, b⟩).footprint.persists
  have hold : ∀ d ∈ cs, d.index < h.classes.next.index := by
    intro d hd
    obtain ⟨i, hi, rfl⟩ := List.getElem_of_mem hd
    exact ((List.forall₂_iff_get.1 hbases).2 i hi (hbases.length_eq ▸ hi)).types.below
  exact ⟨Alike.heaps { hh with classes := hh.classes.push ⟨rfl, hbases, hold, hattrs⟩ } hk,
    .type (hh.classes.next _)⟩

theorem newInstance (hh : T.Heaps h k) {c d : ClassRef} (hc : T.Val h (.type c) (.type d)) :
    T.Heaps (h.newInstance c).2 (k.newInstance d).2 ∧
      T.Val (h.newInstance c).2 (.object (h.newInstance c).1) (.object (k.newInstance d).1) := by
  have hk := (h.extends_newInstance c).footprint.persists
  exact ⟨Alike.heaps { hh with instances := hh.instances.push ⟨hc, .start _⟩ } hk,
    .object (hh.instances.next _)⟩

theorem obtain (hh : T.Heaps h k) {a b : Attribute} (ha : Found T h a b) :
    T.Heaps (h.obtain a).2 (k.obtain b).2 ∧
      T.Val (h.obtain a).2 (h.obtain a).1 (k.obtain b).1 := by
  cases ha with
  | value hv => exact ⟨hh, hv⟩
  | bound hv hf => exact hh.newMethod ⟨hv, hf⟩

theorem bindName (hh : T.Heaps h k) (x : Name) {v w : Value} (hv : T.Val h v w) :
    T.Heaps (h.modifyScope T.leftScope (·.insert x v)) (k.modifyScope T.rightScope (·.insert x w)) := by
  refine Alike.heaps ?_ (h.persists_modifyScope T.leftScope (·.insert x v))
  refine { hh with leftThere := ?_, rightThere := ?_, scope := ?_ }
  · exact (Arena.size_modify ..).symm ▸ hh.leftThere
  · exact (Arena.size_modify ..).symm ▸ hh.rightThere
  · rw [show (h.modifyScope T.leftScope (·.insert x v)).scope T.leftScope = _ from
      Arena.get_modify_self h.scopes _ hh.leftThere, show (k.modifyScope T.rightScope
      (·.insert x w)).scope T.rightScope = _ from Arena.get_modify_self k.scopes _ hh.rightThere]
    exact hh.scope.insert x hv

theorem setOrigin (hh : T.Heaps h k) (r : ModuleRef) (origin : Path) : T.Heaps (h.setOrigin r origin) k :=
  Alike.heaps { hh with } (h.persists_setOrigin r origin)

theorem docOf_eq {v w : Value} (hv : T.Val h v w) : Heap.docOf v = Heap.docOf w := by
  cases hv <;> rfl

/-- Corresponding values take the same attributes. -/
theorem setAttr (hh : T.Heaps h k) {v w target target' : Value} (ht : T.Val h target target')
    (hv : T.Val h v w) (x : Name) :
    Option.Rel T.Heaps (h.setAttr? target x v) (k.setAttr? target' x w) := by
  cases ht with
  | @scalar target hs => cases target <;> first | exact hs.elim | exact .none
  | method hp => exact .none
  | object hp =>
    refine .some (Alike.heaps { hh with instances := ?_ } (h.footprint_modifyFields _ _).persists)
    exact hh.instances.modify hp fun ho => { ho with fields := ho.fields.insert x hv }
  | type hp =>
    refine .some (Alike.heaps { hh with classes := ?_ } (h.footprint_modifyAttrs _ _).persists)
    exact hh.classes.modify hp fun ho => { ho with attrs := ho.attrs.insert x hv }
  | function hp =>
    unfold Heap.setAttr?
    simp only
    split
    · refine .some (Alike.heaps { hh with functions := ?_ } (h.persists_modifyFunction _ _))
      exact hh.functions.modify hp fun ho => { ho with doc := docOf_eq hv }
    · refine .some (Alike.heaps { hh with functions := ?_ } (h.persists_modifyFunction _ _))
      exact hh.functions.modify hp fun ho => { ho with attrs := ho.attrs.insert x hv }

end Heaps

end Twins

end LivePatch
