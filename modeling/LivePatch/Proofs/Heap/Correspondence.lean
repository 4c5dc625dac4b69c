/-
Correspondences between heaps. Two runs that make the same number of objects of each kind give rise to a
one-to-one correspondence between what the one has made and what the other has. It matches two heaps when
corresponding objects are alike: they have the same names, texts and code, and wherever the one refers to
an object the other refers to the corresponding one.
-/
import Mathlib.Logic.Equiv.Defs
import LivePatch.Proofs.Heap.Twin
import LivePatch.Proofs.Machine.Law

namespace LivePatch

/-! ## Numbers -/

/-- The objects that were made while their number went from `m` to `n`. -/
abbrev Ref.Made (κ : ObjectKind) (m n : Nat) : Type := { r : Ref κ // m ≤ r.index ∧ r.index < n }

namespace Ref

variable {κ : ObjectKind} {m n k l : Nat}

/-- The first object made on the one side corresponds to the first on the other, and so on. -/
def Made.shift (hk : k + n = l + m) : Ref.Made κ m k ≃ Ref.Made κ n l where
  toFun := fun ⟨r, hr⟩ => ⟨⟨r.index - m + n⟩, by dsimp only; omega⟩
  invFun := fun ⟨s, hs⟩ => ⟨⟨s.index - n + m⟩, by dsimp only; omega⟩
  left_inv := fun ⟨r, hr⟩ => Subtype.ext (congrArg Ref.mk (by dsimp only; omega))
  right_inv := fun ⟨s, hs⟩ => Subtype.ext (congrArg Ref.mk (by dsimp only; omega))

theorem Made.pair (hk : k + n = l + m) (r : Ref.Made κ m k) :
    Ref.Pair m n k r.1 (Made.shift hk r).1 where
  since := r.2.1
  below := r.2.2
  number := by
    obtain ⟨r, hr⟩ := r
    show r.index + n = r.index - m + n + m
    omega

theorem Pair.eq_shift {r s : Ref κ} (hp : Ref.Pair m n k r s) (hk : k + n = l + m) :
    s = (Made.shift hk ⟨r, hp.since, hp.below⟩).1 :=
  (hp.eq_iff (Made.pair hk ⟨r, hp.since, hp.below⟩)).1 rfl

end Ref

/-! ## Bindings -/

/-- Bindings of the same names in the same order to related values. -/
structure Bindings.Related (R : Value → Value → Prop) (b c : Bindings Value) : Prop where
  names : b.names = c.names
  values : ∀ x, Option.Rel R (b.get? x) (c.get? x)

theorem Bindings.Alike.related {R S : Value → Value → Prop} {b c : Bindings Value}
    (h : Alike .empty R b c) (hRS : ∀ v w, R v w → S v w) : Related S b c where
  names := by
    rw [h.names]
    exact List.filter_eq_self.2 fun _ _ => rfl
  values x := (h.imp hRS).rel x

/-! ## Objects -/

/-- A one-to-one correspondence, kind by kind, between the objects made from the heap `pre` to the heap `h`
and those made from `pre'` to `k`. -/
structure Correspondence (pre h pre' k : Heap) where
  functions : Ref.Made .function pre.functions.size h.functions.size ≃
    Ref.Made .function pre'.functions.size k.functions.size
  methods : Ref.Made .method pre.methods.size h.methods.size ≃
    Ref.Made .method pre'.methods.size k.methods.size
  classes : Ref.Made .type pre.classes.size h.classes.size ≃
    Ref.Made .type pre'.classes.size k.classes.size
  instances : Ref.Made .object pre.instances.size h.instances.size ≃
    Ref.Made .object pre'.instances.size k.instances.size

namespace Correspondence

variable {pre h pre' k : Heap} (σ : Correspondence pre h pre' k)

/-- Corresponding values: equal scalars, or corresponding objects. -/
inductive Val : Value → Value → Prop
  | scalar {v : Value} (hv : v.IsScalar) : Val v v
  | function (f : Ref.Made .function pre.functions.size h.functions.size) :
      Val (.function f.1) (.function (σ.functions f).1)
  | method (r : Ref.Made .method pre.methods.size h.methods.size) :
      Val (.method r.1) (.method (σ.methods r).1)
  | type (c : Ref.Made .type pre.classes.size h.classes.size) : Val (.type c.1) (.type (σ.classes c).1)
  | object (o : Ref.Made .object pre.instances.size h.instances.size) :
      Val (.object o.1) (.object (σ.instances o).1)

/-- Functions of the same name, module, doc text and code that look for names in the one namespace and in
the other, with corresponding attributes and defaults. -/
structure FunctionMatch (s t : ScopeRef) (o p : FunctionObject) : Prop where
  name : o.name = p.name
  module : o.module = p.module
  globals : o.globals = s ∧ p.globals = t
  doc : o.state.doc = p.state.doc
  code : o.state.code = p.state.code
  attrs : Bindings.Related σ.Val o.state.attrs p.state.attrs
  defaults : List.Forall₂ σ.Val o.state.defaults p.state.defaults

/-- Classes of the same name with corresponding bases and attributes. -/
structure ClassMatch (o p : ClassObject) : Prop where
  name : o.name = p.name
  bases : List.Forall₂ (fun c d => σ.Val (.type c) (.type d)) o.bases p.bases
  attrs : Bindings.Related σ.Val o.attrs p.attrs

/-- The correspondence matches what was made in the namespace `s` of the one heap and in the namespace `t`
of the other. -/
structure Matches (s t : ScopeRef) : Prop where
  bindings : Bindings.Related σ.Val (h.scope s) (k.scope t)
  functions : ∀ f, σ.FunctionMatch s t (h.function f.1) (k.function (σ.functions f).1)
  receivers : ∀ r, σ.Val (h.method r.1).receiver (k.method (σ.methods r).1).receiver
  methods : ∀ r, σ.Val (.function (h.method r.1).function) (.function (k.method (σ.methods r).1).function)
  classes : ∀ c, σ.ClassMatch (h.type c.1) (k.type (σ.classes c).1)
  types : ∀ o, σ.Val (.type (h.object o.1).type) (.type (k.object (σ.instances o).1).type)
  fields : ∀ o, Bindings.Related σ.Val (h.object o.1).fields (k.object (σ.instances o).1).fields

end Correspondence

end LivePatch
