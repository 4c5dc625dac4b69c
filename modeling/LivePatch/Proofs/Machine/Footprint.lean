/-
The footprint of a call. Whatever a call runs, it binds names only in frames of its own, so that every
namespace stays as it was; and of an object that was there it can change only what an assignment to an
attribute changes.
-/
import LivePatch.Proofs.Machine.Keep

namespace LivePatch

theorem Heap.footprint_setAttr {h k : Heap} {target v : Value} {x : Name}
    (hk : h.setAttr? target x v = some k) : h.Footprint k := by
  unfold Heap.setAttr? at hk
  cases target with
  | object o => cases hk; exact h.footprint_modifyFields o _
  | type c => cases hk; exact h.footprint_modifyAttrs c _
  | function f =>
    simp only at hk
    split at hk
    · cases hk; exact h.footprint_setDoc f _
    · cases hk; exact h.footprint_setFunctionAttrs f _
  | _ => cases hk

/-- The law of code that binds no name in a namespace: all values are allowed. -/
def Law.footprint : Law where
  inv _ := True
  step h k := h.Footprint k
  holds _ _ := True
  binds _ := False
  refl := .refl
  trans a b := a.trans b
  later _ _ := trivial
  scalar _ _ _ := trivial
  refs _ _ _ _ := trivial
  newFunction {h o} _ _ := ⟨trivial, (h.extends_newFunction o).footprint, trivial⟩
  newMethod {h o} _ _ := ⟨trivial, (h.extends_newMethod o).footprint, trivial⟩
  newClass {h o} _ _ := ⟨trivial, (h.extends_newClass o).footprint, trivial⟩
  newInstance {h c} _ _ := ⟨trivial, (h.extends_newInstance c).footprint, trivial⟩
  bindName _ _ hb _ := hb.elim
  setAttr _ _ _ _ hk := ⟨trivial, Heap.footprint_setAttr hk⟩

/-- A call, however it ends, stays within its footprint. -/
theorem Run.call_footprint (limit : Nat) (f : Value) (args : List Value) (m : Machine) :
    m.heap.Footprint (final (call limit f args m)).heap :=
  (call_keeps (L := Law.footprint) limit m f args trivial trivial fun _ _ => trivial).final.2

theorem Run.getAttr_footprint (v : Value) (x : Name) (m : Machine) :
    m.heap.Footprint (final (getAttr v x m)).heap :=
  (getAttr_keeps (L := Law.footprint) (m := m) trivial (show Law.footprint.val m.heap v from trivial) x).final.2

theorem Run.setAttr_footprint (target v : Value) (x : Name) (m : Machine) :
    m.heap.Footprint (final (setAttr target x v m)).heap :=
  (setAttr_keeps (L := Law.footprint) (m := m) trivial (show Law.footprint.val m.heap target from trivial)
    (show Law.footprint.val m.heap v from trivial) x).final.2

/-! ## Object by object -/

namespace Heap.Footprint

variable {h k : Heap}

/-- Of a function only the doc text and the attributes may be others. -/
theorem function_eq (hf : h.Footprint k) {f : FunctionRef} (hlt : f.index < h.functions.size) :
    k.function f = { h.function f with
      state := { (h.function f).state with
        doc := (k.function f).state.doc
        attrs := (k.function f).state.attrs } } := by
  have hprogram : (k.function f).program = (h.function f).program := hf.functions.get f hlt
  unfold FunctionObject.program at hprogram
  obtain ⟨hfixed, hprogram⟩ := Prod.mk.inj hprogram
  obtain ⟨hcode, hdefaults⟩ := Prod.mk.inj hprogram
  refine FunctionObject.eq_of_fixed hfixed ?_
  show (k.function f).state = ⟨_, _, (h.function f).state.code, (h.function f).state.defaults⟩
  rw [← hcode, ← hdefaults]

/-- Of a class only the attributes may be others. -/
theorem type_eq (hf : h.Footprint k) {c : ClassRef} (hlt : c.index < h.classes.size) :
    k.type c = { h.type c with attrs := (k.type c).attrs } :=
  ClassObject.eq_of_fixed (hf.classes.get c hlt) rfl

/-- Of an instance only the fields may be others. -/
theorem object_eq (hf : h.Footprint k) {o : InstanceRef} (hlt : o.index < h.instances.size) :
    k.object o = { h.object o with fields := (k.object o).fields } := by
  have htype : (k.object o).type = (h.object o).type := hf.instances.get o hlt
  show k.object o = ⟨(h.object o).type, (k.object o).fields⟩
  rw [← htype]

end Heap.Footprint

/-- A call, however it ends, leaves every namespace as it was. A function keeps its name, module,
globals, code and defaults, a class its name and bases, and an instance its class; a method is as it
was. -/
theorem Run.call_changes_attributes (limit : Nat) (f : Value) (args : List Value) (m : Machine) :
    let after := (final (call limit f args m)).heap
    m.heap.Persists after ∧
      (∀ s : ScopeRef, s.index < m.heap.scopes.size → after.scope s = m.heap.scope s) ∧
      (∀ g : FunctionRef, g.index < m.heap.functions.size → ∃ doc attrs,
        after.function g =
          { m.heap.function g with state := { (m.heap.function g).state with doc, attrs } }) ∧
      (∀ c : ClassRef, c.index < m.heap.classes.size → ∃ attrs,
        after.type c = { m.heap.type c with attrs }) ∧
      (∀ o : InstanceRef, o.index < m.heap.instances.size → ∃ fields,
        after.object o = { m.heap.object o with fields }) ∧
      ∀ r : MethodRef, r.index < m.heap.methods.size → after.method r = m.heap.method r := by
  intro after
  have hf : m.heap.Footprint after := call_footprint limit f args m
  exact ⟨hf.persists, fun s hs => hf.scope_eq hs, fun g hg => ⟨_, _, hf.function_eq hg⟩,
    fun c hc => ⟨_, hf.type_eq hc⟩, fun o ho => ⟨_, hf.object_eq ho⟩, fun r hr => hf.methods.get r hr⟩

end LivePatch
