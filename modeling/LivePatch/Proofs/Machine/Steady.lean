/-
What no plain part of a run does. Of all that code does to the heap only the definition of a function brings
code to it. Whatever else is done, by a builtin function, by an operator or by an assignment, makes no
function, and leaves to every function the code and the defaults that it has.
-/
import LivePatch.Proofs.Machine.Congruence
import LivePatch.Proofs.Machine.Footprint

namespace LivePatch

/-! ## Heaps -/

/-- No function has been made, and every function runs what it ran. -/
structure Heap.SamePrograms (h k : Heap) : Prop where
  size : k.functions.size = h.functions.size
  get : ∀ f : FunctionRef, (k.function f).program = (h.function f).program

namespace Heap.SamePrograms

variable {h k l : Heap}

theorem refl (h : Heap) : h.SamePrograms h := ⟨rfl, fun _ => rfl⟩

theorem trans (a : h.SamePrograms k) (b : k.SamePrograms l) : h.SamePrograms l :=
  ⟨b.size.trans a.size, fun f => (b.get f).trans (a.get f)⟩

theorem of_functions (he : k.functions = h.functions) : h.SamePrograms k :=
  ⟨congrArg Arena.size he, fun f => congrArg (fun a => (a.get f).program) he⟩

/-- Where there is no function, there is none afterwards. -/
theorem of_footprint (hf : h.Footprint k) (hs : k.functions.size = h.functions.size) : h.SamePrograms k := by
  refine ⟨hs, fun f => ?_⟩
  by_cases hlt : f.index < h.functions.size
  · exact hf.functions.get f hlt
  · have hle : h.functions.size ≤ f.index := Nat.not_lt.1 hlt
    rw [show h.function f = default from h.functions.get_of_size_le hle,
      show k.function f = default from k.functions.get_of_size_le (hs ▸ hle)]

theorem setAttr {target v : Value} {x : Name} (hk : h.setAttr? target x v = some k) : h.SamePrograms k := by
  refine of_footprint (footprint_setAttr hk) ?_
  unfold setAttr? at hk
  cases target with
  | object o => cases hk; rfl
  | type c => cases hk; rfl
  | function f =>
    dsimp only at hk
    split at hk <;> cases hk <;> exact Arena.size_modify ..
  | _ => cases hk

theorem obtain (h : Heap) (a : Attribute) : h.SamePrograms (h.obtain a).2 := by
  cases a <;> exact of_functions rfl

end Heap.SamePrograms

/-! ## Runs -/

namespace Run

variable {α β : Type}

/-- The run is plain, and however it ends, it has brought no code to the heap. -/
structure Steady (x : Run α) : Prop where
  plain : Plain x
  programs : ∀ m : Machine, m.heap.SamePrograms (final (x m)).heap

theorem steady_pure (a : α) : Steady (pure a : Run α) := ⟨plain_pure a, fun _ => .refl _⟩

theorem steady_fail (e : RunError) : Steady (fail e : Run α) := ⟨plain_fail e, fun _ => .refl _⟩

theorem steady_read (f : Heap → α) : Steady (read f) := ⟨plain_read f, fun _ => .refl _⟩

theorem steady_make {f : Heap → α × Heap} (hf : ∀ h : Heap, h.SamePrograms (f h).2) : Steady (make f) :=
  ⟨plain_make f, fun m => hf m.heap⟩

theorem steady_modifyHeap {f : Heap → Heap} (hf : ∀ h : Heap, h.SamePrograms (f h)) : Steady (modifyHeap f) :=
  ⟨plain_modifyHeap f, fun m => hf m.heap⟩

theorem Steady.bind {x : Run α} {f : α → Run β} (hx : Steady x) (hf : ∀ a, Steady (f a)) : Steady (x >>= f) := by
  refine ⟨hx.plain.bind fun a => (hf a).plain, fun m => ?_⟩
  have h := hx.programs m
  cases hr : x m with
  | ok a m' =>
    rw [hr] at h
    rw [bind_of_ok hr]
    exact h.trans ((hf a).programs m')
  | error e m' =>
    rw [hr] at h
    rw [bind_of_error hr]
    exact h

theorem steady_getAttr (v : Value) (x : Name) : Steady (getAttr v x) := by
  refine (steady_read _).bind fun a => ?_
  cases a with
  | some found => exact steady_make fun h => .obtain h found
  | none => exact (steady_read _).bind fun _ => steady_fail _

theorem steady_setAttr (target : Value) (x : Name) (v : Value) : Steady (setAttr target x v) := by
  refine ⟨plain_setAttr target x v, fun m => ?_⟩
  unfold setAttr
  cases hk : m.heap.setAttr? target x v with
  | some k => exact .setAttr hk
  | none => exact .refl _

theorem steady_operate (f : Heap → Except RunError Value) : Steady (operate f) := by
  refine (steady_read f).bind fun r => ?_
  cases r with
  | ok v => exact steady_pure v
  | error e => exact steady_fail e

theorem steady_valueOfName (frame : Frame) (x : Name) : Steady (valueOfName frame x) := by
  refine (steady_read _).bind fun r => ?_
  cases r with
  | some v => exact steady_pure v
  | none => exact steady_fail _

theorem steady_bind (frame : Frame) (x : Name) (v : Value) : Steady (frame.bind x v) := by
  unfold Frame.bind
  split
  · exact Steady.bind (steady_modifyHeap fun _ => .of_functions rfl) fun _ => steady_pure _
  · exact steady_pure _
  · exact steady_pure _

theorem steady_attrOr (v : Value) (x : Name) (default : Option Value) :
    Steady (Builtin.attrOr v x default) := by
  refine (steady_read _).bind fun a => ?_
  cases a with
  | some found => exact steady_make fun h => .obtain h found
  | none =>
    cases default with
    | some w => exact steady_pure w
    | none => exact (steady_read _).bind fun _ => steady_fail _

theorem steady_lengthOf (v : Value) : Steady (Builtin.lengthOf v) := by
  unfold Builtin.lengthOf
  split
  · exact steady_pure _
  · exact (steady_read _).bind fun _ => steady_fail _

theorem steady_apply (b : Builtin) (args : List Value) : Steady (b.apply args) := by
  unfold Builtin.apply
  split
  · exact steady_fail _
  · split
    · exact (steady_read _).bind fun _ => steady_pure _
    · exact steady_lengthOf _
    · exact (steady_read _).bind fun _ => steady_pure _
    · exact steady_attrOr _ _ _
    · exact steady_attrOr _ _ _
    · exact (steady_read _).bind fun _ => steady_pure _
    · exact steady_fail _
    · exact (steady_read _).bind fun _ => steady_pure _
    · exact steady_fail _

end Run

end LivePatch
