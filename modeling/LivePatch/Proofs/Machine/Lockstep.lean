/-
Lockstep. Running one tree from twin heaps gives the same twice: corresponding values on twin heaps, or the
same failure, or no end in both runs, for which they come to call corresponding values from twin heaps. The one
exception is a name that only the left namespace has to begin with: the run on the right may then fail because it
lacks the name.

The rules for composing two runs come first. That expressions and statements run in lockstep is proved along
the syntax tree for calls that do, and then for calls by the bound on their nesting.
-/
import LivePatch.Proofs.Machine.Ending
import LivePatch.Proofs.Machine.Footprint
import LivePatch.Proofs.Machine.Twins

namespace LivePatch

namespace Twins

/-! ## Two chains of classes -/

namespace Heaps

variable {T : Twins} {h k : Heap} {v w : Value}

theorem initOf? (hh : T.Heaps h k) (hv : T.Val h v w) : Option.Rel (T.Val h) (h.initOf? v) (k.initOf? w) := by
  cases hv with
  | type hp =>
    have hinit := hh.lookup (.type hp) "init"
    unfold Heap.initOf?
    dsimp only
    generalize h.lookup _ "init" = a at hinit ⊢
    generalize k.lookup _ "init" = b at hinit ⊢
    cases hinit with
    | none => exact .none
    | @some u u' hu =>
      cases hu with
      | function => exact .none
      | scalar hs => cases u <;> first | exact hs.elim | exact .some (.scalar hs)
      | method hp => exact .some (.method hp)
      | type hp => exact .some (.type hp)
      | object hp => exact .some (.object hp)
  | @scalar v hs => cases v <;> first | exact hs.elim | exact .none
  | _ => exact .none

theorem initAfter? (hh : T.Heaps h k) : ∀ (n : Nat) {v w : Value}, T.Val h v w →
    Option.Rel (T.Val h) (h.initAfter? n v) (k.initAfter? n w)
  | 0, _, _, hv => .some hv
  | n + 1, v, w, hv => by
    have hinit := hh.initOf? hv
    unfold Heap.initAfter?
    generalize h.initOf? v = a at hinit ⊢
    generalize k.initOf? w = b at hinit ⊢
    cases hinit with
    | none => exact .none
    | some hu => exact hh.initAfter? n hu

/-- Of two corresponding values both are called without end, or neither is. -/
theorem endless_iff (hh : T.Heaps h k) (hv : T.Val h v w) : h.Endless v ↔ k.Endless w :=
  forall_congr' fun n => by rw [isSome_of_rel (hh.initAfter? n hv)]

end Heaps

/-! ## Two runs -/

/-- Two machines at the depth `d` with twin heaps. -/
structure Machines (T : Twins) (d : Nat) (m n : Machine) : Prop where
  heaps : T.Heaps m.heap n.heap
  left : m.depth = d
  right : n.depth = d

/-- The failure to find a name that the code may look up and that only the left namespace has to begin
with. -/
def Lacks (T : Twins) (e : Halt RunError) : Prop :=
  ∃ x ∈ T.given.names, x ∈ T.reads ∧ e = .failure (.undefinedVariable x)

/-- Two machines on which runs that have no end are left. Both have come to call a value, the values correspond
on twin heaps, and calling them goes on from one `init` to the next for ever, which makes nothing but instances. -/
inductive BothEndless (T : Twins) (m n : Machine) : Prop
  | called {h k : Heap} {v w : Value} (hh : T.Heaps h k) (hv : T.Val h v w) (hl : h.Endless v) (hr : k.Endless w)
      (hm : h.OnlyInstances m.heap) (hn : k.OnlyInstances n.heap) : BothEndless T m n

/-- How two runs end at the depth `d`, the left one of which has started from the heap `h`. -/
inductive Ends {α : Type} (T : Twins) (d : Nat) (h : Heap) (Q : α → α → Heap → Prop) :
    EStateM.Result (Halt RunError) Machine α → EStateM.Result (Halt RunError) Machine α → Prop
  | value {a b : α} {m n : Machine} (ht : T.Machines d m n) (hl : h.Persists m.heap) (hq : Q a b m.heap) :
      Ends T d h Q (.ok a m) (.ok b n)
  | failure {e : RunError} {m n : Machine} : Ends T d h Q (.error (.failure e) m) (.error (.failure e) n)
  | endless {m n : Machine} (he : T.BothEndless m n) : Ends T d h Q (.error .divergence m) (.error .divergence n)
  | lacks {r : EStateM.Result (Halt RunError) Machine α} {e : Halt RunError} {n : Machine}
      (he : T.Lacks e) : Ends T d h Q r (.error e n)

namespace Ends

variable {α β : Type} {T : Twins} {d : Nat} {h k : Heap} {Q : α → α → Heap → Prop}

theorem earlier {r s : EStateM.Result (Halt RunError) Machine α} (he : T.Ends d k Q r s)
    (hk : h.Persists k) : T.Ends d h Q r s := by
  cases he with
  | value ht hl hq => exact .value ht (hk.trans hl) hq
  | failure => exact .failure
  | endless he => exact .endless he
  | lacks he => exact .lacks he

/-- Where the two runs have stopped, they stop whatever would follow, and at whatever depth. -/
theorem stopped {e f : Halt RunError} {m n : Machine} (he : T.Ends d h Q (.error e m) (.error f n)) {d' : Nat}
    {R : β → β → Heap → Prop} {m' n' : Machine} (hm : m'.heap = m.heap) (hn : n'.heap = n.heap) :
    T.Ends d' k R (.error e m') (.error f n') := by
  cases he with
  | failure => exact .failure
  | endless he =>
    cases he with
    | called hh hv hl hr hleft hright => exact .endless (.called hh hv hl hr (hm ▸ hleft) (hn ▸ hright))
  | lacks he => exact .lacks he

end Ends

end Twins

namespace Run

variable {T : Twins} {α β : Type} {d : Nat} {m n : Machine}

/-- Two runs from two machines end alike, at the depth `d`. -/
def Lockstep (T : Twins) (d : Nat) (m n : Machine) (x y : Run α) (Q : α → α → Heap → Prop) : Prop :=
  T.Ends d m.heap Q (x m) (y n)

theorem lockstep_pure {Q : α → α → Heap → Prop} (ht : T.Machines d m n) {a b : α} (hq : Q a b m.heap) :
    Lockstep T d m n (pure a) (pure b) Q := .value ht (.refl _) hq

theorem lockstep_fail {Q : α → α → Heap → Prop} {e f : RunError} (he : e = f) :
    Lockstep T d m n (fail e) (fail f) Q := by
  subst he
  exact .failure

theorem lockstep_bind {x y : Run α} {f g : α → Run β} {Q : α → α → Heap → Prop} {R : β → β → Heap → Prop}
    (hx : Lockstep T d m n x y Q)
    (hf : ∀ a b k l, T.Machines d k l → m.heap.Persists k.heap → Q a b k.heap →
      Lockstep T d k l (f a) (g b) R) : Lockstep T d m n (x >>= f) (y >>= g) R := by
  unfold Lockstep at hx ⊢
  cases hr : x m <;> cases hs : y n <;> rw [hr, hs] at hx
  · cases hx with
    | value ht hl hq =>
      rw [bind_of_ok hr, bind_of_ok hs]
      exact (hf _ _ _ _ ht hl hq).earlier hl
  · rw [bind_of_error hs]
    cases hx with
    | lacks he => exact .lacks he
  · cases hx
  · rw [bind_of_error hr, bind_of_error hs]
    exact hx.stopped rfl rfl

theorem lockstep_read_bind {f g : Heap → α} {x y : α → Run β} {R : β → β → Heap → Prop}
    (h : Lockstep T d m n (x (f m.heap)) (y (g n.heap)) R) :
    Lockstep T d m n (read f >>= x) (read g >>= y) R := h

theorem lockstep_make {f g : Heap → α × Heap} {Q : α → α → Heap → Prop} (ht : T.Machines d m n)
    (hh : T.Heaps (f m.heap).2 (g n.heap).2) (hl : m.heap.Persists (f m.heap).2)
    (hq : Q (f m.heap).1 (g n.heap).1 (f m.heap).2) : Lockstep T d m n (make f) (make g) Q :=
  .value { ht with heaps := hh } hl hq

theorem lockstep_deeper {x y : Run α} {Q : α → α → Heap → Prop}
    (h : Lockstep T (d + 1) { m with depth := m.depth + 1 } { n with depth := n.depth + 1 } x y Q) :
    Lockstep T d m n (deeper x) (deeper y) Q := by
  unfold Lockstep at h ⊢
  unfold deeper
  cases hr : x { m with depth := m.depth + 1 } <;> cases hs : y { n with depth := n.depth + 1 } <;>
    rw [hr, hs] at h
  · cases h with
    | value ht hl hq => exact .value ⟨ht.heaps, congrArg (· - 1) ht.left, congrArg (· - 1) ht.right⟩ hl hq
  · cases h with
    | lacks he => exact .lacks he
  · cases h
  · exact h.stopped rfl rfl

abbrev Twin (T : Twins) : Value → Value → Heap → Prop := fun v w h => T.Val h v w

theorem lockstep_obtain (ht : T.Machines d m n) {a b : Attribute} (ha : T.Found m.heap a b) :
    Lockstep T d m n (make (·.obtain a)) (make (·.obtain b)) (Twin T) :=
  have h := ht.heaps.obtain ha
  lockstep_make ht h.1 (m.heap.extends_obtain a).footprint.persists h.2

theorem lockstep_getAttr (ht : T.Machines d m n) {v w : Value} (hv : T.Val m.heap v w) (x : Name) :
    Lockstep T d m n (getAttr v x) (getAttr w x) (Twin T) := by
  have h := ht.heaps.attr? hv x
  refine lockstep_read_bind ?_
  generalize m.heap.attr? v x = a at h ⊢
  generalize n.heap.attr? w x = b at h ⊢
  cases h with
  | none => exact lockstep_read_bind (lockstep_fail (by rw [ht.heaps.typeName hv]))
  | some h => exact lockstep_obtain ht h

theorem lockstep_setAttr (ht : T.Machines d m n) {v w target target' : Value}
    (htarget : T.Val m.heap target target') (hv : T.Val m.heap v w) (x : Name) :
    Lockstep T d m n (setAttr target x v) (setAttr target' x w) (fun _ _ _ => True) := by
  have h := ht.heaps.setAttr htarget hv x
  unfold Lockstep setAttr
  cases hl : m.heap.setAttr? target x v <;> cases hr : n.heap.setAttr? target' x w <;> rw [hl, hr] at h
  · simp only
    rw [ht.heaps.typeName htarget]
    exact .failure
  · cases h
  · cases h
  · cases h with
    | some h => exact .value { ht with heaps := h } (Heap.footprint_setAttr hl).persists trivial

end Run

/-! ## Builtin functions -/

namespace Builtin

open Run

variable {T : Twins} {d : Nat} {m n : Machine}

theorem lockstep_attrOr (ht : T.Machines d m n) {v w : Value} (hv : T.Val m.heap v w) (x : Name)
    {u u' : Option Value} (hu : Option.Rel (T.Val m.heap) u u') :
    Lockstep T d m n (attrOr v x u) (attrOr w x u') (Twin T) := by
  have h := ht.heaps.attr? hv x
  refine lockstep_read_bind ?_
  generalize m.heap.attr? v x = a at h ⊢
  generalize n.heap.attr? w x = b at h ⊢
  cases h with
  | some h => exact lockstep_obtain ht h
  | none =>
    cases hu with
    | none => exact lockstep_read_bind (lockstep_fail (by rw [ht.heaps.typeName hv]))
    | some hu => exact lockstep_pure ht hu

theorem lockstep_lengthOf (ht : T.Machines d m n) {v w : Value} (hv : T.Val m.heap v w) :
    Lockstep T d m n (lengthOf v) (lengthOf w) (Twin T) := by
  have hname : Lockstep T d m n (Run.read (·.typeName v) >>= fun t => refuse len ("`" ++ t ++ "` has no length"))
      (Run.read (·.typeName w) >>= fun t => refuse len ("`" ++ t ++ "` has no length")) (Twin T) :=
    lockstep_read_bind (lockstep_fail (by rw [ht.heaps.typeName hv]))
  cases hv with
  | @scalar v hs => cases v <;> first | exact hs.elim | exact lockstep_pure ht (.scalar trivial) | exact hname
  | _ => exact hname

theorem isInstanceOf_eq (ht : T.Machines d m n) {v w : Value} (hv : T.Val m.heap v w) {c d : ClassRef}
    (hc : T.Val m.heap (.type c) (.type d)) : isInstanceOf v c m.heap = isInstanceOf w d n.heap := by
  cases hv with
  | @scalar v hs => cases v <;> first | exact hs.elim | rfl
  | object hp => exact ht.heaps.isSubclass (ht.heaps.object (.object hp)).type hc
  | _ => rfl

section

variable {v w x y : Value}

theorem lockstep_hasattr (ht : T.Machines d m n) (hv : T.Val m.heap v w) (hx : T.Val m.heap x y) :
    Lockstep T d m n (hasattr.apply [v, x]) (hasattr.apply [w, y]) (Twin T) := by
  cases hx with
  | scalar hs =>
    cases x with
    | str x =>
      refine lockstep_read_bind (lockstep_pure ht ?_)
      rw [isSome_of_rel (ht.heaps.attr? hv x)]
      exact .scalar trivial
    | _ => exact lockstep_fail rfl
  | _ => exact lockstep_fail rfl

theorem lockstep_getattr (ht : T.Machines d m n) (hv : T.Val m.heap v w) (hx : T.Val m.heap x y) :
    Lockstep T d m n (getattr.apply [v, x]) (getattr.apply [w, y]) (Twin T) := by
  cases hx with
  | scalar hs =>
    cases x with
    | str x => exact lockstep_attrOr ht hv x .none
    | _ => exact lockstep_fail rfl
  | _ => exact lockstep_fail rfl

theorem lockstep_getattrOr (ht : T.Machines d m n) (hv : T.Val m.heap v w) (hx : T.Val m.heap x y)
    {u u' : Value} (hu : T.Val m.heap u u') :
    Lockstep T d m n (getattr.apply [v, x, u]) (getattr.apply [w, y, u']) (Twin T) := by
  cases hx with
  | scalar hs =>
    cases x with
    | str x => exact lockstep_attrOr ht hv x (.some hu)
    | _ => exact lockstep_fail rfl
  | _ => exact lockstep_fail rfl

theorem lockstep_isinstance (ht : T.Machines d m n) (hv : T.Val m.heap v w) (hx : T.Val m.heap x y) :
    Lockstep T d m n (isinstance.apply [v, x]) (isinstance.apply [w, y]) (Twin T) := by
  cases hx with
  | scalar hs => cases x <;> first | exact hs.elim | exact lockstep_fail rfl
  | type hc =>
    refine lockstep_read_bind (lockstep_pure ht ?_)
    rw [isInstanceOf_eq ht hv (.type hc)]
    exact .scalar trivial
  | _ => exact lockstep_fail rfl

end

theorem lockstep_apply (ht : T.Machines d m n) (b : Builtin) {vs ws : List Value}
    (hv : List.Forall₂ (T.Val m.heap) vs ws) : Lockstep T d m n (b.apply vs) (b.apply ws) (Twin T) := by
  by_cases harity : ws.length < b.arity.1 ∨ b.arity.2 < ws.length
  · unfold apply
    rw [hv.length_eq, if_pos harity, if_pos harity]
    exact lockstep_fail rfl
  · -- each function gets as many arguments as it takes
    cases b with
    | str =>
      rcases hv with _ | ⟨hv, _ | _⟩
      · simp [arity] at harity
      · exact lockstep_read_bind (lockstep_pure ht (by rw [ht.heaps.display hv]; exact .scalar trivial))
      · simp [arity] at harity
    | len =>
      rcases hv with _ | ⟨hv, _ | _⟩
      · simp [arity] at harity
      · exact lockstep_lengthOf ht hv
      · simp [arity] at harity
    | typeName =>
      rcases hv with _ | ⟨hv, _ | _⟩
      · simp [arity] at harity
      · exact lockstep_read_bind (lockstep_pure ht (by rw [ht.heaps.typeName hv]; exact .scalar trivial))
      · simp [arity] at harity
    | hasattr =>
      rcases hv with _ | ⟨hv, _ | ⟨hx, _ | _⟩⟩
      · simp [arity] at harity
      · simp [arity] at harity
      · exact lockstep_hasattr ht hv hx
      · simp [arity] at harity
    | isinstance =>
      rcases hv with _ | ⟨hv, _ | ⟨hx, _ | _⟩⟩
      · simp [arity] at harity
      · simp [arity] at harity
      · exact lockstep_isinstance ht hv hx
      · simp [arity] at harity
    | getattr =>
      rcases hv with _ | ⟨hv, _ | ⟨hx, _ | ⟨hd, _ | _⟩⟩⟩
      · simp [arity] at harity
      · simp [arity] at harity
      · exact lockstep_getattr ht hv hx
      · exact lockstep_getattrOr ht hv hx hd
      · simp [arity] at harity

end Builtin

/-! ## Operators -/

namespace Operator

variable {T : Twins} {h k : Heap} {v w v' w' : Value}

theorem mismatch_eq (hh : T.Heaps h k) (hv : T.Val h v v') (hw : T.Val h w w') (op : String) :
    mismatch op v w h = mismatch op v' w' k := by
  unfold mismatch
  rw [hh.typeName hv, hh.typeName hw]

/-- An operator other than equality takes two integers or two texts. -/
theorem binary_of_ne {op : BinaryOp} (he : op ≠ .equal) (hn : op ≠ .notEqual) (v w : Value) (h : Heap) :
    binary op v w h =
      match v, w with
      | .int a, .int b => (onInts? op a.toInt b.toInt).getD (.error (mismatch op.symbol v w h))
      | .str a, .str b =>
        match onTexts? op a b with
        | some v => .ok v
        | none => .error (mismatch op.symbol v w h)
      | _, _ => .error (mismatch op.symbol v w h) := by
  cases op <;> first | rfl | contradiction

theorem binary_eq (hh : T.Heaps h k) (hv : T.Val h v v') (hw : T.Val h w w') (op : BinaryOp) :
    binary op v w h = binary op v' w' k := by
  have hm := mismatch_eq hh hv hw op.symbol
  by_cases he : op = .equal
  · subst he
    exact congrArg (fun b => Except.ok (Value.bool b)) (decide_eq_decide.2 (hv.eq_iff hw))
  by_cases hn : op = .notEqual
  · subst hn
    exact congrArg (fun b => Except.ok (Value.bool b))
      (decide_eq_decide.2 (not_congr (hv.eq_iff hw)))
  rw [binary_of_ne he hn, binary_of_ne he hn]
  cases hv with
  | @scalar v hs =>
    cases hw with
    | scalar => rw [hm]
    | _ => cases v <;> exact congrArg Except.error hm
  | _ => cases hw <;> exact congrArg Except.error hm

theorem unary_eq (hh : T.Heaps h k) (hv : T.Val h v v') (op : UnaryOp) :
    unary op v h = unary op v' k := by
  have hm := mismatch_eq hh hv hv op.symbol
  cases op with
  | not => rw [unary, unary, hv.isTruthy_eq]
  | neg =>
    cases hv with
    | @scalar v hs => cases v <;> first | rfl | exact hs.elim
    | _ => exact congrArg Except.error hm

end Operator

/-! ## Frames -/

namespace Twins

/-- Corresponding bindings of two frames. -/
inductive LocalsTwin (V : Value → Value → Prop) : Locals → Locals → Prop
  | module : LocalsTwin V .module .module
  | function {b c : Bindings Value} (hb : Bindings.Alike .empty V b c) :
      LocalsTwin V (.function b) (.function c)
  | classBody {b c : Bindings Value} (hb : Bindings.Alike .empty V b c) :
      LocalsTwin V (.classBody b) (.classBody c)

theorem LocalsTwin.imp {V W : Value → Value → Prop} {a b : Locals} (h : LocalsTwin V a b)
    (hVW : ∀ v w, V v w → W v w) : LocalsTwin W a b := by
  cases h with
  | module => exact .module
  | function hb => exact .function (hb.imp hVW)
  | classBody hb => exact .classBody (hb.imp hVW)

/-- Two frames of the same module, each at home in the namespace of its run. -/
structure FrameTwin (T : Twins) (h : Heap) (f g : Frame) : Prop where
  leftGlobals : f.globals = T.leftScope
  rightGlobals : g.globals = T.rightScope
  module : f.module = g.module
  locals : LocalsTwin (T.Val h) f.locals g.locals

/-- Two statements that both go on, in corresponding frames, or both return corresponding values. -/
inductive FlowTwin (T : Twins) : Flow → Flow → Heap → Prop
  | next {f g : Frame} {h : Heap} (hf : T.FrameTwin h f g) : FlowTwin T (.next f) (.next g) h
  | leave {v w : Value} {h : Heap} (hv : T.Val h v w) : FlowTwin T (.leave v) (.leave w) h

namespace FrameTwin

variable {T : Twins} {h k : Heap} {f g : Frame}

theorem later (hf : T.FrameTwin h f g) (hk : h.Persists k) : T.FrameTwin k f g :=
  { hf with locals := hf.locals.imp fun _ _ hv => hv.later hk }

theorem isFunction_eq (hf : T.FrameTwin h f g) : f.isFunction = g.isFunction := by
  obtain ⟨_, _, a⟩ := f
  obtain ⟨_, _, b⟩ := g
  cases hf.locals <;> rfl

theorem attrs (hf : T.FrameTwin h f g) : Bindings.Alike .empty (T.Val h) f.attrs g.attrs := by
  obtain ⟨_, _, a⟩ := f
  obtain ⟨_, _, b⟩ := g
  cases hf.locals with
  | classBody hb => exact hb
  | module | function => exact .start _

theorem local? (hf : T.FrameTwin h f g) (x : Name) :
    Option.Rel (T.Val h) (f.local? x) (g.local? x) := by
  obtain ⟨_, _, a⟩ := f
  obtain ⟨_, _, b⟩ := g
  cases hf.locals with
  | function hb | classBody hb => exact hb.rel x
  | module => exact .none

theorem classBody (hf : T.FrameTwin h f g) (doc : Option String) :
    T.FrameTwin h { f with locals := .classBody (Run.initialAttrs f.module doc) }
      { g with locals := .classBody (Run.initialAttrs g.module doc) } := by
  refine { hf with locals := .classBody ?_ }
  rw [hf.module]
  refine ((Bindings.Alike.start .empty).insert _ (.scalar trivial)).insert _ ?_
  cases doc <;> exact .scalar trivial

/-- The two frames find corresponding values, or the right one lacks a name that only the left namespace has
to begin with. -/
theorem lookup? (hf : T.FrameTwin h f g) (hh : T.Heaps h k) (x : Name) :
    Option.Rel (T.Val h) (f.lookup? h x) (g.lookup? k x) ∨
      x ∈ T.given.names ∧ g.lookup? k x = none := by
  have hl := hf.local? x
  unfold Frame.lookup?
  generalize f.local? x = a at hl ⊢
  generalize g.local? x = b at hl ⊢
  cases hl with
  | some hv => exact .inl (.some hv)
  | none =>
    rw [hf.leftGlobals, hf.rightGlobals]
    cases hr : (k.scope T.rightScope).get? x with
    | some w =>
      obtain ⟨v, hv, hvw⟩ := hh.scope.bound hr
      rw [hv]
      exact .inl (.some hvw)
    | none =>
      rw [hh.scope.unbound hr]
      cases hx : T.given.get? x with
      | some v =>
        have hx : x ∈ T.given.names := (T.given.mem_names_iff x).2 (Option.isSome_of_eq_some hx)
        refine .inr ⟨hx, ?_⟩
        simp only [T.notBuiltin x hx, Option.map_none]
      | none =>
        left
        cases Builtin.ofName? x with
        | none => exact .none
        | some b => exact .some (.scalar trivial)

end FrameTwin

end Twins

namespace Run

variable {T : Twins} {d : Nat} {m n : Machine} {f g : Frame}

theorem lockstep_bindName (ht : T.Machines d m n) (hf : T.FrameTwin m.heap f g) (x : Name) {v w : Value}
    (hv : T.Val m.heap v w) :
    Lockstep T d m n (f.bind x v) (g.bind x w) (fun f g h => T.FrameTwin h f g) := by
  obtain ⟨s, y, a⟩ := f
  obtain ⟨s', y', b⟩ := g
  obtain ⟨rfl, rfl, hm, hl⟩ := hf
  cases hl with
  | module =>
    have hk := m.heap.persists_modifyScope T.leftScope (·.insert x v)
    exact .value { ht with heaps := ht.heaps.bindName x hv } hk ⟨rfl, rfl, hm, .module⟩
  | function hb => exact lockstep_pure ht ⟨rfl, rfl, hm, .function (hb.insert x hv)⟩
  | classBody hb => exact lockstep_pure ht ⟨rfl, rfl, hm, .classBody (hb.insert x hv)⟩

theorem lockstep_valueOfName (ht : T.Machines d m n) (hf : T.FrameTwin m.heap f g) {x : Name}
    (hx : x ∈ T.reads) : Lockstep T d m n (valueOfName f x) (valueOfName g x) (Twin T) := by
  have h := hf.lookup? ht.heaps x
  refine lockstep_read_bind ?_
  generalize f.lookup? m.heap x = a at h ⊢
  generalize g.lookup? n.heap x = b at h ⊢
  rcases h with h | ⟨hgiven, rfl⟩
  · cases h with
    | none => exact lockstep_fail rfl
    | some hv => exact lockstep_pure ht hv
  · exact .lacks ⟨x, hgiven, hx, rfl⟩

theorem lockstep_operate (ht : T.Machines d m n) {a b : Heap → Except RunError Value}
    (hab : a m.heap = b n.heap) (hs : ∀ v, a m.heap = .ok v → v.IsScalar) :
    Lockstep T d m n (operate a) (operate b) (Twin T) := by
  refine lockstep_read_bind ?_
  rw [← hab]
  cases hr : a m.heap with
  | ok v => exact lockstep_pure ht (.scalar (hs v hr))
  | error e => exact lockstep_fail rfl

/-- At the depth `d`, calls of corresponding values with corresponding arguments run in lockstep. -/
def CallerLockstep (T : Twins) (d : Nat) (call : Caller) : Prop :=
  ∀ (m n : Machine) (v w : Value) (vs ws : List Value), T.Machines d m n → T.Val m.heap v w →
    List.Forall₂ (T.Val m.heap) vs ws → Lockstep T d m n (call v vs) (call w ws) (Twin T)

theorem vals_later {T : Twins} {h k : Heap} {vs ws : List Value} (hv : List.Forall₂ (T.Val h) vs ws)
    (hk : h.Persists k) : List.Forall₂ (T.Val k) vs ws := hv.imp fun _ _ hv => hv.later hk

end Run

/-! ## Expressions and statements -/

section

open Run

variable {T : Twins} {d : Nat} {call : Caller} {f g : Frame}

mutual

theorem Expr.eval_lockstep (hcall : CallerLockstep T d call) : ∀ (e : Expr) (m n : Machine),
    e.reads ⊆ T.reads → T.Machines d m n → T.FrameTwin m.heap f g →
      Lockstep T d m n (e.eval call f) (e.eval call g) (Twin T)
  | .int _ _, m, n, _, ht, _ | .str _ _, m, n, _, ht, _ | .bool _ _, m, n, _, ht, _
  | .none _, m, n, _, ht, _ => by
    rw [Expr.eval, Expr.eval]
    exact lockstep_pure ht (.scalar trivial)
  | .ident x _, m, n, hr, ht, hf => by
    rw [Expr.eval, Expr.eval]
    exact lockstep_valueOfName ht hf (hr (List.mem_singleton_self x))
  | .attr object x _, m, n, hr, ht, hf => by
    rw [Expr.eval, Expr.eval]
    refine lockstep_bind (Expr.eval_lockstep hcall object m n hr ht hf) fun v w k l ht hk hv => ?_
    exact lockstep_getAttr ht hv x
  | .call callee args _, m, n, hr, ht, hf => by
    rw [Expr.eval, Expr.eval]
    obtain ⟨hr, hr'⟩ := List.append_subset.1 hr
    refine lockstep_bind (Expr.eval_lockstep hcall callee m n hr ht hf) fun v w k l ht hk hv => ?_
    refine lockstep_bind (Expr.evalAll_lockstep hcall args k l hr' ht (hf.later hk))
      fun vs ws k' l' ht hk' hvs => ?_
    exact hcall k' l' v w vs ws ht (hv.later hk') hvs
  | .binary op left right _, m, n, hr, ht, hf => by
    rw [Expr.eval, Expr.eval]
    obtain ⟨hr, hr'⟩ := List.append_subset.1 hr
    refine lockstep_bind (Expr.eval_lockstep hcall left m n hr ht hf) fun v w k l ht hk hv => ?_
    have hright := Expr.eval_lockstep hcall right k l hr' ht (hf.later hk)
    -- the right operand is left alone in both runs or in none
    split
    · rw [hv.isTruthy_eq]
      split
      · exact hright
      · exact lockstep_pure ht hv
    · rw [hv.isTruthy_eq]
      split
      · exact lockstep_pure ht hv
      · exact hright
    · refine lockstep_bind hright fun v' w' k' l' ht hk' hv' => ?_
      exact lockstep_operate ht (Operator.binary_eq ht.heaps (hv.later hk') hv' _)
        fun _ => Operator.binary_isScalar
  | .unary op operand _, m, n, hr, ht, hf => by
    rw [Expr.eval, Expr.eval]
    refine lockstep_bind (Expr.eval_lockstep hcall operand m n hr ht hf) fun v w k l ht hk hv => ?_
    exact lockstep_operate ht (Operator.unary_eq ht.heaps hv op) fun _ => Operator.unary_isScalar

theorem Expr.evalAll_lockstep (hcall : CallerLockstep T d call) : ∀ (es : List Expr) (m n : Machine),
    Expr.readsAll es ⊆ T.reads → T.Machines d m n → T.FrameTwin m.heap f g →
      Lockstep T d m n (Expr.evalAll call f es) (Expr.evalAll call g es)
        (fun vs ws h => List.Forall₂ (T.Val h) vs ws)
  | [], m, n, _, ht, _ => by
    rw [Expr.evalAll, Expr.evalAll]
    exact lockstep_pure ht .nil
  | e :: es, m, n, hr, ht, hf => by
    rw [Expr.evalAll, Expr.evalAll]
    obtain ⟨hr, hr'⟩ := List.append_subset.1 hr
    refine lockstep_bind (Expr.eval_lockstep hcall e m n hr ht hf) fun v w k l ht hk hv => ?_
    refine lockstep_bind (Expr.evalAll_lockstep hcall es k l hr' ht (hf.later hk))
      fun vs ws k' l' ht hk' hvs => ?_
    exact lockstep_pure ht (.cons (hv.later hk') hvs)

end

namespace Run

theorem basesOf_lockstep (hcall : CallerLockstep T d call) (x : Name) : ∀ (es : List Expr) (m n : Machine),
    Expr.readsAll es ⊆ T.reads → T.Machines d m n → T.FrameTwin m.heap f g →
      Lockstep T d m n (basesOf call f x es) (basesOf call g x es)
        (fun cs ds h => List.Forall₂ (fun c d => T.Val h (.type c) (.type d)) cs ds)
  | [], m, n, _, ht, _ => by
    rw [basesOf, basesOf]
    exact lockstep_pure ht .nil
  | e :: es, m, n, hr, ht, hf => by
    rw [basesOf, basesOf]
    obtain ⟨hr, hr'⟩ := List.append_subset.1 hr
    refine lockstep_bind (Expr.eval_lockstep hcall e m n hr ht hf) fun v w k l ht hk hv => ?_
    have hname : ∀ {v w : Value}, T.Val k.heap v w → Lockstep T d k l
        (read (·.typeName v) >>= fun t => fail (α := List ClassRef) (.invalidBase x t))
        (read (·.typeName w) >>= fun t => fail (.invalidBase x t))
        (fun cs ds h => List.Forall₂ (fun c d => T.Val h (.type c) (.type d)) cs ds) := fun hv =>
      lockstep_read_bind (lockstep_fail (by rw [ht.heaps.typeName hv]))
    cases hv with
    | type hp =>
      refine lockstep_bind (basesOf_lockstep hcall x es k l hr' ht (hf.later hk))
        fun cs ds k' l' ht hk' hcs => ?_
      exact lockstep_pure ht (.cons ((Twins.Val.type hp).later hk') hcs)
    | @scalar v hs => cases v <;> first | exact hs.elim | exact hname (.scalar trivial)
    | function hp => exact hname (.function hp)
    | method hp => exact hname (.method hp)
    | object hp => exact hname (.object hp)

theorem defineFunction_lockstep (hcall : CallerLockstep T d call) {m n : Machine} (ht : T.Machines d m n)
    (hf : T.FrameTwin m.heap f g) (x : Name) {params : List Param} {body : List Stmt}
    (doc : Option String) (hp : Expr.readsAll (params.filterMap (·.default)) ⊆ T.reads)
    (hb : Stmt.readsAll body ⊆ T.reads) :
    Lockstep T d m n (defineFunction call f x params body doc) (defineFunction call g x params body doc)
      (fun r s h => T.Val h (.function r) (.function s)) := by
  unfold defineFunction
  refine lockstep_bind (Expr.evalAll_lockstep hcall _ m n hp ht hf) fun vs ws k l ht hk hvs => ?_
  have h := ht.heaps.newFunction (o := ⟨x, f.module, f.globals,
      ⟨doc, .empty, ⟨params.map (·.name), body⟩, vs⟩⟩) (p := ⟨x, g.module, g.globals,
      ⟨doc, .empty, ⟨params.map (·.name), body⟩, ws⟩⟩)
    ⟨rfl, hf.module, hf.leftGlobals, hf.rightGlobals, rfl, .start _, rfl, hb, hvs⟩
  exact lockstep_make ht h.1 (k.heap.extends_newFunction _).footprint.persists h.2

theorem assign_lockstep (hcall : CallerLockstep T d call) {m n : Machine} (ht : T.Machines d m n)
    (hf : T.FrameTwin m.heap f g) {v w : Value} (hv : T.Val m.heap v w) {target : Expr}
    (hr : target.targetReads ⊆ T.reads) :
    Lockstep T d m n (assign call f v target) (assign call g w target)
      (fun f g h => T.FrameTwin h f g) := by
  unfold assign
  split
  · exact lockstep_bindName ht hf _ hv
  · refine lockstep_bind (Expr.eval_lockstep hcall _ m n hr ht hf) fun o p k l ht hk ho => ?_
    refine lockstep_bind (lockstep_setAttr ht ho (hv.later hk) _) fun _ _ k' l' ht hk' _ => ?_
    exact lockstep_pure ht (hf.later (hk.trans hk'))
  · exact lockstep_pure ht hf

end Run

mutual

theorem Stmt.run_lockstep (hcall : CallerLockstep T d call) : ∀ (s : Stmt) (f g : Frame) (m n : Machine),
    s.reads ⊆ T.reads → T.Machines d m n → T.FrameTwin m.heap f g →
      Lockstep T d m n (s.run call f) (s.run call g) T.FlowTwin
  | .bind x value _, f, g, m, n, hr, ht, hf => by
    rw [Stmt.run, Stmt.run]
    refine lockstep_bind (Expr.eval_lockstep hcall value m n hr ht hf) fun v w k l ht hk hv => ?_
    refine lockstep_bind (lockstep_bindName ht (hf.later hk) x hv) fun f' g' k' l' ht hk' hf' => ?_
    exact lockstep_pure ht (.next hf')
  | .assign target value _, f, g, m, n, hr, ht, hf => by
    rw [Stmt.run, Stmt.run]
    obtain ⟨hr, hr'⟩ := List.append_subset.1 hr
    refine lockstep_bind (Expr.eval_lockstep hcall value m n hr ht hf) fun v w k l ht hk hv => ?_
    refine lockstep_bind (assign_lockstep hcall ht (hf.later hk) hv hr') fun f' g' k' l' ht hk' hf' => ?_
    exact lockstep_pure ht (.next hf')
  | .function x params body doc _, f, g, m, n, hr, ht, hf => by
    rw [Stmt.run, Stmt.run]
    obtain ⟨hr, hr'⟩ := List.append_subset.1 hr
    refine lockstep_bind (defineFunction_lockstep hcall ht hf x doc hr hr') fun r s k l ht hk hv => ?_
    refine lockstep_bind (lockstep_bindName ht (hf.later hk) x hv) fun f' g' k' l' ht hk' hf' => ?_
    exact lockstep_pure ht (.next hf')
  | .classDef x bases body doc _, f, g, m, n, hr, ht, hf => by
    rw [Stmt.run, Stmt.run]
    obtain ⟨hr, hr'⟩ := List.append_subset.1 hr
    refine lockstep_bind (basesOf_lockstep hcall x bases m n hr ht hf) fun cs ds k l ht hk hcs => ?_
    have hf := hf.later hk
    refine lockstep_bind (Stmt.runAll_lockstep hcall body _ _ k l hr' ht (hf.classBody doc))
      fun flow flow' k' l' ht hk' hflow => ?_
    cases hflow with
    | leave => exact lockstep_fail rfl
    | next hlast =>
      have hcs := hcs.imp fun _ _ hv => hv.later hk'
      have hc := ht.heaps.newClass (x := x) hcs hlast.attrs
      refine lockstep_bind (lockstep_make (Q := fun c d h => T.Val h (.type c) (.type d)) ht hc.1
        (k'.heap.extends_newClass _).footprint.persists hc.2) fun c d k₂ l₂ ht hk₂ hc => ?_
      refine lockstep_bind (lockstep_bindName ht (hf.later (hk'.trans hk₂)) x hc)
        fun f' g' k₃ l₃ ht hk₃ hf' => ?_
      exact lockstep_pure ht (.next hf')
  | .leave (some e) _, f, g, m, n, hr, ht, hf => by
    rw [Stmt.run, Stmt.run, hf.isFunction_eq]
    split
    · refine lockstep_bind (Expr.eval_lockstep hcall e m n hr ht hf) fun v w k l ht hk hv => ?_
      exact lockstep_pure ht (.leave hv)
    · exact lockstep_fail rfl
  | .leave none _, f, g, m, n, _, ht, hf => by
    rw [Stmt.run, Stmt.run, hf.isFunction_eq]
    split
    · exact lockstep_pure ht (.leave (.scalar trivial))
    · exact lockstep_fail rfl
  | .raise value _, f, g, m, n, hr, ht, hf => by
    rw [Stmt.run, Stmt.run]
    refine lockstep_bind (Expr.eval_lockstep hcall value m n hr ht hf) fun v w k l ht hk hv => ?_
    exact lockstep_read_bind (lockstep_fail (by rw [ht.heaps.display hv]))
  | .branch cond whenTrue whenFalse _, f, g, m, n, hr, ht, hf => by
    rw [Stmt.run, Stmt.run]
    obtain ⟨hr, hr'⟩ := List.append_subset.1 hr
    obtain ⟨htrue, hfalse⟩ := List.append_subset.1 hr'
    refine lockstep_bind (Expr.eval_lockstep hcall cond m n hr ht hf) fun v w k l ht hk hv => ?_
    rw [hv.isTruthy_eq]
    split
    · exact Stmt.runAll_lockstep hcall whenTrue f g k l htrue ht (hf.later hk)
    · exact Stmt.runAll_lockstep hcall whenFalse f g k l hfalse ht (hf.later hk)
  | .expr value, f, g, m, n, hr, ht, hf => by
    rw [Stmt.run, Stmt.run]
    refine lockstep_bind (Expr.eval_lockstep hcall value m n hr ht hf) fun v w k l ht hk _ => ?_
    exact lockstep_pure ht (.next (hf.later hk))

theorem Stmt.runAll_lockstep (hcall : CallerLockstep T d call) : ∀ (ss : List Stmt) (f g : Frame)
    (m n : Machine), Stmt.readsAll ss ⊆ T.reads → T.Machines d m n → T.FrameTwin m.heap f g →
      Lockstep T d m n (Stmt.runAll call f ss) (Stmt.runAll call g ss) T.FlowTwin
  | [], f, g, m, n, _, ht, hf => by
    rw [Stmt.runAll, Stmt.runAll]
    exact lockstep_pure ht (.next hf)
  | s :: ss, f, g, m, n, hr, ht, hf => by
    rw [Stmt.runAll, Stmt.runAll]
    obtain ⟨hr, hr'⟩ := List.append_subset.1 hr
    refine lockstep_bind (Stmt.run_lockstep hcall s f g m n hr ht hf) fun flow flow' k l ht hk hflow => ?_
    cases hflow with
    | leave hv => exact lockstep_pure ht (.leave hv)
    | next hf' => exact Stmt.runAll_lockstep hcall ss _ _ k l hr' ht hf'

end

end

/-! ## Calls -/

namespace Run

variable {T : Twins} {d : Nat}

theorem bindParams_alike {V : Value → Value → Prop} (hnone : V .none .none) :
    ∀ (xs : List Name) {vs ws ds es : List Value} {b c : Bindings Value}, List.Forall₂ V vs ws →
      List.Forall₂ V ds es → Bindings.Alike .empty V b c →
        Bindings.Alike .empty V (bindParams xs vs ds b) (bindParams xs ws es c)
  | [], _, _, _, _, _, _, _, _, hb => hb
  | x :: xs, _, _, _, _, _, _, .cons hv hvs, hd, hb => by
    rw [bindParams, bindParams]
    exact bindParams_alike hnone xs hvs hd (hb.insert x hv)
  | x :: xs, _, _, _, _, _, _, .nil, .cons hd hds, hb => by
    rw [bindParams, bindParams]
    exact bindParams_alike hnone xs .nil hds (hb.insert x hd)
  | x :: xs, _, _, _, _, _, _, .nil, .nil, hb => by
    rw [bindParams, bindParams]
    exact bindParams_alike hnone xs .nil .nil (hb.insert x hnone)

/-- Corresponding arguments are refused alike, or give corresponding bindings. -/
theorem bindArguments_alike {V : Value → Value → Prop} (hnone : V .none .none) (x : Name)
    (params : List Name) {vs ws ds es : List Value} (hv : List.Forall₂ V vs ws)
    (hd : List.Forall₂ V ds es) :
    (∃ e, bindArguments x params ds vs = .error e ∧ bindArguments x params es ws = .error e) ∨
      ∃ b c, bindArguments x params ds vs = .ok b ∧ bindArguments x params es ws = .ok c ∧
        Bindings.Alike .empty V b c := by
  unfold bindArguments
  simp only [hv.length_eq, hd.length_eq]
  split
  · exact .inl ⟨_, rfl, rfl⟩
  · exact .inr ⟨_, _, rfl, rfl, bindParams_alike hnone params hv (List.forall₂_drop _ hd) (.start _)⟩

/-- At the depth `d`, the bodies of corresponding functions run in lockstep on corresponding arguments. -/
def InvokerLockstep (T : Twins) (d : Nat) (invoke : Invoker) : Prop :=
  ∀ (m n : Machine) (f g : FunctionRef) (vs ws : List Value), T.Machines d m n →
    T.Val m.heap (.function f) (.function g) → List.Forall₂ (T.Val m.heap) vs ws →
      Lockstep T d m n (invoke f vs) (invoke g ws) (Twin T)

/-- Calls that follow fewer classes than they may run in lockstep. -/
theorem callWithin_lockstep {invoke : Invoker} (hinv : InvokerLockstep T d invoke) :
    ∀ (i : Nat) (m n : Machine) (v w : Value) (vs ws : List Value), T.Machines d m n → T.Val m.heap v w →
      List.Forall₂ (T.Val m.heap) vs ws → m.heap.initAfter? i v = none →
        Lockstep T d m n (callWithin invoke i v vs) (callWithin invoke i w ws) (Twin T)
  | 0, _, _, _, _, _, _, _, _, _, hi => by cases hi
  | i + 1, m, n, v, w, vs, ws, ht, hv, hvs, hi => by
    unfold callWithin
    cases hv with
    | @scalar v hs =>
      cases v with
      | builtin b => exact Builtin.lockstep_apply ht b hvs
      | function | method | type | object => exact hs.elim
      | _ => exact lockstep_read_bind (lockstep_fail (by rw [ht.heaps.typeName (.scalar hs)]))
    | function hp => exact hinv m n _ _ vs ws ht (.function hp) hvs
    | method hp =>
      have hm := ht.heaps.method (.method hp)
      exact lockstep_read_bind (hinv m n _ _ _ _ ht hm.function (.cons hm.receiver hvs))
    | object hp =>
      exact lockstep_read_bind (lockstep_fail (by rw [ht.heaps.typeName (.object hp)]))
    | @type c c' hp =>
      have hnew := ht.heaps.newInstance (.type hp)
      refine lockstep_bind (lockstep_make (Q := fun o p h => T.Val h (.object o) (.object p) ∧
        h.classes = m.heap.classes) ht hnew.1 (m.heap.extends_newInstance c).footprint.persists
        ⟨hnew.2, m.heap.classes_newInstance c⟩) fun o p k l ht hk ho => ?_
      obtain ⟨ho, hclasses⟩ := ho
      have hc := (Twins.Val.type hp).later hk
      have hvs := vals_later hvs hk
      have hinit := ht.heaps.lookup hc "init"
      rw [← Heap.initAfter?_congr hclasses, Heap.initAfter?, Heap.initOf?] at hi
      refine lockstep_read_bind ?_
      generalize k.heap.lookup c "init" = a at hinit hi ⊢
      generalize l.heap.lookup c' "init" = b at hinit ⊢
      cases hinit with
      | none =>
        rw [show vs.isEmpty = ws.isEmpty by cases hvs <;> rfl]
        simp only
        split
        · exact lockstep_pure ht ho
        · refine lockstep_read_bind (lockstep_fail ?_)
          rw [(ht.heaps.type hc).name, hvs.length_eq]
      | @some u u' hu =>
        -- a function gets the instance; whatever else is there is called without it
        have hother : k.heap.initAfter? i u = none → Lockstep T d k l
            (callWithin invoke i u vs >>= fun _ => (pure (.object o) : Run Value))
            (callWithin invoke i u' ws >>= fun _ => (pure (.object p) : Run Value)) (Twin T) := fun hi =>
          lockstep_bind (callWithin_lockstep hinv i k l u u' vs ws ht hu hvs hi) fun _ _ k' l' ht hk' _ =>
            lockstep_pure ht (ho.later hk')
        cases hu with
        | function hf =>
          refine lockstep_bind (hinv k l _ _ _ _ ht (.function hf) (.cons ho hvs))
            fun _ _ k' l' ht hk' _ => ?_
          exact lockstep_pure ht (ho.later hk')
        | @scalar u hs => cases u <;> first | exact hs.elim | exact hother hi
        | _ => exact hother hi

/-- Both calls follow classes for ever, or neither does. Then the bounds on the classes followed, which differ in
the two runs, may both be put up to the larger one. -/
theorem callBy_lockstep {invoke : Invoker} (hinv : InvokerLockstep T d invoke) :
    CallerLockstep T d (callBy invoke) := by
  intro m n v w vs ws ht hv hvs
  have hiff := ht.heaps.endless_iff hv
  unfold Lockstep
  by_cases he : m.heap.Endless v
  · obtain ⟨m', hm', hm⟩ := callBy_endless invoke vs he
    obtain ⟨n', hn', hn⟩ := callBy_endless invoke ws (hiff.1 he)
    rw [hm', hn']
    exact .endless (.called ht.heaps hv he (hiff.1 he) hm hn)
  · have hleft := Nat.add_le_add_right (le_max_left m.heap.classes.size n.heap.classes.size) 2
    have hright := Nat.add_le_add_right (le_max_right m.heap.classes.size n.heap.classes.size) 2
    rw [callBy_within invoke he hleft, callBy_within invoke (mt hiff.2 he) hright]
    exact callWithin_lockstep hinv _ m n v w vs ws ht hv hvs (Heap.initAfter?_of_not_endless he (by omega))

/-- By induction on the bound on the nesting, which is the same in both runs, and more than is left of the limit. -/
theorem invokeWithin_lockstep (limit : Nat) : ∀ i d, limit - d < i → InvokerLockstep T d (invokeWithin limit i)
  | 0, _, hi, _, _, _, _, _, _, _, _, _ => absurd hi (Nat.not_lt_zero _)
  | i + 1, d, hi, m, n, f, g, vs, ws, ht, hv, hvs => by
    rw [invokeWithin, invokeWithin]
    show Lockstep T d m n (if limit ≤ m.depth then _ else _) (if limit ≤ n.depth then _ else _) _
    rw [ht.left, ht.right]
    split
    · exact lockstep_fail rfl
    · refine lockstep_read_bind ?_
      have ho := ht.heaps.function hv
      rw [← ho.name, ← ho.code]
      rcases bindArguments_alike (.scalar trivial) (m.heap.function f).name
        (m.heap.function f).state.code.params hvs ho.defaults with ⟨e, hl, hr⟩ | ⟨b, c, hl, hr, hb⟩
      · rw [hl, hr]
        exact lockstep_fail rfl
      · rw [hl, hr]
        have hf : T.FrameTwin m.heap ⟨(m.heap.function f).globals, (m.heap.function f).module, .function b⟩
            ⟨(n.heap.function g).globals, (n.heap.function g).module, .function c⟩ :=
          ⟨ho.leftGlobals, ho.rightGlobals, ho.module, .function hb⟩
        refine lockstep_bind (lockstep_deeper (Stmt.runAll_lockstep
          (callBy_lockstep (invokeWithin_lockstep limit i (d + 1) (by omega))) _ _ _ _ _ ho.reads
          ⟨ht.heaps, congrArg (· + 1) ht.left, congrArg (· + 1) ht.right⟩ hf)) fun flow flow' k l ht hk hflow => ?_
        cases hflow with
        | leave hv => exact lockstep_pure ht hv
        | next => exact lockstep_pure ht (.scalar trivial)

theorem invoke_lockstep (limit d : Nat) : InvokerLockstep T d (invoke limit) := by
  intro m n f g vs ws ht hv hvs
  show Lockstep T d m n (invokeWithin limit (limit - m.depth + 1) f vs)
    (invokeWithin limit (limit - n.depth + 1) g ws) _
  rw [ht.left, ht.right]
  exact invokeWithin_lockstep limit _ d (Nat.lt_succ_self _) m n f g vs ws ht hv hvs

theorem call_lockstep (limit d : Nat) : CallerLockstep T d (call limit) := callBy_lockstep (invoke_lockstep limit d)

end Run

/-- A unit runs in lockstep with itself from twin machines, each run in the namespace of its side. -/
theorem CodeUnit.run_lockstep {T : Twins} {d : Nat} {m n : Machine} (ht : T.Machines d m n) (limit : Nat)
    (u : CodeUnit) (hr : u.reads ⊆ T.reads) (module : Name) :
    Run.Lockstep T d m n (u.run limit T.leftScope module) (u.run limit T.rightScope module)
      (fun _ _ _ => True) := by
  unfold CodeUnit.run
  refine Run.lockstep_bind (Stmt.runAll_lockstep (Run.call_lockstep limit d) u.body
    ⟨T.leftScope, module, .module⟩ ⟨T.rightScope, module, .module⟩ m n hr ht ⟨rfl, rfl, rfl, .module⟩)
    fun flow flow' k l ht hk hflow => ?_
  cases hflow with
  | next => exact Run.lockstep_pure ht trivial
  | leave => exact Run.lockstep_fail rfl

end LivePatch
