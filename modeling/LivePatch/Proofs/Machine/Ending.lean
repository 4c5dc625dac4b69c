/-
Calls without end. The limit on the depth ends every chain of nested function bodies, and a tree is finite,
so the only way left to run for ever is to make instances: a class whose `init` is no function goes on
to call what it is, and if that is a class again, and so on without end, no function body is ever
entered that the limit could count.

Such a chain changes no class on its way, and so it comes back to a class that it has met if it is longer
than the number of classes. A call that may follow that many classes has therefore followed every chain
that has an end.
-/
import Mathlib.Data.Fintype.Pigeonhole
import LivePatch.Machine.Call
import LivePatch.Proofs.Heap.Persist
import LivePatch.Proofs.Sequence

namespace LivePatch

/-! ## Classes that call each other -/

namespace Heap

variable {h k : Heap}

/-- What a call of a value calls in its turn without running a function body: the `init` of a class,
when it is no function. -/
def initOf? (h : Heap) : Value → Option Value
  | .type c =>
    match h.lookup c "init" with
    | some (.function _) => none
    | v => v
  | _ => none

/-- What a call of a value has come to after `n` steps from one `init` to the next. -/
def initAfter? (h : Heap) : Nat → Value → Option Value
  | 0, v => some v
  | n + 1, v => (h.initOf? v).bind (h.initAfter? n)

/-- Calling the value goes on from one `init` to the next for ever. -/
def Endless (h : Heap) (v : Value) : Prop := ∀ n, (h.initAfter? n v).isSome

theorem lookupWithin_congr (hk : k.classes = h.classes) (x : Name) :
    ∀ (n : Nat) (c : ClassRef), k.lookupWithin x n c = h.lookupWithin x n c
  | 0, _ => rfl
  | n + 1, c => by
    have htype : k.type c = h.type c := congrArg (·.get c) hk
    unfold lookupWithin
    rw [htype, funext (lookupWithin_congr hk x n)]

/-- What classes have depends on the classes alone. -/
theorem lookup_congr (hk : k.classes = h.classes) (c : ClassRef) (x : Name) :
    k.lookup c x = h.lookup c x := lookupWithin_congr hk x _ c

theorem classes_newInstance (h : Heap) (c : ClassRef) : (h.newInstance c).2.classes = h.classes := rfl

theorem initOf?_congr (hk : k.classes = h.classes) (v : Value) : k.initOf? v = h.initOf? v := by
  cases v with
  | type c => simp only [initOf?, lookup_congr hk]
  | _ => rfl

theorem initAfter?_congr (hk : k.classes = h.classes) :
    ∀ (n : Nat) (v : Value), k.initAfter? n v = h.initAfter? n v
  | 0, _ => rfl
  | n + 1, v => by
    unfold initAfter?
    rw [initOf?_congr hk, funext (initAfter?_congr hk n)]

theorem endless_congr (hk : k.classes = h.classes) (v : Value) : k.Endless v ↔ h.Endless v :=
  forall_congr' fun n => by rw [initAfter?_congr hk]

theorem initAfter?_one (h : Heap) (v : Value) : h.initAfter? 1 v = h.initOf? v := by
  unfold initAfter?
  exact Option.bind_fun_some _

theorem initAfter?_succ {n : Nat} {v w : Value} (hv : h.initOf? v = some w) :
    h.initAfter? (n + 1) v = h.initAfter? n w := by
  rw [initAfter?, hv, Option.bind_some]

theorem initAfter?_add (h : Heap) : ∀ (m n : Nat) (v : Value),
    h.initAfter? (m + n) v = (h.initAfter? m v).bind (h.initAfter? n)
  | 0, n, v => by rw [Nat.zero_add]; rfl
  | m + 1, n, v => by
    rw [Nat.add_right_comm, initAfter?, initAfter?, Option.bind_assoc]
    exact congrArg _ (funext (initAfter?_add h m n))

theorem initAfter?_of_le {m n : Nat} {v : Value} (hn : (h.initAfter? n v).isSome) (hm : m ≤ n) :
    ∃ w, h.initAfter? m v = some w := by
  obtain ⟨i, rfl⟩ := Nat.exists_eq_add_of_le hm
  rw [initAfter?_add] at hn
  cases hw : h.initAfter? m v with
  | none => rw [hw] at hn; cases hn
  | some w => exact ⟨w, rfl⟩

theorem lookup_of_size_le {c : ClassRef} (hc : h.classes.size ≤ c.index) (x : Name) :
    h.lookup c x = none := by
  have htype : h.type c = default := h.classes.get_of_size_le hc
  unfold lookup lookupWithin
  rw [htype]
  rfl

/-- Only a class of the heap has an `init`. -/
theorem eq_type_of_initOf? {v w : Value} (hv : h.initOf? v = some w) :
    ∃ c : ClassRef, v = .type c ∧ c.index < h.classes.size := by
  cases v with
  | type c =>
    refine ⟨c, rfl, Nat.lt_of_not_le fun hc => ?_⟩
    simp only [initOf?, lookup_of_size_le hc, reduceCtorEq] at hv
  | _ => cases hv

/-- A chain that comes back to where it has been has no end. -/
theorem endless_of_repeat {v w : Value} {i j : Nat} (hij : i < j) (hi : h.initAfter? i v = some w)
    (hj : h.initAfter? j v = some w) : h.Endless v := by
  intro n
  induction n using Nat.strong_induction_on with
  | _ n ih =>
    by_cases hn : n ≤ j
    · obtain ⟨u, hu⟩ := initAfter?_of_le (by rw [hj]; rfl) hn
      rw [hu]
      rfl
    · -- the rest of the way from the second visit is the rest of the way from the first
      have hsplit : h.initAfter? n v = h.initAfter? (i + (n - j)) v := by
        obtain ⟨l, rfl⟩ := Nat.exists_eq_add_of_le (Nat.le_of_not_le hn)
        rw [Nat.add_sub_cancel_left, initAfter?_add, initAfter?_add, hi, hj]
      rw [hsplit]
      exact ih _ (by omega)

/-- A chain longer than the number of classes has no end. -/
theorem endless_of_long {v : Value} (hv : (h.initAfter? (h.classes.size + 1) v).isSome) :
    h.Endless v := by
  have hclass : ∀ i : Fin (h.classes.size + 1),
      ∃ c : ClassRef, h.initAfter? i v = some (.type c) ∧ c.index < h.classes.size := by
    intro i
    obtain ⟨w, hw⟩ := initAfter?_of_le hv (Nat.le_of_lt i.2)
    obtain ⟨u, hu⟩ := initAfter?_of_le hv (show i.1 + 1 ≤ _ from i.2)
    rw [initAfter?_add, hw, Option.bind_some, initAfter?_one] at hu
    obtain ⟨c, rfl, hc⟩ := eq_type_of_initOf? hu
    exact ⟨c, hw, hc⟩
  choose c hc hlt using hclass
  obtain ⟨i, j, hne, heq⟩ := Fintype.exists_ne_map_eq_of_card_lt
    (fun i => (⟨(c i).index, hlt i⟩ : Fin h.classes.size)) (by simp)
  have heq : c i = c j := congrArg Ref.mk (congrArg Fin.val heq)
  rcases Nat.lt_or_gt_of_ne (fun e => hne (Fin.ext e)) with hij | hij
  · exact endless_of_repeat hij (hc i) (heq ▸ hc j)
  · exact endless_of_repeat hij (hc j) (heq ▸ hc i)

/-- A chain that ends has no more links than there are classes. -/
theorem initAfter?_of_not_endless {v : Value} (he : ¬ h.Endless v) {n : Nat} (hn : h.classes.size < n) :
    h.initAfter? n v = none := by
  cases hv : h.initAfter? n v with
  | none => rfl
  | some w =>
    obtain ⟨u, hu⟩ := initAfter?_of_le (Option.isSome_of_eq_some hv) hn
    exact absurd (endless_of_long (Option.isSome_of_eq_some hu)) he

theorem endless_iff {v : Value} :
    h.Endless v ↔ (h.initAfter? (h.classes.size + 1) v).isSome :=
  ⟨fun he => he _, endless_of_long⟩

instance (h : Heap) (v : Value) : Decidable (h.Endless v) := decidable_of_iff _ endless_iff.symm

/-- Nothing has happened but that instances were made. -/
inductive OnlyInstances : Heap → Heap → Prop
  | refl (h : Heap) : OnlyInstances h h
  | newInstance {h k : Heap} {c : ClassRef} (hk : OnlyInstances (h.newInstance c).2 k) : OnlyInstances h k

end Heap

/-! ## Calls -/

namespace Run

variable {invoke : Invoker} {callee : Value} {args : List Value} {m : Machine} {n : Nat}

/-- A call of a class makes an instance and looks up the initialiser. -/
theorem callWithin_class (n : Nat) (c : ClassRef) (args : List Value) (m : Machine) :
    callWithin invoke (n + 1) (.type c) args m =
      (let o := Value.object (m.heap.newInstance c).1; match m.heap.lookup c "init" with
        | some (.function f) => (do let _ ← invoke f (o :: args); pure o)
        | some v => (do let _ ← callWithin invoke n v args; pure o)
        | none =>
          if args.isEmpty then pure o
          else do fail (.arity (← read fun h => (h.type c).name) 0 0 args.length))
        { m with heap := (m.heap.newInstance c).2 } := by
  have hmake : make (·.newInstance c) m =
      .ok (m.heap.newInstance c).1 { m with heap := (m.heap.newInstance c).2 } := rfl
  have hread : read (·.lookup c "init") { m with heap := (m.heap.newInstance c).2 } =
      .ok (m.heap.lookup c "init") { m with heap := (m.heap.newInstance c).2 } := by
    rw [← Heap.lookup_congr (m.heap.classes_newInstance c)]
    rfl
  rw [callWithin, bind_of_ok hmake]
  refine (bind_of_ok hread _).trans ?_
  cases m.heap.lookup c "init" with
  | none => rfl
  | some w => cases w <;> rfl

/-- A call of a class goes on to call what is in the place of the initialiser, without the instance. -/
theorem callWithin_type {c : ClassRef} {v : Value} {m : Machine}
    (hv : m.heap.initOf? (.type c) = some v) (n : Nat) (args : List Value) :
    callWithin invoke (n + 1) (.type c) args m =
      (callWithin invoke n v args >>= fun _ => pure (.object (m.heap.newInstance c).1))
        { m with heap := (m.heap.newInstance c).2 } := by
  rw [callWithin_class]
  unfold Heap.initOf? at hv
  cases hi : m.heap.lookup c "init" with
  | none => simp only [hi, reduceCtorEq] at hv
  | some w => cases w <;> simp only [hi, Option.some.injEq, reduceCtorEq] at hv <;> subst hv <;> rfl

/-- A call that follows fewer classes than it may does not notice if it may follow more. -/
theorem callWithin_more (invoke : Invoker) (i : Nat) :
    ∀ (n : Nat) (callee : Value) (args : List Value) (m : Machine), m.heap.initAfter? n callee = none →
      callWithin invoke (n + i) callee args m = callWithin invoke n callee args m
  | 0, _, _, _, hn => by cases hn
  | n + 1, callee, args, m, hn => by
    rw [Nat.add_right_comm]
    cases hv : m.heap.initOf? callee with
    | some v =>
      obtain ⟨c, rfl, -⟩ := Heap.eq_type_of_initOf? hv
      rw [Heap.initAfter?_succ hv, ← Heap.initAfter?_congr (m.heap.classes_newInstance c)] at hn
      have ih := callWithin_more invoke i n v args { m with heap := (m.heap.newInstance c).2 } hn
      rw [callWithin_type hv, callWithin_type hv]
      change EStateM.bind _ _ _ = EStateM.bind _ _ _
      unfold EStateM.bind
      rw [ih]
    | none =>
      cases callee with
      | type c =>
        rw [callWithin_class, callWithin_class]
        unfold Heap.initOf? at hv
        cases hi : m.heap.lookup c "init" with
        | none => rfl
        | some w => cases w <;> first | rfl | simp only [hi, reduceCtorEq] at hv
      | _ => rfl

/-- A call that follows classes for ever comes to no end, however many of them it may follow, and makes
nothing but instances on the way. -/
theorem callWithin_endless (invoke : Invoker) : ∀ (n : Nat) (callee : Value) (args : List Value) (m : Machine),
    m.heap.Endless callee → ∃ k, callWithin invoke n callee args m = .error .divergence { m with heap := k } ∧
      m.heap.OnlyInstances k
  | 0, _, _, m, _ => ⟨m.heap, rfl, .refl _⟩
  | n + 1, callee, args, m, he => by
    obtain ⟨v, hv⟩ := Option.isSome_iff_exists.1 (he 1)
    rw [Heap.initAfter?_one] at hv
    obtain ⟨c, rfl, -⟩ := Heap.eq_type_of_initOf? hv
    have hrest : (m.heap.newInstance c).2.Endless v := by
      refine (Heap.endless_congr (m.heap.classes_newInstance c) v).2 fun i => ?_
      rw [← Heap.initAfter?_succ hv]
      exact he (i + 1)
    obtain ⟨k, hk, hmade⟩ := callWithin_endless invoke n v args { m with heap := (m.heap.newInstance c).2 } hrest
    refine ⟨k, ?_, .newInstance hmade⟩
    rw [callWithin_type hv, bind_of_error hk]

theorem callBy_endless (invoke : Invoker) (args : List Value) (he : m.heap.Endless callee) :
    ∃ k, callBy invoke callee args m = .error .divergence { m with heap := k } ∧ m.heap.OnlyInstances k :=
  callWithin_endless invoke (m.heap.classes.size + 2) callee args m he

/-- A call of any value that ends does so as if it might follow more classes. -/
theorem callBy_within (invoke : Invoker) (he : ¬ m.heap.Endless callee) (hn : m.heap.classes.size + 2 ≤ n) :
    callBy invoke callee args m = callWithin invoke n callee args m := by
  have hcall : callBy invoke callee args m =
      callWithin invoke (m.heap.classes.size + 2) callee args m := rfl
  obtain ⟨i, rfl⟩ := Nat.exists_eq_add_of_le hn
  have hnone := Heap.initAfter?_of_not_endless he (show m.heap.classes.size < m.heap.classes.size + 2 by omega)
  rw [hcall, callWithin_more invoke i _ callee args m hnone]

end Run

end LivePatch
