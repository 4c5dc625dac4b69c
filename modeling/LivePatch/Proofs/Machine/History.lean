/-
What was there before makes no difference to a unit. Run in an empty namespace of its own, it does the same
on every heap: it fails with the same error, or it runs to its end and makes the same objects, up to a
one-to-one correspondence between what it has made on the one heap and on the other. If it has no end on the one
heap it has none on the other, and it is a call of corresponding values that goes on for ever on both.
-/
import LivePatch.Proofs.Heap.Correspondence
import LivePatch.Proofs.Machine.Lockstep

namespace LivePatch

/-! ## Twins that start alike -/

namespace Twins

/-- A unit in an empty namespace on one heap, and in one on another heap. -/
def again (h k : Heap) (u : CodeUnit) : Twins where
  left := h.newScope.2
  right := k.newScope.2
  leftScope := h.newScope.1
  rightScope := k.newScope.1
  given := .empty
  reads := u.reads
  notBuiltin _ hx := by cases hx

theorem again_start (h k : Heap) (u : CodeUnit) (d : Nat) :
    (again h k u).Machines d ⟨h.newScope.2, d⟩ ⟨k.newScope.2, d⟩ := by
  refine ⟨.start ?_ ?_ (Arena.get_push_next _ _) (Arena.get_push_next _ _), rfl, rfl⟩
  · show h.scopes.size < (h.scopes.push _).size
    rw [Arena.size_push]
    exact Nat.lt_succ_self _
  · show k.scopes.size < (k.scopes.push _).size
    rw [Arena.size_push]
    exact Nat.lt_succ_self _

variable {T : Twins} {h k : Heap}

namespace Heaps

/-- What twins have made corresponds by its number. -/
def correspondence (hh : T.Heaps h k) : Correspondence T.left h T.right k where
  functions := Ref.Made.shift hh.functions.size
  methods := Ref.Made.shift hh.methods.size
  classes := Ref.Made.shift hh.classes.size
  instances := Ref.Made.shift hh.instances.size

end Heaps

theorem Val.corresponds (hh : T.Heaps h k) {v w : Value} (hv : T.Val h v w) : hh.correspondence.Val v w := by
  cases hv with
  | scalar hs => exact .scalar hs
  | @function f g hp =>
    rw [hp.eq_shift hh.functions.size]
    exact .function ⟨f, hp.since, hp.below⟩
  | @method r s hp =>
    rw [hp.eq_shift hh.methods.size]
    exact .method ⟨r, hp.since, hp.below⟩
  | @type c d hp =>
    rw [hp.eq_shift hh.classes.size]
    exact .type ⟨c, hp.since, hp.below⟩
  | @object o p hp =>
    rw [hp.eq_shift hh.instances.size]
    exact .object ⟨o, hp.since, hp.below⟩

/-- Twins that started alike match. -/
theorem Heaps.matches (hh : T.Heaps h k) (hgiven : T.given = .empty) :
    hh.correspondence.Matches T.leftScope T.rightScope := by
  have hval : ∀ v w, T.Val h v w → hh.correspondence.Val v w := fun _ _ hv => hv.corresponds hh
  have hscope := hh.scope
  rw [hgiven] at hscope
  constructor
  · exact hscope.related hval
  · intro f
    have ho := hh.functions.get (Ref.Made.pair hh.functions.size f)
    exact ⟨ho.name, ho.module, ⟨ho.leftGlobals, ho.rightGlobals⟩, ho.doc, ho.code, ho.attrs.related hval,
      ho.defaults.imp hval⟩
  · exact fun r => hval _ _ (hh.methods.get (Ref.Made.pair hh.methods.size r)).receiver
  · exact fun r => hval _ _ (hh.methods.get (Ref.Made.pair hh.methods.size r)).function
  · intro c
    have ho := hh.classes.get (Ref.Made.pair hh.classes.size c)
    exact ⟨ho.name, ho.bases.imp fun _ _ => hval _ _, ho.attrs.related hval⟩
  · exact fun o => hval _ _ (hh.instances.get (Ref.Made.pair hh.instances.size o)).type
  · exact fun o => (hh.instances.get (Ref.Made.pair hh.instances.size o)).fields.related hval

end Twins

/-! ## Two runs of a unit -/

/-- A unit that runs to its end in one empty namespace does so in another, and the heaps are twins; where it fails
in the one, it fails with the same error in the other; and where it has no end in the one, it has none in the
other. -/
theorem CodeUnit.run_again (limit : Nat) (u : CodeUnit) (module : Name) (h k : Heap) (d : Nat) :
    (∃ m n, u.run limit h.newScope.1 module ⟨h.newScope.2, d⟩ = .ok () m ∧
        u.run limit k.newScope.1 module ⟨k.newScope.2, d⟩ = .ok () n ∧
        (Twins.again h k u).Heaps m.heap n.heap) ∨
      (∃ e m n, u.run limit h.newScope.1 module ⟨h.newScope.2, d⟩ = .error (.failure e) m ∧
        u.run limit k.newScope.1 module ⟨k.newScope.2, d⟩ = .error (.failure e) n) ∨
      ∃ m n, u.run limit h.newScope.1 module ⟨h.newScope.2, d⟩ = .error .divergence m ∧
        u.run limit k.newScope.1 module ⟨k.newScope.2, d⟩ = .error .divergence n ∧
        (Twins.again h k u).BothEndless m n := by
  have hl := u.run_lockstep (T := .again h k u) (Twins.again_start h k u d) limit (List.Subset.refl _) module
  unfold Run.Lockstep at hl
  generalize hr : u.run limit (Twins.again h k u).leftScope module _ = r at hl
  generalize hs : u.run limit (Twins.again h k u).rightScope module _ = s at hl
  cases hl with
  | value ht => exact .inl ⟨_, _, hr, hs, ht.heaps⟩
  | failure => exact .inr (.inl ⟨_, _, _, hr, hs⟩)
  | endless he => exact .inr (.inr ⟨_, _, hr, hs, he⟩)
  | lacks he =>
    -- neither namespace has a name to begin with
    obtain ⟨x, hx, -⟩ := he
    cases hx

/-- The same outcome of two runs, in the namespace `s` from the heap `pre` and in the namespace `t` from the
heap `pre'`: two ends with what the runs have made matching one-to-one, the same error twice, or no end in
either of them. For the last one they have come to call a value each, on heaps that match and where the values
correspond, and to call it goes on from one `init` to the next for ever, making instances and doing nothing else. -/
inductive Run.SameOutcome (pre pre' : Heap) (s t : ScopeRef) :
    EStateM.Result (Halt RunError) Machine Unit → EStateM.Result (Halt RunError) Machine Unit → Prop
  | success {m n : Machine} (σ : Correspondence pre m.heap pre' n.heap) (hσ : σ.Matches s t) :
      SameOutcome pre pre' s t (.ok () m) (.ok () n)
  | failure {e : RunError} {m n : Machine} :
      SameOutcome pre pre' s t (.error (.failure e) m) (.error (.failure e) n)
  | endless {h k : Heap} (σ : Correspondence pre h pre' k) (hσ : σ.Matches s t) {v w : Value} (hv : σ.Val v w)
      (hl : h.Endless v) (hr : k.Endless w) {m n : Machine} (hm : h.OnlyInstances m.heap)
      (hn : k.OnlyInstances n.heap) : SameOutcome pre pre' s t (.error .divergence m) (.error .divergence n)

/-- A unit that runs in an empty namespace of its own has the same outcome on every heap. -/
theorem CodeUnit.run_ignores_history (limit : Nat) (u : CodeUnit) (module : Name) (h k : Heap) (d : Nat) :
    Run.SameOutcome h.newScope.2 k.newScope.2 h.newScope.1 k.newScope.1
      (u.run limit h.newScope.1 module ⟨h.newScope.2, d⟩)
      (u.run limit k.newScope.1 module ⟨k.newScope.2, d⟩) := by
  rcases u.run_again limit module h k d with ⟨m, n, hm, hn, hh⟩ | ⟨e, m, n, hm, hn⟩ | ⟨m, n, hm, hn, he⟩
  · rw [hm, hn]
    exact .success hh.correspondence (hh.matches rfl)
  · rw [hm, hn]
    exact .failure
  · rw [hm, hn]
    cases he with
    | called hh hv hl hr hm hn =>
      exact .endless hh.correspondence (hh.matches rfl) (hv.corresponds hh) hl hr hm hn

end LivePatch
