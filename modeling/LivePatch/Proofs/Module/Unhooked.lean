/-
A merge that succeeds and calls no hook, seen from its end. Every shared name has had its turn, so that
what has been taken over can be read off the pairs that all shared names make; and a name whose old
object can be updated in place is still bound to it.
-/
import LivePatch.Proofs.Module.Takeover

namespace LivePatch

namespace Merge

variable {limit : Nat} {u : CodeUnit} {module : ModuleRef} {m m₁ m' : Machine} {s : Summary}

theorem Executed.merged_persists (he : Executed limit u module m m₁) (hm : m.heap.HasModule module)
    (h : merge limit u module m = .ok s m') : m₁.heap.Persists m'.heap := by
  obtain ⟨m₂, a, he₂, hp, -, rfl⟩ := Merge.succeeds h
  cases he.symm.trans he₂
  exact (he.reaches hm hp).1

/-- Every shared name has been dealt with. -/
theorem Executed.taken (he : Executed limit u module m m₁) (hm : m.heap.HasModule module)
    (hc : m.heap.Closed) (h : merge limit u module m = .ok s m')
    (hh : ∀ hook old k, ¬ CallsHook limit u module m hook old k) :
    ∃ j, Taking m.heap m₁.heap (m.heap.bindings module) (m₁.heap.scope m.heap.newScope.1)
      (sharedNames module m m₁) ⟨j, m'.heap⟩ := by
  obtain ⟨m₂, a, he₂, hp, -, rfl⟩ := Merge.succeeds h
  cases he.symm.trans he₂
  refine ⟨a.journal, he.taking hm hc ?_ (List.append_nil _).symm hp⟩
  intro done x todo b _ hturn _ _ old hook k ha
  exact hh hook old k ⟨_, _, hturn, ha⟩

theorem Executed.mem_sharedNames (he : Executed limit u module m m₁) (hm : m.heap.HasModule module)
    {x : Name} {v w : Value} (hv : (m.heap.bindings module).get? x = some v)
    (hw : (m₁.heap.scope m.heap.newScope.1).get? x = some w) : x ∈ sharedNames module m m₁ := by
  rw [he.sharedNames_eq hm]
  refine NameDiff.mem_shared.2 ⟨?_, ?_⟩
  · rw [Bindings.mem_names_iff, hv]
    rfl
  · rw [Bindings.mem_names_iff, hw]
    rfl

/-- A name is bound afterwards to its old value, which is then one to update or the only one, or to its new
one. -/
theorem Executed.bound_after (he : Executed limit u module m m₁) (hm : m.heap.HasModule module)
    (h : merge limit u module m = .ok s m')
    (hh : ∀ hook old k, ¬ CallsHook limit u module m hook old k) {x : Name} {v : Value}
    (hv : (m'.heap.bindings module).get? x = some v) :
    ((m.heap.bindings module).get? x = some v ∧
        ∀ w, (m₁.heap.scope m.heap.newScope.1).get? x = some w → v.kind = w.kind ∧ v.Patchable) ∨
      (m₁.heap.scope m.heap.newScope.1).get? x = some v := by
  have hmerged := he.merged hm h
  have hx := ((m'.heap.bindings module).mem_names_iff x).2 (Option.isSome_of_eq_some hv)
  rw [hmerged.names, List.mem_append, List.mem_filter, decide_eq_true_eq] at hx
  rcases hx with ⟨ho, hr⟩ | ha
  · cases hnew : (m₁.heap.scope m.heap.newScope.1).get? x with
    | some w =>
      have hn := ((m₁.heap.scope m.heap.newScope.1).mem_names_iff x).2 (Option.isSome_of_eq_some hnew)
      obtain ⟨old, hold⟩ := Option.isSome_iff_exists.1 (((m.heap.bindings module).mem_names_iff x).1 ho)
      obtain ⟨hkeep, htake⟩ := he.settled hm hh (hmerged.shared x ho hn) hold hnew
      by_cases hk : old.kind = w.kind ∧ old.Patchable
      · cases (hkeep hk).symm.trans hv
        exact .inl ⟨hold, fun _ hw => by cases hw; exact hk⟩
      · exact .inr ((htake hk).symm.trans hv)
    | none =>
      have hn : x ∉ (m₁.heap.scope m.heap.newScope.1).names := by
        rw [Bindings.mem_names_iff, hnew]
        exact Bool.false_ne_true
      exact .inl ⟨(hmerged.kept x ho hn hr).symm.trans hv, nofun⟩
  · exact .inr ((hmerged.bound x ha).symm.trans hv)

/-- A name with an old and a new value of one kind keeps the old one if its object can be updated. -/
theorem Executed.still_bound (he : Executed limit u module m m₁) (hm : m.heap.HasModule module)
    (h : merge limit u module m = .ok s m')
    (hh : ∀ hook old k, ¬ CallsHook limit u module m hook old k) {x : Name} {v w : Value}
    (hv : (m.heap.bindings module).get? x = some v)
    (hw : (m₁.heap.scope m.heap.newScope.1).get? x = some w) (hk : v.kind = w.kind)
    (hp : v.Patchable) : (m'.heap.bindings module).get? x = some v := by
  obtain ⟨m₂, a, he₂, hreach, rfl, rfl⟩ := Merge.succeeds h
  cases he.symm.trans he₂
  have hprog := he.progress hm (List.append_nil _).symm hreach
  have hlater := he.persists.trans (he.reaches hm hreach).1
  have hscope : a.machine.heap.bindings module = a.machine.heap.scope (m.heap.module module).scope :=
    congrArg a.machine.heap.scope (hlater.scope_module hm.module_lt)
  rw [hscope]
  exact (he.treated hm hh (hprog.treats x (he.mem_sharedNames hm hv hw)) hv hw hk).1 hp

end Merge

end LivePatch
