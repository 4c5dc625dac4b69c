/-
The difference between two lists of names, whatever repetitions they have. Each part of it picks names
from one of the lists, and nothing but such picks is the difference. Between lists without repetitions it
is a way from the one to the other: what it takes from the old names and adds to them makes the new ones,
up to the names that are exempt.
-/
import LivePatch.Module.NameDiff
import Mathlib.Data.List.Lattice
import Mathlib.Data.List.Nodup

namespace LivePatch

namespace NameDiff

/-- `ys` are the names in `xs` with `p`: in the same order, each as often as there, and no others. -/
structure Picks (p : Name → Prop) (xs ys : List Name) : Prop where
  order : ys.Sublist xs
  all : ∀ x, p x → ys.count x = xs.count x
  only : ∀ x ∈ ys, p x

/-- There is one way to pick. -/
theorem picks_iff {p : Name → Prop} [DecidablePred p] {xs ys : List Name} :
    Picks p xs ys ↔ xs.filter (p ·) = ys := by
  constructor
  · intro h
    have hsub : ys.Sublist (xs.filter (p ·)) := by
      rw [← List.filter_eq_self.2 fun x hx => decide_eq_true (h.only x hx)]
      exact h.order.filter _
    have hperm : ys.Perm (xs.filter (p ·)) := by
      refine List.perm_iff_count.2 fun x => ?_
      by_cases hx : p x
      · have hfilter : (xs.filter (p ·)).count x = xs.count x := List.count_filter (decide_eq_true hx)
        rw [h.all x hx, hfilter]
      · have hys : x ∉ ys := fun hm => hx (h.only x hm)
        have hfilter : x ∉ xs.filter (p ·) := fun hm => hx (of_decide_eq_true (List.mem_filter.1 hm).2)
        rw [List.count_eq_zero.2 hys, List.count_eq_zero.2 hfilter]
    exact (hsub.eq_of_length hperm.length_eq).symm
  · rintro rfl
    exact ⟨List.filter_sublist, fun x hx => List.count_filter (decide_eq_true hx),
      fun x hx => of_decide_eq_true (List.mem_filter.1 hx).2⟩

variable {old new : List Name}

theorem between_eq_iff (old new exempt : List Name) (d : NameDiff) :
    between old new exempt = d ↔
      Picks (· ∉ old) new d.added ∧ Picks (· ∈ new) old d.shared ∧
        Picks (fun x => x ∉ new ∧ x ∉ exempt) old d.removed := by
  obtain ⟨added, removed, shared⟩ := d
  rw [picks_iff, picks_iff, picks_iff]
  simp [between, and_comm, Bool.decide_and]

/-! ## Lists without repetitions -/

/-- Every new name was added or has stayed. -/
theorem added_append_shared_perm (ho : old.Nodup) (hn : new.Nodup) (exempt : List Name) :
    ((between old new exempt).added ++ (between old new exempt).shared).Perm new := by
  have hnodup : ((between old new exempt).added ++ (between old new exempt).shared).Nodup := by
    refine List.nodup_append.2 ⟨hn.filter _, ho.filter _, ?_⟩
    rintro x hx y hy rfl
    exact (mem_added.1 hx).2 (mem_shared.1 hy).1
  refine (List.perm_ext_iff_of_nodup hnodup hn).2 fun x => ?_
  rw [List.mem_append, mem_added, mem_shared]
  tauto

/-- The old names without the removed ones, followed by the added ones. -/
theorem diff_removed_append_added_perm (ho : old.Nodup) (hn : new.Nodup) (exempt : List Name) :
    (old.diff (between old new exempt).removed ++ (between old new exempt).added).Perm
      (new ∪ old.filter (· ∈ exempt)) := by
  have hnodup : (old.diff (between old new exempt).removed ++ (between old new exempt).added).Nodup := by
    refine List.nodup_append.2 ⟨ho.diff, hn.filter _, ?_⟩
    rintro x hx y hy rfl
    exact (mem_added.1 hy).2 (ho.mem_sdiff_iff.1 hx).1
  refine (List.perm_ext_iff_of_nodup hnodup ((ho.filter _).union _)).2 fun x => ?_
  rw [List.mem_append, ho.mem_sdiff_iff, mem_removed, mem_added, List.mem_union_iff, List.mem_filter,
    decide_eq_true_iff]
  tauto

/-- The difference is what its three parts are to pick, and no other is. When neither list has
repetitions, what was added and what has stayed are together as many as the new names, and the old names
without the removed ones and with the added ones are the new names and those old ones that are exempt. -/
theorem between_exact (old new exempt : List Name) :
    (∀ d, between old new exempt = d ↔
      Picks (· ∉ old) new d.added ∧ Picks (· ∈ new) old d.shared ∧
        Picks (fun x => x ∉ new ∧ x ∉ exempt) old d.removed) ∧
    (old.Nodup → new.Nodup →
      (between old new exempt).added.length + (between old new exempt).shared.length = new.length ∧
      (old.diff (between old new exempt).removed ++ (between old new exempt).added).Perm
        (new ∪ old.filter (· ∈ exempt))) := by
  refine ⟨between_eq_iff old new exempt, fun ho hn => ⟨?_, diff_removed_append_added_perm ho hn exempt⟩⟩
  rw [← List.length_append]
  exact (added_append_shared_perm ho hn exempt).length_eq

/-- A name that is removed, one that is exempt, and two that stay in their old order. -/
theorem between_exact_exempt :
    between ["__name__", "a", "b", "c"] ["d", "c", "a"] ["__name__"] = ⟨["d"], ["b"], ["a", "c"]⟩ ∧
      ["d"].length + ["a", "c"].length = ["d", "c", "a"].length ∧
      (["__name__", "a", "b", "c"].diff ["b"] ++ ["d"]).Perm ["d", "c", "a", "__name__"] := by
  obtain ⟨-, hnodup⟩ := between_exact ["__name__", "a", "b", "c"] ["d", "c", "a"] ["__name__"]
  obtain ⟨hlength, hperm⟩ := hnodup (by decide) (by decide)
  exact ⟨by decide, hlength, hperm⟩

/-- Names that are listed twice are reported twice. -/
example : between ["a", "b", "a"] ["b", "c", "c"] [] = ⟨["c", "c"], ["a", "a"], ["b"]⟩ := by decide

end NameDiff

end LivePatch
