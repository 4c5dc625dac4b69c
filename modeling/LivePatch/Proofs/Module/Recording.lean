/-
A journal that is kept while anything happens to the heap. Objects are recorded at any time and any number
of times, and they change before that, in between and afterwards; only the first recording of an object
counts. As no object has two records, the records do not get in each other's way: going back gives each
recorded object the state that it had at its first recording, whatever the order, and touches no other.
-/
import LivePatch.Proofs.Module.Rollback
import Mathlib.Data.List.Nodup

namespace LivePatch

namespace Journal

/-! ## What can be recorded -/

/-- What a record is of. -/
inductive Subject where
  | function (f : FunctionRef)
  | type (c : ClassRef)
  deriving DecidableEq

def Record.subject : Record → Subject
  | function f _ => .function f
  | type c _ => .type c

namespace Subject

/-- The object is on the heap. -/
def There (h : Heap) : Subject → Prop
  | function f => f.index < h.functions.size
  | type c => c.index < h.classes.size

instance (h : Heap) : (t : Subject) → Decidable (t.There h)
  | function f => inferInstanceAs (Decidable (f.index < h.functions.size))
  | type c => inferInstanceAs (Decidable (c.index < h.classes.size))

/-- The object is the same on the second heap as on the first. -/
def Same (h k : Heap) : Subject → Prop
  | function f => k.function f = h.function f
  | type c => k.type c = h.type c

/-- The record of the object as it is. -/
def record (h : Heap) : Subject → Record
  | function f => .function f (h.function f).state
  | type c => .type c (h.type c).attrs

@[simp] theorem subject_record (h : Heap) (t : Subject) : (t.record h).subject = t := by cases t <;> rfl

variable {h k l : Heap} {t : Subject}

theorem Same.refl (h : Heap) (t : Subject) : t.Same h h := by cases t <;> rfl

theorem Same.trans (a : t.Same h k) (b : t.Same k l) : t.Same h l := by
  cases t with
  | function f => exact Eq.trans b a
  | type c => exact Eq.trans b a

end Subject

/-! ## Going back -/

section Restore

variable {h k : Heap} {t : Subject}

/-- An object is the same again once its record is restored. -/
theorem same_restore_record (ht : t.There k) (hp : k.Persists h) : t.Same k ((t.record k).restore h) := by
  cases t with
  | function f => exact hp.function_restored ht
  | type c => exact hp.type_restored ht

/-- Every other object stays as it is. -/
theorem same_restore {r : Record} (hr : r.subject ≠ t) : t.Same h (r.restore h) := by
  cases r with
  | function f state =>
    cases t with
    | function g => exact h.function_modifyFunction_of_ne (fun hg => hr (congrArg _ hg.symm)) _
    | type d => exact rfl
  | type c attrs =>
    cases t with
    | function g => exact rfl
    | type d => exact h.type_modifyAttrs_of_ne (fun hd => hr (congrArg _ hd.symm)) _

theorem same_foldl_restore {rs : List Record} (hr : t ∉ rs.map Record.subject) :
    t.Same h (rs.foldl Record.restore h) := by
  induction rs generalizing h with
  | nil => exact .refl h t
  | cons r rs ih =>
    obtain ⟨hne, hrs⟩ := not_or.1 (mt List.mem_cons.2 hr)
    exact (same_restore fun he => hne he.symm).trans (ih hrs)

/-- Where no object has two records, the place of a record among the others makes no difference. -/
theorem same_foldl_restore_of_mem {rs : List Record} (hn : (rs.map Record.subject).Nodup)
    (hr : t.record k ∈ rs) (ht : t.There k) (hp : k.Persists h) : t.Same k (rs.foldl Record.restore h) := by
  induction rs generalizing h with
  | nil => cases hr
  | cons r rs ih =>
    obtain ⟨hnot, hn⟩ := List.nodup_cons.1 hn
    rcases List.mem_cons.1 hr with rfl | hr
    · rw [Subject.subject_record] at hnot
      exact (same_restore_record ht hp).trans (same_foldl_restore hnot)
    · exact ih hn hr (hp.trans (persists_restore h r))

end Restore

/-! ## Recording -/

/-- The objects that have a record. -/
def subjects (j : Journal) : List Subject := j.records.map Record.subject

/-- Records an object unless it is recorded already. -/
def record (j : Journal) (h : Heap) : Subject → Journal
  | .function f => j.recordFunction h f
  | .type c => j.recordClass h c

theorem hasFunction_iff {j : Journal} {f : FunctionRef} :
    j.hasFunction f = true ↔ .function f ∈ j.subjects := by
  rw [hasFunction, List.any_eq_true, subjects, List.mem_map]
  refine exists_congr fun r => and_congr_right fun _ => ?_
  cases r <;> simp [Record.isOfFunction, Record.subject]

theorem hasClass_iff {j : Journal} {c : ClassRef} : j.hasClass c = true ↔ .type c ∈ j.subjects := by
  rw [hasClass, List.any_eq_true, subjects, List.mem_map]
  refine exists_congr fun r => and_congr_right fun _ => ?_
  cases r <;> simp [Record.isOfClass, Record.subject]

theorem record_eq (j : Journal) (h : Heap) (t : Subject) :
    j.record h t = if t ∈ j.subjects then j else { j with records := t.record h :: j.records } := by
  cases t with
  | function f => simp only [record, recordFunction, hasFunction_iff, Subject.record]
  | type c => simp only [record, recordClass, hasClass_iff, Subject.record]

/-- An object gets at most one record. -/
theorem subjects_record (j : Journal) (h : Heap) (t : Subject) :
    (j.record h t).subjects = j.subjects.insert t := by
  rw [record_eq]
  split
  · rename_i ht
    rw [List.insert_of_mem ht]
  · rename_i ht
    rw [List.insert_of_not_mem ht, subjects, List.map_cons, Subject.subject_record]
    rfl

/-- A journal that was begun on the heap `pre` for the namespace `live` and has come to `j`, while the heap
has come to `h`. The log has all recordings, the first one first, each with the heap of its moment. Between
them anything can be written to the objects on the heap, and new ones can be made. -/
inductive Kept (pre : Heap) (live : ScopeRef) : List (Subject × Heap) → Journal → Heap → Prop
  | start (hl : live.index < pre.scopes.size) : Kept pre live [] (start pre live) pre
  | recorded {log : List (Subject × Heap)} {j : Journal} {h : Heap} (hj : Kept pre live log j h) {t : Subject}
      (ht : t.There h) : Kept pre live (log ++ [(t, h)]) (j.record h t) h
  | changed {log : List (Subject × Heap)} {j : Journal} {h k : Heap} (hj : Kept pre live log j h)
      (hp : h.Persists k) : Kept pre live log j k

namespace Kept

variable {pre h : Heap} {live : ScopeRef} {log : List (Subject × Heap)} {j : Journal}

/-- The namespace stays on the heap, and the journal keeps its first bindings. -/
theorem opening (hj : Kept pre live log j h) :
    j.scope = live ∧ j.bindings = pre.scope live ∧ live.index < h.scopes.size := by
  induction hj with
  | start hl => exact ⟨rfl, rfl, hl⟩
  | recorded _ _ ih => rw [record_eq]; split <;> exact ih
  | changed _ hp ih => exact ⟨ih.1, ih.2.1, Nat.lt_of_lt_of_le ih.2.2 hp.scopes⟩

theorem nodup_subjects (hj : Kept pre live log j h) : j.subjects.Nodup := by
  induction hj with
  | start => exact List.nodup_nil
  | recorded _ _ ih => rw [subjects_record]; exact List.Nodup.insert ih
  | changed _ _ ih => exact ih

theorem mem_subjects (hj : Kept pre live log j h) {t : Subject} :
    t ∈ j.subjects ↔ t ∈ log.map Prod.fst := by
  induction hj with
  | start => exact .rfl
  | recorded _ _ ih =>
    rw [subjects_record, List.mem_insert_iff, ih, List.map_append, List.mem_append, or_comm]
    simp only [List.map_cons, List.map_nil, List.mem_singleton]
  | changed _ _ ih => exact ih

/-- The record of an object is of its first recording. -/
theorem record_mem (hj : Kept pre live log j h) {t : Subject} {k : Heap} (hk : log.lookup t = some k) :
    t.record k ∈ j.records ∧ t.There k ∧ k.Persists h := by
  induction hj with
  | start => cases hk
  | @recorded log j h hj u hu ih =>
    rw [List.lookup_append, Option.or_eq_some_iff] at hk
    rw [record_eq]
    rcases hk with hk | ⟨hnone, hk⟩
    · obtain ⟨hr, ht, hp⟩ := ih hk
      refine ⟨?_, ht, hp⟩
      split
      · exact hr
      · exact List.mem_cons_of_mem _ hr
    · -- it is recorded now, and was not before
      obtain ⟨rfl, rfl⟩ : t = u ∧ h = k := by
        rw [List.lookup_cons] at hk
        split at hk
        · exact ⟨eq_of_beq ‹_›, Option.some.inj hk⟩
        · cases hk
      have hnew : t ∉ j.subjects := by
        rw [hj.mem_subjects, List.mem_map]
        rintro ⟨p, hp, rfl⟩
        exact absurd (List.lookup_eq_none_iff.1 hnone p hp) (by simp)
      rw [if_neg hnew]
      exact ⟨List.mem_cons_self .., hu, .refl h⟩
  | changed _ hp ih =>
    obtain ⟨hr, ht, hpk⟩ := ih hk
    exact ⟨hr, ht, hpk.trans hp⟩

/-- Going back, whatever has been recorded and changed in between: the namespace has the bindings of the
beginning, each recorded object is what it was at its first recording, and nothing else is touched. There is
one record for each object that was recorded. -/
theorem rollback_restores (hj : Kept pre live log j h) :
    (j.rollback h).scope live = pre.scope live ∧
      (∀ t k, log.lookup t = some k → t.Same k (j.rollback h)) ∧
      (∀ t, t ∉ log.map Prod.fst → t.Same h (j.rollback h)) ∧
      (∀ s, s ≠ live → (j.rollback h).scope s = h.scope s) ∧
      (j.rollback h).methods = h.methods ∧ (j.rollback h).instances = h.instances ∧
      (j.rollback h).modules = h.modules ∧
      j.subjects.Nodup ∧ ∀ t, t ∈ j.subjects ↔ t ∈ log.map Prod.fst := by
  obtain ⟨rfl, hb, hl⟩ := hj.opening
  have hrest := j.rollback_eq h
  refine ⟨(j.rollback_scope hl).trans hb, fun t k hk => ?_, fun t ht => ?_, fun s hs => ?_, by rw [hrest],
    by rw [hrest], by rw [hrest], hj.nodup_subjects, fun t => hj.mem_subjects⟩
  · obtain ⟨hr, ht, hp⟩ := hj.record_mem hk
    have hsame := same_foldl_restore_of_mem hj.nodup_subjects hr ht hp
    cases t <;> exact hsame
  · have hsame := same_foldl_restore (h := h) (mt hj.mem_subjects.1 ht)
    cases t <;> exact hsame
  · rw [hrest]
    exact h.scopes.get_modify_of_ne _ hs

end Kept

end Journal

/-! ## A function and a class -/

namespace Sample

/-- The class has changed before anything is recorded. -/
def early : Heap := plain.heap.modifyAttrs ⟨0⟩ (·.insert "v" (.int 1))

/-- The function and the class have changed. -/
def midway : Heap :=
  (early.modifyFunction ⟨0⟩ ({ · with doc := some "changed" })).modifyAttrs ⟨0⟩ (·.erase "v")

/-- The function has changed again, a new one is there, and the namespace is empty. -/
def late : Heap :=
  ((midway.modifyFunction ⟨0⟩ ({ · with defaults := [.none] })).newFunction default).2.modifyScope ⟨0⟩
    fun _ => .empty

/-- The class is recorded, and the function before and after its first change. -/
def kept : Journal :=
  (((Journal.start plain.heap ⟨0⟩).record early (.type ⟨0⟩)).record early (.function ⟨0⟩)).record midway
    (.function ⟨0⟩)

theorem kept_late : Journal.Kept plain.heap ⟨0⟩
    [(.type ⟨0⟩, early), (.function ⟨0⟩, early), (.function ⟨0⟩, midway)] kept late := by
  have hearly : plain.heap.Persists early := (plain.heap.footprint_modifyAttrs _ _).persists
  have hmidway : early.Persists midway :=
    (early.persists_modifyFunction _ _).trans (Heap.footprint_modifyAttrs _ _ _).persists
  have hlate : midway.Persists late :=
    ((midway.persists_modifyFunction _ _).trans (Heap.extends_newFunction _ _).footprint.persists).trans
      (Heap.persists_modifyScope _ _ _)
  have hstart : Journal.Kept plain.heap ⟨0⟩ [] (.start plain.heap ⟨0⟩) plain.heap := .start (by decide +kernel)
  have hclass := (hstart.changed hearly).recorded (t := .type ⟨0⟩) (by decide +kernel)
  have hfunction := hclass.recorded (t := .function ⟨0⟩) (by decide +kernel)
  exact ((hfunction.changed hmidway).recorded (t := .function ⟨0⟩) (by decide +kernel)).changed hlate

end Sample

theorem Journal.Kept.rollback_restores_twice :
    (Sample.late.scope ⟨0⟩).names = [] ∧
      ((Sample.kept.rollback Sample.late).scope ⟨0⟩).names = ["__name__", "f", "H"] ∧
      (Sample.kept.rollback Sample.late).function ⟨0⟩ = Sample.plain.heap.function ⟨0⟩ ∧
      (Sample.kept.rollback Sample.late).type ⟨0⟩ = Sample.early.type ⟨0⟩ ∧
      (Sample.kept.rollback Sample.late).function ⟨1⟩ = Sample.late.function ⟨1⟩ ∧
      Sample.kept.subjects = [.function ⟨0⟩, .type ⟨0⟩] := by
  obtain ⟨hscope, hfirst, hothers, -⟩ := Sample.kept_late.rollback_restores
  refine ⟨by decide +kernel, ?_, hfirst (.function ⟨0⟩) Sample.early rfl, hfirst (.type ⟨0⟩) Sample.early rfl,
    hothers (.function ⟨1⟩) (by decide), by decide +kernel⟩
  rw [hscope]
  decide +kernel

end LivePatch
