/-
The ancestry of classes. On a layered heap no class comes before itself, so that walking up from a class,
depth first and from left to right, ends by itself: the walk is one list of classes, on which a class stands
as often as there are ways up to it. Looking an attribute up and asking for a subclass are read off this list.
-/
import LivePatch.Proofs.Heap.Hierarchy
import Mathlib.Logic.Relation
import Mathlib.Order.WellFounded

namespace LivePatch

open Relation (ReflTransGen TransGen)

/-- A question to every element does not change when every element gives the same answer. -/
theorem any_congr_of_mem {α : Type} {p q : α → Bool} {as : List α} (h : ∀ a ∈ as, p a = q a) :
    as.any p = as.any q := by
  rw [Bool.eq_iff_iff, List.any_eq_true, List.any_eq_true]
  exact exists_congr fun a => and_congr_right fun ha => by rw [h a ha]

namespace Heap

/-- The second class is a base of the first. -/
def Base (h : Heap) (c b : ClassRef) : Prop := b ∈ (h.type c).bases

/-- Walking up from some classes, one behind the other, meets the classes of the second list in this order:
a class is met before its bases, and its bases before what is left. Nothing bounds the walk. -/
inductive Walk (h : Heap) : List ClassRef → List ClassRef → Prop
  | done : Walk h [] []
  | visit {c : ClassRef} {cs met : List ClassRef} (hw : Walk h ((h.type c).bases ++ cs) met) :
      Walk h (c :: cs) (c :: met)

variable {h : Heap}

namespace Walk

theorem append {cs ds met met' : List ClassRef} (hc : h.Walk cs met) (hd : h.Walk ds met') :
    h.Walk (cs ++ ds) (met ++ met') := by
  induction hc with
  | done => exact hd
  | visit _ ih =>
    rw [List.append_assoc] at ih
    exact .visit ih

theorem unique {cs met met' : List ClassRef} (hw : h.Walk cs met) (hw' : h.Walk cs met') : met = met' := by
  induction hw generalizing met' with
  | done =>
    cases hw'
    rfl
  | visit _ ih =>
    cases hw' with
    | visit hw' => rw [ih hw']

/-- A walk meets the classes it starts from and all that are above them. -/
theorem mem_iff {cs met : List ClassRef} (hw : h.Walk cs met) {b : ClassRef} :
    b ∈ met ↔ ∃ c ∈ cs, ReflTransGen h.Base c b := by
  induction hw with
  | done => simp
  | @visit c cs met _ ih =>
    rw [List.mem_cons, ih]
    constructor
    · rintro (rfl | ⟨d, hd, hb⟩)
      · exact ⟨b, List.mem_cons_self .., .refl⟩
      · rcases List.mem_append.1 hd with hd | hd
        · exact ⟨c, List.mem_cons_self .., .head hd hb⟩
        · exact ⟨d, List.mem_cons_of_mem _ hd, hb⟩
    · rintro ⟨d, hd, hb⟩
      rcases List.mem_cons.1 hd with rfl | hd
      · rcases hb.cases_head with rfl | ⟨e, he, hb⟩
        · exact .inl rfl
        · exact .inr ⟨e, List.mem_append_left _ he, hb⟩
      · exact .inr ⟨d, List.mem_append_right _ hd, hb⟩

end Walk

/-! ## Walks on layered heaps -/

namespace Layered

theorem index_lt (hl : h.Layered) {c b : ClassRef} (hb : TransGen h.Base c b) : b.index < c.index := by
  induction hb with
  | single hb => exact hl _ _ hb
  | tail _ hb ih => exact Nat.lt_trans (hl _ _ hb) ih

theorem wellFounded (hl : h.Layered) : WellFounded fun b c => h.Base c b :=
  Subrelation.wf (fun {b c} hb => hl c b hb) (measure fun c : ClassRef => c.index).wf

/-- By induction on the classes above one another: the walk up from the bases follows the class. -/
theorem walk_exists (hl : h.Layered) (c : ClassRef) : ∃ met, h.Walk [c] met := by
  induction c using hl.wellFounded.induction with
  | _ c ih =>
    have hall : ∀ cs : List ClassRef, (∀ b ∈ cs, ∃ met, h.Walk [b] met) → ∃ met, h.Walk cs met := by
      intro cs hcs
      induction cs with
      | nil => exact ⟨[], .done⟩
      | cons b cs ihs =>
        obtain ⟨met, hw⟩ := hcs b (List.mem_cons_self ..)
        obtain ⟨met', hw'⟩ := ihs fun d hd => hcs d (List.mem_cons_of_mem _ hd)
        exact ⟨met ++ met', hw.append hw'⟩
    obtain ⟨met, hw⟩ := hall (h.type c).bases fun b hb => ih b hb
    refine ⟨c :: met, .visit ?_⟩
    rwa [List.append_nil]

/-- An attribute is the one that the first class of a walk has that has one. -/
theorem lookup_walk (hl : h.Layered) (x : Name) {cs met : List ClassRef} (hw : h.Walk cs met) :
    cs.findSome? (h.lookup · x) = met.findSome? fun d => (h.type d).attrs.get? x := by
  induction hw with
  | done => rfl
  | @visit c cs met _ ih =>
    rw [List.findSome?_append] at ih
    rw [List.findSome?_cons, List.findSome?_cons, hl.lookup_eq]
    cases hx : (h.type c).attrs.get? x with
    | some v => rfl
    | none =>
      rw [Option.none_or, ← ih]
      cases (h.type c).bases.findSome? (h.lookup · x) <;> rfl

/-- How far the search for a class may go does not matter once it may go far enough. -/
theorem descendsWithin_eq (hl : h.Layered) (other : ClassRef) : ∀ (n n' : Nat) (c : ClassRef),
    c.index < n → c.index < n' → h.descendsWithin other n c = h.descendsWithin other n' c
  | 0, _, _, hn, _ => absurd hn (Nat.not_lt_zero _)
  | _ + 1, 0, _, _, hn' => absurd hn' (Nat.not_lt_zero _)
  | n + 1, n' + 1, c, hn, hn' => by
    unfold descendsWithin
    refine congrArg (_ || ·) (any_congr_of_mem fun b hb => ?_)
    have hlt := hl c b hb
    exact hl.descendsWithin_eq other n n' b (by omega) (by omega)

/-- A class is another one, or one of its bases inherits from it. -/
theorem isSubclass_eq (hl : h.Layered) (c other : ClassRef) :
    h.isSubclass c other = (c = other || (h.type c).bases.any (h.isSubclass · other)) := by
  have hbases : (h.type c).bases.any (h.descendsWithin other c.index) =
      (h.type c).bases.any (h.isSubclass · other) :=
    any_congr_of_mem fun b hb => hl.descendsWithin_eq other _ _ b (hl c b hb) (Nat.lt_succ_self _)
  rw [← hbases]
  rfl

theorem isSubclass_iff (hl : h.Layered) (c other : ClassRef) :
    h.isSubclass c other = true ↔ ReflTransGen h.Base c other := by
  induction c using hl.wellFounded.induction with
  | _ c ih =>
    rw [hl.isSubclass_eq, Bool.or_eq_true, decide_eq_true_eq, List.any_eq_true]
    constructor
    · rintro (rfl | ⟨b, hb, hs⟩)
      · exact .refl
      · exact .head hb ((ih b hb).1 hs)
    · intro hc
      rcases hc.cases_head with rfl | ⟨b, hb, hs⟩
      · exact .inl rfl
      · exact .inr ⟨b, hb, (ih b hb).2 hs⟩

end Layered

/-! ## Class hierarchies -/

/-- What the classes of a heap are to each other, and what can be found out about it. -/
structure Ancestry (h : Heap) : Prop where
  /-- No class is above itself. -/
  acyclic : ∀ c, ¬ TransGen h.Base c c
  /-- No way up goes on for ever, so that whatever goes from a class to its bases comes to an end. -/
  wellFounded : WellFounded fun b c => h.Base c b
  /-- Walking up from a class ends, and meets it and the classes above it. -/
  walk : ∀ c, ∃! met, h.Walk [c] met
  met : ∀ c met, h.Walk [c] met → ∀ b, b ∈ met ↔ ReflTransGen h.Base c b
  /-- Looking up an attribute asks the class and then its bases in turn, with no bound on how far. -/
  lookup_eq : ∀ c x, h.lookup c x = ((h.type c).attrs.get? x).or ((h.type c).bases.findSome? (h.lookup · x))
  /-- What is found is what the first class of the walk has that has an attribute of this name. -/
  lookup : ∀ c met x, h.Walk [c] met → h.lookup c x = met.findSome? fun d => (h.type d).attrs.get? x
  /-- Asking for a subclass compares the class and then asks its bases in turn, with no bound on how far. -/
  isSubclass_eq : ∀ c b, h.isSubclass c b = (c = b || (h.type c).bases.any (h.isSubclass · b))
  isSubclass : ∀ c b, h.isSubclass c b = true ↔ b = c ∨ TransGen h.Base c b
  refl : ∀ c, h.isSubclass c c = true
  trans : ∀ {c b a}, h.isSubclass c b = true → h.isSubclass b a = true → h.isSubclass c a = true
  /-- An instance is one of the subclasses of its class, and nothing else is an instance of a class. -/
  isinstance : ∀ depth v b, Builtin.isinstance.apply [v, .type b] ⟨h, depth⟩ =
    .ok (.bool (match v with | .object o => h.isSubclass (h.object o).type b | _ => false)) ⟨h, depth⟩

theorem Layered.ancestry (hl : h.Layered) : h.Ancestry where
  acyclic _ hc := Nat.lt_irrefl _ (hl.index_lt hc)
  wellFounded := hl.wellFounded
  walk c :=
    have ⟨met, hw⟩ := hl.walk_exists c
    ⟨met, hw, fun _ hw' => hw'.unique hw⟩
  met c met hw b := by simp [hw.mem_iff]
  lookup_eq := hl.lookup_eq
  lookup c met x hw := by
    rw [← hl.lookup_walk x hw, List.findSome?_cons]
    cases h.lookup c x <;> rfl
  isSubclass_eq := hl.isSubclass_eq
  isSubclass c b := (hl.isSubclass_iff c b).trans Relation.reflTransGen_iff_eq_or_transGen
  refl c := (hl.isSubclass_iff c c).2 .refl
  trans hcb hba := (hl.isSubclass_iff _ _).2 (((hl.isSubclass_iff _ _).1 hcb).trans ((hl.isSubclass_iff _ _).1 hba))
  isinstance depth v b := by cases v <;> rfl

end Heap

end LivePatch
