/-
Twins: what was made by two runs of one tree. The runs make the same objects in the same order, so that an
object of the one corresponds to the object of the other that has the same number, counted from where the
run started. Here is what that means for bindings and for arenas.
-/
import Mathlib.Data.List.Forall2
import LivePatch.Heap.Arena
import LivePatch.Bindings

namespace LivePatch

/-! ## Related lists and options -/

theorem findSome?_of_forall₂ {α β γ δ : Type} {R : α → β → Prop} {S : γ → δ → Prop}
    {f : α → Option γ} {g : β → Option δ} {as : List α} {bs : List β} (h : List.Forall₂ R as bs)
    (hfg : ∀ a ∈ as, ∀ b, R a b → Option.Rel S (f a) (g b)) :
    Option.Rel S (as.findSome? f) (bs.findSome? g) := by
  induction h with
  | nil => exact .none
  | @cons a b as bs hab _ ih =>
    rw [List.findSome?_cons, List.findSome?_cons]
    have h := hfg a (List.mem_cons_self ..) b hab
    cases hf : f a <;> cases hg : g b <;> rw [hf, hg] at h <;> cases h
    · exact ih fun a ha => hfg a (List.mem_cons_of_mem _ ha)
    · exact .some ‹_›

/-- One of two searches comes first, and is followed by the other. -/
theorem rel_or {α : Type} {R : α → α → Prop} {a b a' b' : Option α} (ha : Option.Rel R a b)
    (hb : Option.Rel R a' b') : Option.Rel R (a.or a') (b.or b') := by
  cases ha with
  | none => exact hb
  | some hab => exact .some hab

theorem any_of_forall₂ {α β : Type} {R : α → β → Prop} {p : α → Bool} {q : β → Bool} {as : List α}
    {bs : List β} (h : List.Forall₂ R as bs) (hpq : ∀ a ∈ as, ∀ b, R a b → p a = q b) :
    as.any p = bs.any q := by
  induction h with
  | nil => rfl
  | @cons a b as bs hab _ ih =>
    rw [List.any_cons, List.any_cons, hpq a (List.mem_cons_self ..) b hab,
      ih fun a ha => hpq a (List.mem_cons_of_mem _ ha)]

theorem isSome_of_rel {α β : Type} {R : α → β → Prop} {a : Option α} {b : Option β}
    (h : Option.Rel R a b) : a.isSome = b.isSome := by
  cases h <;> rfl

theorem map_of_rel {α β γ δ : Type} {R : α → β → Prop} {S : γ → δ → Prop} {f : α → γ} {g : β → δ}
    {a : Option α} {b : Option β} (h : Option.Rel R a b) (hfg : ∀ x y, R x y → S (f x) (g y)) :
    Option.Rel S (a.map f) (b.map g) := by
  cases h with
  | none => exact .none
  | some h => exact .some (hfg _ _ h)

/-! ## Bindings -/

namespace Bindings

variable {α : Type}

/-- Bindings of the same names in the same order to corresponding values, except that on the left there
may be some names more, which come first and of which those that the right has not bound are as they
were given. -/
structure Alike (given : Bindings α) (R : α → α → Prop) (b c : Bindings α) : Prop where
  names : b.names = given.names ++ c.names.filter (· ∉ given.names)
  bound : ∀ {x w}, c.get? x = some w → ∃ v, b.get? x = some v ∧ R v w
  unbound : ∀ {x}, c.get? x = none → b.get? x = given.get? x

namespace Alike

variable {given b c : Bindings α} {R S : α → α → Prop}

theorem imp (h : Alike given R b c) (hRS : ∀ v w, R v w → S v w) : Alike given S b c where
  names := h.names
  bound hx := (h.bound hx).imp fun v hv => ⟨hv.1, hRS v _ hv.2⟩
  unbound := h.unbound

theorem start (given : Bindings α) : Alike given R given .empty where
  names := by simp [Bindings.empty, Bindings.names]
  bound hx := by cases hx
  unbound _ := rfl

theorem mem_names_iff (h : Alike given R b c) (x : Name) : x ∈ b.names ↔ x ∈ given.names ∨ x ∈ c.names := by
  rw [h.names, List.mem_append, List.mem_filter, decide_eq_true_eq]
  by_cases hx : x ∈ given.names <;> simp [hx]

theorem insert (h : Alike given R b c) (x : Name) {v w : α} (hv : R v w) :
    Alike given R (b.insert x v) (c.insert x w) where
  names := by
    rw [names_insert, names_insert, h.names]
    by_cases hc : x ∈ c.names <;> by_cases hg : x ∈ given.names <;> simp [hc, hg]
  bound {y u} hy := by
    rw [get?_insert] at hy ⊢
    by_cases hyx : y = x
    · rw [if_pos hyx] at hy ⊢
      cases hy
      exact ⟨v, rfl, hv⟩
    · rw [if_neg hyx] at hy ⊢
      exact h.bound hy
  unbound {y} hy := by
    rw [get?_insert] at hy ⊢
    by_cases hyx : y = x
    · rw [if_pos hyx] at hy
      cases hy
    · rw [if_neg hyx] at hy ⊢
      exact h.unbound hy

/-- Where neither side has more than the other, the same is found. -/
theorem rel (h : Alike .empty R b c) (x : Name) : Option.Rel R (b.get? x) (c.get? x) := by
  cases hc : c.get? x with
  | some w =>
    obtain ⟨v, hb, hv⟩ := h.bound hc
    rw [hb]
    exact .some hv
  | none =>
    rw [h.unbound hc]
    exact .none

end Alike

end Bindings

/-! ## Arenas -/

/-- The two references have the same number, counted from `m` and from `n`, and the first is below `k`. -/
structure Ref.Pair {κ : ObjectKind} (m n k : Nat) (r s : Ref κ) : Prop where
  since : m ≤ r.index
  below : r.index < k
  number : r.index + n = s.index + m

namespace Ref.Pair

variable {κ : ObjectKind} {m n k l : Nat} {r s r' s' : Ref κ}

theorem later (h : Ref.Pair m n k r s) (hkl : k ≤ l) : Ref.Pair m n l r s :=
  { h with below := Nat.lt_of_lt_of_le h.below hkl }

theorem eq_iff (h : Ref.Pair m n k r s) (h' : Ref.Pair m n k r' s') : r = r' ↔ s = s' := by
  have hn := h.number
  have hn' := h'.number
  obtain ⟨i⟩ := r
  obtain ⟨j⟩ := s
  obtain ⟨i'⟩ := r'
  obtain ⟨j'⟩ := s'
  simp only [Ref.mk.injEq] at hn hn' ⊢
  omega

end Ref.Pair

namespace Arena

variable {κ : ObjectKind} {α : Type} [Inhabited α]

/-- Two arenas to which as many objects were added since they had `m` and `n` of them, each related to
the one of the same number. -/
structure Twin (m n : Nat) (P : Ref κ → α → α → Prop) (a b : Arena κ α) : Prop where
  since : m ≤ a.size
  size : a.size + n = b.size + m
  get : ∀ {r s}, Ref.Pair m n a.size r s → P r (a.get r) (b.get s)

namespace Twin

variable {m n : Nat} {P Q : Ref κ → α → α → Prop} {a b : Arena κ α} {r s : Ref κ}

theorem start (a b : Arena κ α) : Twin a.size b.size P a b where
  since := Nat.le_refl _
  size := Nat.add_comm _ _
  get hp := absurd hp.below (Nat.not_lt.2 hp.since)

theorem imp (h : Twin m n P a b) (hPQ : ∀ r x y, P r x y → Q r x y) : Twin m n Q a b :=
  { h with get := fun hp => hPQ _ _ _ (h.get hp) }

theorem right_lt (h : Twin m n P a b) (hp : Ref.Pair m n a.size r s) : s.index < b.size := by
  have hs := h.size
  have hb := hp.below
  have hn := hp.number
  omega

theorem next (h : Twin m n P a b) (x : α) : Ref.Pair m n (a.push x).size a.next b.next where
  since := h.since
  below := by rw [size_push]; exact Nat.lt_succ_self _
  number := h.size

theorem push (h : Twin m n P a b) {x y : α} (hxy : P a.next x y) :
    Twin m n P (a.push x) (b.push y) where
  since := Nat.le_trans h.since (by simp)
  size := by
    have hs := h.size
    simp only [size_push]
    omega
  get {r s} hp := by
    rw [size_push] at hp
    by_cases hr : r.index < a.size
    · have hp : Ref.Pair m n a.size r s := { hp with below := hr }
      rw [get_push_of_lt a x hr, get_push_of_lt b y (h.right_lt hp)]
      exact h.get hp
    · have hs := h.size
      have hb := hp.below
      have hn := hp.number
      obtain rfl : r = a.next := congrArg Ref.mk (show r.index = a.size by omega)
      obtain rfl : s = b.next := congrArg Ref.mk (show s.index = b.size by omega)
      rw [get_push_next, get_push_next]
      exact hxy

theorem modify (h : Twin m n P a b) (hp : Ref.Pair m n a.size r s) {f g : α → α}
    (hfg : P r (a.get r) (b.get s) → P r (f (a.get r)) (g (b.get s))) :
    Twin m n P (a.modify r f) (b.modify s g) where
  since := by rw [size_modify]; exact h.since
  size := by rw [size_modify, size_modify]; exact h.size
  get {r' s'} hp' := by
    rw [size_modify] at hp'
    by_cases hr : r' = r
    · obtain rfl : s' = s := (hp'.eq_iff hp).1 hr
      subst hr
      rw [get_modify_self a f hp.below, get_modify_self b g (h.right_lt hp)]
      exact hfg (h.get hp)
    · rw [get_modify_of_ne a f hr, get_modify_of_ne b g fun hs => hr ((hp'.eq_iff hp).2 hs)]
      exact h.get hp'

end Twin

end Arena

end LivePatch
