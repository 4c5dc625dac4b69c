/-
Layered heaps. A class is made after its bases, so that the walk up from a class comes to an end: an
attribute is found in the class itself, or else it is the one that the first of the bases has that has
one. No code can make a class that is not above its bases, nor give a class other bases.
-/
import LivePatch.Proofs.Machine.Closed

namespace LivePatch

namespace Heap

/-- Every class was made after its bases. -/
def Layered (h : Heap) : Prop := ∀ c : ClassRef, ∀ b ∈ (h.type c).bases, b.index < c.index

variable {h k : Heap}

/-- How far the walk up from a class may go does not matter once it may go far enough. -/
theorem Layered.lookupWithin_eq (hl : h.Layered) (x : Name) : ∀ (n n' : Nat) (c : ClassRef),
    c.index < n → c.index < n' → h.lookupWithin x n c = h.lookupWithin x n' c
  | 0, _, _, hn, _ => absurd hn (Nat.not_lt_zero _)
  | _ + 1, 0, _, _, hn' => absurd hn' (Nat.not_lt_zero _)
  | n + 1, n' + 1, c, hn, hn' => by
    unfold lookupWithin
    rw [findSome?_congr fun b hb => ?_]
    have hlt := hl c b hb
    exact hl.lookupWithin_eq x n n' b (by omega) (by omega)

/-- A class has what it defines itself, and otherwise what the first of its bases has. -/
theorem Layered.lookup_eq (hl : h.Layered) (c : ClassRef) (x : Name) :
    h.lookup c x = ((h.type c).attrs.get? x).or ((h.type c).bases.findSome? (h.lookup · x)) := by
  have hbases : (h.type c).bases.findSome? (h.lookupWithin x c.index) =
      (h.type c).bases.findSome? (h.lookup · x) :=
    findSome?_congr fun b hb => hl.lookupWithin_eq x _ _ b (hl c b hb) (Nat.lt_succ_self _)
  unfold lookup at hbases ⊢
  rw [lookupWithin, hbases]
  cases (h.type c).attrs.get? x <;> rfl

/-! ## Layered heaps stay layered -/

theorem layered_empty : Heap.empty.Layered := by
  intro c b hb
  have he : Heap.empty.type c = default := rfl
  rw [he] at hb
  cases hb

/-- When the classes that there are have been there before, and with them their bases. -/
theorem Layered.later (hl : h.Layered) (hk : h.Persists k) (hs : k.classes.size = h.classes.size) :
    k.Layered := by
  intro c b hb
  by_cases hc : c.index < h.classes.size
  · have hfixed : (k.type c).fixed = (h.type c).fixed := hk.classes.get c hc
    rw [show (k.type c).bases = (h.type c).bases from congrArg Prod.snd hfixed] at hb
    exact hl c b hb
  · rw [show k.type c = default from k.classes.get_of_size_le (by rw [hs]; exact Nat.not_lt.1 hc)] at hb
    cases hb

theorem Layered.newClass (hl : h.Layered) {o : ClassObject}
    (ho : ∀ b ∈ o.bases, b.index < h.classes.size) : (h.newClass o).2.Layered := by
  intro c b hb
  rcases Nat.lt_trichotomy c.index h.classes.size with hc | hc | hc
  · rw [show (h.newClass o).2.type c = h.type c from h.classes.get_push_of_lt o hc] at hb
    exact hl c b hb
  · obtain rfl : c = h.classes.next := by cases c; cases hc; rfl
    rw [show (h.newClass o).2.type h.classes.next = o from h.classes.get_push_next o] at hb
    exact ho b hb
  · have hle : (h.classes.push o).size ≤ c.index := by rw [Arena.size_push]; exact hc
    rw [show (h.newClass o).2.type c = default from (h.classes.push o).get_of_size_le hle] at hb
    cases hb

theorem Layered.setAttr (hl : h.Layered) {target v : Value} {x : Name}
    (hk : h.setAttr? target x v = some k) : k.Layered := by
  refine hl.later (footprint_setAttr hk).persists ?_
  cases target with
  | type c => cases hk; exact Arena.size_modify _ _ _
  | object o => cases hk; rfl
  | function f =>
    unfold setAttr? at hk
    simp only at hk
    split at hk <;> cases hk <;> rfl
  | _ => cases hk

end Heap

/-- The law of code on a closed and layered heap. -/
def Law.layered : Law where
  inv h := h.Closed ∧ h.Layered
  step := Law.closed.step
  holds := Law.closed.holds
  binds := Law.closed.binds
  refl := Law.closed.refl
  trans := Law.closed.trans
  later := Law.closed.later
  scalar := Law.closed.scalar
  refs hi := Law.closed.refs hi.1
  newFunction hi ho :=
    have hn := Law.closed.newFunction hi.1 ho
    ⟨⟨hn.1, hi.2⟩, hn.2⟩
  newMethod hi ho :=
    have hn := Law.closed.newMethod hi.1 ho
    ⟨⟨hn.1, hi.2⟩, hn.2⟩
  newClass hi ho :=
    have hn := Law.closed.newClass hi.1 ho
    ⟨⟨hn.1, hi.2.newClass fun b hb => (ho (.value (.type b))
      (List.mem_append_left _ (List.mem_map_of_mem hb))).2⟩, hn.2⟩
  newInstance hi hc :=
    have hn := Law.closed.newInstance hi.1 hc
    ⟨⟨hn.1, hi.2⟩, hn.2⟩
  bindName x hi hb hv :=
    have hn := Law.closed.bindName x hi.1 hb hv
    ⟨⟨hn.1, hi.2⟩, hn.2⟩
  setAttr x hi ht hv hk :=
    have hn := Law.closed.setAttr x hi.1 ht hv hk
    ⟨⟨hn.1, hi.2.setAttr hk⟩, hn.2⟩

/-- A unit that runs on a closed and layered heap leaves one, however it ends. -/
theorem CodeUnit.run_layered {m : Machine} (hc : m.heap.Closed) (hl : m.heap.Layered) (limit : Nat)
    (u : CodeUnit) (globals : ScopeRef) (module : Name) :
    (Run.final (u.run limit globals module m)).heap.Layered :=
  (CodeUnit.run_keeps (L := .layered) ⟨hc, hl⟩ limit u trivial trivial module).final.1.2

end LivePatch
