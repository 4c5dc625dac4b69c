/-
Every pair of classes comes up. A merge pairs the old and the new class of a shared name, and further
the classes that two paired classes both hold in a shared attribute. The walk through these pairs follows
an old class only once, and its bound is the number of classes; so when it has come to its end, whatever
a pair leads to has been paired. When no old class could be paired with two new ones, the walk has
therefore come to every pair there is, in whatever order the names were taken.
-/
import Mathlib.Data.List.Nodup
import Mathlib.Data.List.Perm.Subperm
import LivePatch.Proofs.Module.Takeover

namespace LivePatch

/-- When all that a relation pairs is among some pairs, and these pair each thing with a single other, so does
the relation. -/
theorem single_of_mem {α β : Type} {R : α → β → Prop} {pairs : List (α × β)}
    (hall : ∀ {a b}, R a b → (a, b) ∈ pairs) (ho : ∀ p ∈ pairs, ∀ q ∈ pairs, p.1 = q.1 → p = q)
    ⦃a : α⦄ ⦃b b' : β⦄ (hb : R a b) (hb' : R a b') : b = b' :=
  congrArg Prod.snd (ho (a, b) (hall hb) (a, b') (hall hb') rfl)

namespace Heap

section Walk

variable {h : Heap} {ps qs rs : List (ClassRef × ClassRef)} {p : ClassRef × ClassRef} {c d : ClassRef}

/-- The old classes to which a pair leads in one step have been paired. -/
def Followed (h : Heap) (p : ClassRef × ClassRef) (qs : List (ClassRef × ClassRef)) : Prop :=
  ∀ x ∈ h.sharedSlots p.1 p.2, ∀ e k, h.sharedClasses? p.1 p.2 x = some (e, k) → e ∈ qs.map Prod.fst

/-- The pairs of a walk: every old class is on the heap and is paired once. -/
structure Pairs (h : Heap) (qs : List (ClassRef × ClassRef)) : Prop where
  nodup : (qs.map Prod.fst).Nodup
  there : ∀ c ∈ qs.map Prod.fst, c.index < h.classes.size

/-- From one moment of a walk to a later one: no pair is lost, and those that came since are followed. -/
structure Explored (h : Heap) (ps qs : List (ClassRef × ClassRef)) : Prop where
  pairs : h.Pairs qs
  more : ps <+: qs
  followed : ∀ p ∈ qs, p ∈ ps ∨ h.Followed p qs

theorem Followed.mono (hf : h.Followed p ps) (hm : ps <+: qs) : h.Followed p qs :=
  fun x hx e k hs => List.map_subset Prod.fst hm.subset (hf x hx e k hs)

/-- There are no more pairs than classes. -/
theorem Pairs.length_le (hp : h.Pairs qs) : qs.length ≤ h.classes.size := by
  have hinj : Function.Injective (Ref.index (κ := .type)) := by
    rintro ⟨i⟩ ⟨j⟩ rfl
    rfl
  have hnodup : ((qs.map Prod.fst).map Ref.index).Nodup := List.Nodup.map hinj hp.nodup
  have hsub : (qs.map Prod.fst).map Ref.index ⊆ List.range h.classes.size := by
    intro i hi
    obtain ⟨c, hc, rfl⟩ := List.mem_map.1 hi
    exact List.mem_range.2 (hp.there c hc)
  simpa using (List.Nodup.subperm hnodup hsub).length_le

theorem Pairs.concat (hp : h.Pairs ps) (hc : c ∉ ps.map Prod.fst) (hlt : c.index < h.classes.size)
    (d : ClassRef) : h.Pairs (ps ++ [(c, d)]) := by
  constructor
  · rw [List.map_append, List.nodup_append]
    refine ⟨hp.nodup, by simp, ?_⟩
    rintro a ha b hb rfl
    obtain rfl : a = c := List.mem_singleton.1 hb
    exact hc ha
  · intro e he
    rw [List.map_append, List.mem_append] at he
    rcases he with he | he
    · exact hp.there e he
    · rw [List.mem_singleton.1 he]
      exact hlt

theorem Explored.refl (hp : h.Pairs ps) : h.Explored ps ps := ⟨hp, List.prefix_rfl, fun _ => .inl⟩

theorem Explored.trans (h₁ : h.Explored ps qs) (h₂ : h.Explored qs rs) : h.Explored ps rs := by
  refine ⟨h₂.pairs, h₁.more.trans h₂.more, ?_⟩
  intro p hp
  rcases h₂.followed p hp with hp | hp
  · exact (h₁.followed p hp).imp id fun hf => hf.mono h₂.more
  · exact .inr hp

theorem slot_there (hc : h.Closed) {x : Name} {e : ClassRef}
    (hx : (h.type c).attrs.get? x = some (.type e)) : e.index < h.classes.size :=
  (attr_of_refersOnly hc (Bindings.mem_values_of_get? hx)).2

/-- One attribute after the other is followed. -/
theorem explored_foldl {n : Nat} (hc : h.Closed)
    (ih : ∀ {e k : ClassRef} {qs : List (ClassRef × ClassRef)}, h.Pairs qs → e.index < h.classes.size →
      h.classes.size < n + qs.length →
      h.Explored qs (h.pairWithin n e k qs) ∧ e ∈ (h.pairWithin n e k qs).map Prod.fst) :
    ∀ (xs : List Name) {qs : List (ClassRef × ClassRef)}, h.Pairs qs → h.classes.size < n + qs.length →
      let rs := xs.foldl (fun qs x =>
        match h.sharedClasses? c d x with
        | some (e, k) => h.pairWithin n e k qs
        | none => qs) qs
      h.Explored qs rs ∧ ∀ x ∈ xs, ∀ e k, h.sharedClasses? c d x = some (e, k) → e ∈ rs.map Prod.fst
  | [], _, hq, _ => ⟨.refl hq, nofun⟩
  | x :: xs, qs, hq, hn => by
    simp only [List.foldl_cons]
    cases hs : h.sharedClasses? c d x with
    | none =>
      obtain ⟨he, hx⟩ := explored_foldl hc ih xs hq hn
      refine ⟨he, ?_⟩
      intro y hy e k hyk
      rcases List.mem_cons.1 hy with rfl | hy
      · rw [hs] at hyk
        cases hyk
      · exact hx y hy e k hyk
    | some p =>
      obtain ⟨e, k⟩ := p
      obtain ⟨hfirst, hmem⟩ := ih (k := k) hq (slot_there hc (sharedClasses?_eq_some hs).1) hn
      have hle := hfirst.more.length_le
      obtain ⟨he, hx⟩ := explored_foldl hc ih xs hfirst.pairs (by omega)
      refine ⟨hfirst.trans he, ?_⟩
      intro y hy e' k' hyk
      rcases List.mem_cons.1 hy with rfl | hy
      · rw [hs] at hyk
        cases hyk
        exact List.map_subset Prod.fst he.more.subset hmem
      · exact hx y hy e' k' hyk

/-- The walk from a pair explores all that the pair leads to. The bound and the pairs that were there
together exceed the number of classes, so that the bound is not used up. -/
theorem pairWithin_explored (hc : h.Closed) : ∀ (n : Nat) {c d : ClassRef}
    {ps : List (ClassRef × ClassRef)}, h.Pairs ps → c.index < h.classes.size →
    h.classes.size < n + ps.length →
    h.Explored ps (h.pairWithin n c d ps) ∧ c ∈ (h.pairWithin n c d ps).map Prod.fst
  | 0, c, d, ps, hp, _, hn => by
    have hle := hp.length_le
    omega
  | n + 1, c, d, ps, hp, hlt, hn => by
    rw [pairWithin]
    split
    · rename_i hmem
      exact ⟨.refl hp, hmem⟩
    · rename_i hmem
      obtain ⟨he, hx⟩ := explored_foldl (c := c) (d := d) hc
        (fun h₁ h₂ h₃ => pairWithin_explored hc n h₁ h₂ h₃) (h.sharedSlots c d) (hp.concat hmem hlt d)
        (by rw [List.length_append]; simp; omega)
      have hself : (c, d) ∈ ps ++ [(c, d)] := by simp
      refine ⟨⟨he.pairs, (List.prefix_append ..).trans he.more, ?_⟩,
        List.mem_map_of_mem (he.more.subset hself)⟩
      intro p hp
      rcases he.followed p hp with hp | hp
      · rcases List.mem_append.1 hp with hp | hp
        · exact .inl hp
        · cases List.mem_singleton.1 hp
          exact .inr hx
      · exact .inr hp

/-- Pairs that include the first one, and whatever they lead to, are all there are. -/
theorem Leads.mem {e k : ClassRef} (hl : h.Leads c d e k) (hstart : (c, d) ∈ qs)
    (hslot : ∀ p ∈ qs, ∀ x ∈ h.sharedSlots p.1 p.2, ∀ p' ∈ h.sharedClasses? p.1 p.2 x, p' ∈ qs) :
    (e, k) ∈ qs := by
  induction hl with
  | here => exact hstart
  | slot _ hx hs ih => exact hslot _ ih _ hx _ hs

/-- Where each old class is paired with a single new one, a walk that has explored all and has paired an old
class has come to its pair, and to all that this pair leads to. -/
theorem Explored.mem_of_leads {P : ClassRef → ClassRef → Prop} (he : h.Explored [] qs)
    (hsound : ∀ {c d}, (c, d) ∈ qs → P c d) (ho : ∀ ⦃c d d' : ClassRef⦄, P c d → P c d' → d = d')
    (hslot : ∀ {c d e k x}, P c d → x ∈ h.sharedSlots c d → h.sharedClasses? c d x = some (e, k) → P e k)
    (hc : c ∈ qs.map Prod.fst) (hp : P c d) {e k : ClassRef} (hl : h.Leads c d e k) : (e, k) ∈ qs := by
  -- an old class that has come up has come up with the only class that it is paired with
  have hpaired : ∀ {e k : ClassRef}, e ∈ qs.map Prod.fst → P e k → (e, k) ∈ qs := by
    intro e k he hp
    obtain ⟨⟨e, k'⟩, hq, rfl⟩ := List.mem_map.1 he
    rw [ho hp (hsound hq)]
    exact hq
  induction hl with
  | here => exact hpaired hc hp
  | slot _ hx hs ih =>
    have hfollowed := (he.followed _ ih).resolve_left nofun
    exact hpaired (hfollowed _ hx _ _ hs) (hslot (hsound ih) hx hs)

/-- When each old class is paired with a single new one, the walk from a pair comes to exactly the pairs to
which it leads. -/
theorem mem_pairWithin_iff (hc : h.Closed) (hlt : c.index < h.classes.size)
    (ho : ∀ ⦃e k k' : ClassRef⦄, h.Leads c d e k → h.Leads c d e k' → k = k') {e k : ClassRef} :
    (e, k) ∈ h.pairWithin (h.classes.size + 1) c d [] ↔ h.Leads c d e k := by
  have hsound : ∀ {p}, p ∈ h.pairWithin (h.classes.size + 1) c d [] → h.Leads c d p.1 p.2 :=
    fun hp => (leads_of_mem_pairWithin _ hp).resolve_left nofun
  have hstart : h.Pairs [] := ⟨List.nodup_nil, nofun⟩
  obtain ⟨he, hmem⟩ := pairWithin_explored hc (h.classes.size + 1) (d := d) hstart hlt (Nat.lt_succ_self _)
  refine ⟨fun hp => hsound hp, fun hl => ?_⟩
  exact he.mem_of_leads hsound ho (fun h₁ h₂ h₃ => .slot h₁ h₂ h₃) hmem .here hl

end Walk

/-! ## All names -/

/-- Two classes are paired: they are the old and the new class of a name, or such a pair leads to
them. -/
def Paired (h : Heap) (old new : Bindings Value) (c d : ClassRef) : Prop :=
  ∃ x c₀ d₀, old.get? x = some (.type c₀) ∧ new.get? x = some (.type d₀) ∧ h.Leads c₀ d₀ c d

/-- Each old class is paired with a single new class. -/
def PairsOnce (h : Heap) (old new : Bindings Value) : Prop :=
  ∀ ⦃c d d' : ClassRef⦄, h.Paired old new c d → h.Paired old new c d' → d = d'

variable {h : Heap} {old new : Bindings Value} {c d : ClassRef}

theorem Paired.slot (hp : h.Paired old new c d) {x : Name} {e k : ClassRef} (hx : x ∈ h.sharedSlots c d)
    (hs : h.sharedClasses? c d x = some (e, k)) : h.Paired old new e k := by
  obtain ⟨y, c₀, d₀, hc, hd, hl⟩ := hp
  exact ⟨y, c₀, d₀, hc, hd, .slot hl hx hs⟩

/-- The old and the new class of a name. -/
def namedClasses? (old new : Bindings Value) (x : Name) : Option (ClassRef × ClassRef) :=
  match old.get? x, new.get? x with
  | some (.type c), some (.type d) => some (c, d)
  | _, _ => none

/-- Pairs that include those of all names, and whatever they lead to, are all there are. -/
theorem Paired.mem {qs : List (ClassRef × ClassRef)} (hp : h.Paired old new c d)
    (hstart : ∀ x ∈ old.names, ∀ p ∈ namedClasses? old new x, p ∈ qs)
    (hslot : ∀ p ∈ qs, ∀ x ∈ h.sharedSlots p.1 p.2, ∀ p' ∈ h.sharedClasses? p.1 p.2 x, p' ∈ qs) :
    (c, d) ∈ qs := by
  obtain ⟨y, c₀, d₀, hc, hd, hl⟩ := hp
  refine hl.mem (hstart y ?_ (c₀, d₀) ?_) hslot
  · rw [Bindings.mem_names_iff, hc]
    rfl
  · unfold namedClasses?
    rw [hc, hd]
    rfl

/-- The walk through some names explores all that their classes lead to. -/
theorem classPairs_explored (hc : h.Closed)
    (hold : ∀ {x c}, old.get? x = some (.type c) → c.index < h.classes.size) (names : List Name) :
    h.Explored [] (h.classPairs old new names) ∧
      ∀ x ∈ names, ∀ c d, old.get? x = some (.type c) → new.get? x = some (.type d) →
        c ∈ (h.classPairs old new names).map Prod.fst := by
  induction names using List.reverseRecOn with
  | nil => exact ⟨.refl ⟨List.nodup_nil, nofun⟩, nofun⟩
  | append_singleton names x ih =>
    obtain ⟨he, hx⟩ := ih
    rw [Merge.classPairs_append]
    split
    · rename_i c d hcx hdx
      obtain ⟨hw, hmem⟩ := pairWithin_explored hc (h.classes.size + 1) (d := d) he.pairs (hold hcx) (by omega)
      refine ⟨he.trans hw, ?_⟩
      intro y hy c' d' hcy hdy
      rcases List.mem_append.1 hy with hy | hy
      · exact List.map_subset Prod.fst hw.more.subset (hx y hy c' d' hcy hdy)
      · cases List.mem_singleton.1 hy
        cases hcx.symm.trans hcy
        exact hmem
    · rename_i hno
      refine ⟨he, ?_⟩
      intro y hy c d hcy hdy
      rcases List.mem_append.1 hy with hy | hy
      · exact hx y hy c d hcy hdy
      · cases List.mem_singleton.1 hy
        exact absurd hdy (hno c d hcy)

theorem paired_of_mem_classPairs {names : List Name} (hp : (c, d) ∈ h.classPairs old new names) :
    h.Paired old new c d := by
  obtain ⟨y, -, c₀, d₀, hc, hd, hl⟩ := Merge.leads_of_mem_classPairs names hp
  exact ⟨y, c₀, d₀, hc, hd, hl⟩

/-- When each old class is paired with a single new one, the walk comes to exactly the pairs that there
are. -/
theorem PairsOnce.mem_classPairs_iff (ho : h.PairsOnce old new) (hc : h.Closed)
    (hold : ∀ {x c}, old.get? x = some (.type c) → c.index < h.classes.size) {names : List Name}
    (hnames : ∀ {x v w}, old.get? x = some v → new.get? x = some w → x ∈ names) :
    (c, d) ∈ h.classPairs old new names ↔ h.Paired old new c d := by
  obtain ⟨he, hx⟩ := @classPairs_explored h old new hc hold names
  refine ⟨paired_of_mem_classPairs, ?_⟩
  rintro ⟨y, c₀, d₀, hcy, hdy, hl⟩
  exact he.mem_of_leads paired_of_mem_classPairs ho (fun h₁ h₂ h₃ => h₁.slot h₂ h₃)
    (hx y (hnames hcy hdy) c₀ d₀ hcy hdy) ⟨y, c₀, d₀, hcy, hdy, .here⟩ hl

end Heap

namespace Merge

/-- The first class of a pair is old, and the unit has made the second. -/
theorem Executed.paired_made {limit : Nat} {u : CodeUnit} {module : ModuleRef} {m m₁ : Machine}
    (he : Executed limit u module m m₁) (hc : m.heap.Closed) {c d : ClassRef}
    (hp : m₁.heap.Paired (m.heap.bindings module) (m₁.heap.scope m.heap.newScope.1) c d) :
    c.index < m.heap.classes.size ∧ (Value.type d).MadeBetween m.heap m₁.heap := by
  obtain ⟨x, c₀, d₀, hc₀, hd₀, hl⟩ := hp
  induction hl with
  | here => exact ⟨(Executed.old_made hc hc₀).2, he.new_made hd₀⟩
  | slot _ _ hs ih =>
    obtain ⟨hcs, hds⟩ := Heap.sharedClasses?_eq_some hs
    exact ⟨Journaled.old_slot hc he.isolated.1 ih.1 hcs, Journaled.new_slot he.isolated.1 ih.2 hds⟩

end Merge

end LivePatch
