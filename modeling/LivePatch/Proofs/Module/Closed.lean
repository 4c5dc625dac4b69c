/-
Merging on a closed heap. What a merge binds, sets and records are values that it finds on the heap, so
that a merge leaves a closed heap, also when it fails and goes back to what is recorded.
-/
import LivePatch.Proofs.Machine.Closed
import LivePatch.Proofs.Module.Rollback

namespace LivePatch

namespace Journal

/-- What a record would give back. -/
def Record.values : Record → List Value
  | function _ state => state.values
  | type _ attrs => attrs.values

/-- Everything that a journal would give back is there. -/
structure There (j : Journal) (h : Heap) : Prop where
  bindings : ∀ w ∈ j.bindings.values, h.There w
  records : ∀ r ∈ j.records, ∀ w ∈ r.values, h.There w

namespace There

variable {j : Journal} {h k : Heap}

theorem later (hj : j.There h) (hk : h.Persists k) : j.There k where
  bindings w hw := (hj.bindings w hw).later hk
  records r hr w hw := (hj.records r hr w hw).later hk

theorem recordFunction (hj : j.There h) (hc : Region.whole.RefersOnly (Region.whole.Has h) k)
    (f : FunctionRef) : (j.recordFunction k f).There h := by
  unfold Journal.recordFunction
  split
  · exact hj
  · refine ⟨hj.bindings, fun r hr w hw => ?_⟩
    rcases List.mem_cons.1 hr with rfl | hr
    · exact Heap.state_of_refersOnly hc hw
    · exact hj.records r hr w hw

theorem recordClass (hj : j.There h) (hc : Region.whole.RefersOnly (Region.whole.Has h) k)
    (c : ClassRef) : (j.recordClass k c).There h := by
  unfold Journal.recordClass
  split
  · exact hj
  · refine ⟨hj.bindings, fun r hr w hw => ?_⟩
    rcases List.mem_cons.1 hr with rfl | hr
    · exact Heap.attr_of_refersOnly hc hw
    · exact hj.records r hr w hw

end There

/-- Going back to what is there keeps a heap closed. -/
theorem rollback_closed {j : Journal} {h : Heap} (hc : h.Closed) (hj : j.There h) : (j.rollback h).Closed := by
  have hback : ∀ (rs : List Record) {k : Heap}, k.Closed → (∀ r ∈ rs, ∀ w ∈ r.values, k.There w) →
      (rs.foldl Record.restore k).Closed ∧ k.Persists (rs.foldl Record.restore k) := by
    intro rs
    induction rs with
    | nil => exact fun hk _ => ⟨hk, .refl _⟩
    | cons r rs ih =>
      intro k hk hr
      have hp := persists_restore k r
      have hrc : (r.restore k).Closed := by
        have hw := hr r (List.mem_cons_self ..)
        cases r with
        | function f state => exact hk.modifyFunction f fun _ w h => .inr (hw w h)
        | type c attrs => exact hk.modifyAttrs c fun _ w h => .inr (hw w h)
      obtain ⟨hl, hl'⟩ := ih hrc fun r' hr' w hw => (hr r' (List.mem_cons_of_mem _ hr') w hw).later hp
      exact ⟨hl, hp.trans hl'⟩
  obtain ⟨hk, hp⟩ := hback j.records hc hj.records
  exact hk.modifyScope j.scope fun _ w hw => .inr ((hj.bindings w hw).later hp)

end Journal

/-! ## Updates -/

/-- A hook is made of values of the law when the new value is one. -/
theorem Law.hook_found {L : Law} {h : Heap} (hi : L.inv h) {v : Value} (hv : L.val h v) {a : Attribute}
    (ha : Update.hook? h v = some a) : L.found h a := by
  unfold Update.hook? at ha
  split at ha
  · rename_i hf
    cases ha
    exact ⟨hv, Law.attr_found hi hv hf⟩
  · exact Law.attr_found hi hv ha

/-- The hook of a new value that is there can be called on a closed heap. -/
theorem Update.Asks.call_closed {m k : Machine} {old new hook : Value} (ha : Asks m old new hook k)
    (hc : m.heap.Closed) (ho : m.heap.There old) (hn : m.heap.There new) (limit : Nat) :
    Run.Keeps .closed k (Run.call limit hook [old]) (Run.Val .closed) := by
  obtain ⟨a, hfound, rfl, rfl⟩ := ha.found
  obtain ⟨⟨hk, hp⟩, hhook⟩ := Law.obtain_stays (L := .closed) hc (Law.hook_found (L := .closed) hc hn hfound)
  refine Run.call_keeps (L := .closed) limit { m with heap := (m.heap.obtain a).2 } _ [old] hk hhook fun v hv => ?_
  rw [List.mem_singleton.1 hv]
  exact Value.MadeBetween.later ho hp

namespace Journaled

/-- A closed heap with a journal of what is there. -/
structure Closed (s : Journaled) : Prop where
  heap : s.heap.Closed
  journal : s.journal.There s.heap

namespace Closed

variable {s : Journaled}

theorem updateClass (hs : s.Closed) {c d : ClassRef} (hc : s.heap.There (.type c))
    (hd : s.heap.There (.type d)) : (s.updateClass c d).Closed := by
  let L : ClassLaw :=
    { inv := fun t => s.heap.Persists t.heap ∧
        Region.whole.RefersOnly (Region.whole.Has s.heap) t.heap ∧ t.journal.There s.heap
      allowed := s.heap.There
      attr := fun ⟨_, hr, _⟩ _ hx => Heap.attr_of_refersOnly hr (Bindings.mem_values_of_get? hx)
      record := fun ⟨hp, hr, hj⟩ _ => ⟨hp, hr, hj.recordClass hr _⟩
      change := fun ⟨hp, hr, hj⟩ _ hw =>
        ⟨hp.trans (Heap.footprint_modifyAttrs _ _ _).persists, hr.modifyAttrs _ hw, hj⟩ }
  obtain ⟨hp, hr, hj⟩ := L.updateClass_keeps ⟨.refl s.heap, hs.heap, hs.journal⟩ hc hd
  exact ⟨hr.closed hp, hj.later hp⟩

theorem updateFunction (hs : s.Closed) (f g : FunctionRef) : (s.updateFunction f g).Closed := by
  have hp := (s.updateFunction_persists f g).1
  rcases s.updateFunction_cases f g with e | e
  · rw [e]
    exact hs
  · rw [e] at hp ⊢
    refine ⟨hs.heap.modifyFunction f fun state w hw => ?_, (hs.journal.recordFunction hs.heap f).later hp⟩
    rcases FunctionState.mem_values_patch hw with hw | hw
    · exact .inl hw
    · exact .inr (Heap.state_of_refersOnly hs.heap hw)

theorem performed {limit : Nat} {old new : Value} {j j' : Journal} {m m' : Machine} {u : Update}
    (hs : Closed ⟨j, m.heap⟩) (ho : m.heap.There old) (hn : m.heap.There new)
    (hp : Update.Performed (Run.call limit) old new j m u j' m') :
    Closed ⟨j', m'.heap⟩ ∧ m'.heap.There u.value := by
  cases hp with
  | unchanged => exact ⟨hs, ho⟩
  | replaced => exact ⟨hs, hn⟩
  | @asked hook v k m' ha hc =>
    have hcall := ha.call_closed hs.heap ho hn limit
    unfold Run.Keeps at hcall
    rw [hc] at hcall
    obtain ⟨⟨hm', hk⟩, hv⟩ := hcall
    exact ⟨⟨hm', hs.journal.later (ha.extends.footprint.persists.trans hk)⟩, hv⟩
  | inPlace =>
    have hk := (Update.inPlace_persists old new ⟨j, m.heap⟩).1
    rcases Update.inPlace_cases old new ⟨j, m.heap⟩ with ⟨c, d, rfl, rfl, e⟩ | ⟨f, g, -, -, e⟩ | e
    · rw [e] at hk ⊢
      exact ⟨hs.updateClass ho hn, ho.later hk⟩
    · rw [e] at hk ⊢
      exact ⟨hs.updateFunction f g, ho.later hk⟩
    · rw [e]
      exact ⟨hs, hn⟩

end Closed

end Journaled

/-! ## The whole of a merge -/

namespace Merge

variable {limit : Nat} {u : CodeUnit} {module : ModuleRef} {m m₁ : Machine}

theorem Executed.closed (he : Executed limit u module m m₁) (hc : m.heap.Closed) : m₁.heap.Closed := by
  rw [← show Run.final _ = m₁ from congrArg Run.final he]
  exact CodeUnit.run_closed hc.newScope limit u _ _

/-- At every stage the heap is closed and the journal holds what is there. -/
theorem Executed.stage_closed (he : Executed limit u module m m₁) (hm : m.heap.HasModule module)
    (hc : m.heap.Closed) {xs todo : List Name} (hxs : sharedNames module m m₁ = xs ++ todo) {a : Stage}
    (hp : Reaches limit module m m₁ xs a) : Journaled.Closed ⟨a.journal, a.machine.heap⟩ := by
  have hc₁ := he.closed hc
  refine he.induct (I := fun _ a => Journaled.Closed ⟨a.journal, a.machine.heap⟩) ?_ ?_ hxs hp
  · have hp := opening_persists hm.newScope_ne m₁
    refine ⟨?_, ⟨fun w hw => ?_, fun r hr => by cases hr⟩⟩
    · dsimp only
      rw [opening_heap hm.newScope_ne]
      refine hc₁.modifyScope _ fun b w hw => (mem_values_openingBindings hw).imp id fun hw => ?_
      exact hc₁.scopes _ trivial (.value w) (List.mem_map_of_mem hw)
    · exact Value.MadeBetween.later (hc₁.scopes _ trivial (.value w) (List.mem_map_of_mem hw)) hp
  · intro done x todo a b _ _ _ ha hstep
    cases hstep with
    | unbound => exact ha
    | @bound _ _ up _ k ho hn hu =>
      obtain ⟨hk, hv⟩ := ha.performed (ha.heap.bound ho) (ha.heap.bound hn) hu
      have hpk := k.heap.persists_modifyScope (m.heap.module module).scope (·.insert x up.value)
      refine ⟨hk.heap.modifyScope _ fun b w hw => ?_, hk.journal.later hpk⟩
      rcases Bindings.mem_values_insert hw with rfl | hw
      · exact .inr hv
      · exact .inl hw

end Merge

/-- A merge into a closed heap leaves a closed heap, however it ends. -/
theorem merge_closed (limit : Nat) (u : CodeUnit) {module : ModuleRef} {m : Machine}
    (hm : m.heap.HasModule module) (hc : m.heap.Closed) :
    (Run.final (merge limit u module m)).heap.Closed := by
  cases hr : merge limit u module m with
  | ok s m' =>
    obtain ⟨m₁, a, he, hp, -, rfl⟩ := Merge.succeeds hr
    exact (he.stage_closed hm hc (List.append_nil _).symm hp).heap
  | error e m' =>
    show m'.heap.Closed
    rcases Merge.stops hr with ⟨e', hr⟩ | ⟨x, a, old, hook, k, e', m₂, ht, ha, hcall, hback⟩
    · rw [← show Run.final _ = m' from congrArg Run.final hr]
      exact CodeUnit.run_closed hc.newScope limit u _ _
    · obtain ⟨m₁, done, todo, he, hxs, hp⟩ := ht
      have hs := he.stage_closed hm hc hxs hp
      obtain ⟨hlive, new, hnew, hasks⟩ := ha
      have hkeeps := (hasks.call_closed hs.heap (hs.heap.bound hlive) (hs.heap.bound hnew) limit).final
      rw [hcall] at hkeeps
      have hp := hasks.extends.footprint.persists.trans hkeeps.2
      rcases hback with rfl | ⟨-, rfl⟩
      · exact Journal.rollback_closed hkeeps.1 (hs.journal.later hp)
      · exact hkeeps.1

end LivePatch
