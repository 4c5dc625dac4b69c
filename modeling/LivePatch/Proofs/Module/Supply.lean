/-
Where the code of a function comes from. A function is made with the code of its definition. When a merge updates
it in place it takes the code of another function, and with it the defaults, as they were supplied to that one;
when the merge goes back, it has again what it had before. So in the course of whatever a host does each function
has its code and its defaults from one definition that was carried out.
-/
import LivePatch.Proofs.Machine.Binding
import LivePatch.Proofs.Module.Deed
import LivePatch.Proofs.Module.Takeover

namespace LivePatch

/-! ## Taking the code of another function -/

/-- The function that is updated in place, and the one whose code it takes, if there are such functions. -/
def Update.takes? (h : Heap) (old new : Value) : Option (FunctionRef × FunctionRef) :=
  if old = new ∨ (hook? h new).isSome = true then none else h.functionPair? old new

namespace Supply

/-- A function that takes the code of another has it from where the other has it. -/
def take (S : Supply) : Option (FunctionRef × FunctionRef) → Supply
  | none => S
  | some (f, g) => fun f' => S (if f' = f then g else f')

/-- How far a change has come: each function has what `T` says, those that the journal has not recorded have it
from where they had it in the beginning, and what is recorded is what `G` says. -/
structure Kept (G T : Supply) (s : Journaled) : Prop where
  held : T.Held s.heap
  fresh : ∀ f b, s.heap.functions.size ≤ f.index → G f b → T f b
  untouched : ∀ f, s.journal.hasFunction f = false → ∀ b, T f b → G f b
  recorded : ∀ f state, .function f state ∈ s.journal.records → G.Serves f state

namespace Kept

variable {G T B : Supply} {s : Journaled} {j : Journal} {h k : Heap}

theorem start (hh : G.Held h) (k : Heap) (scope : ScopeRef) : G.Kept G ⟨Journal.start k scope, h⟩ where
  held := hh
  fresh _ _ _ hb := hb
  untouched _ _ _ hb := hb
  recorded _ _ hr := nomatch hr

theorem of_same (hs : G.Kept T ⟨j, h⟩) (hk : h.SamePrograms k) : G.Kept T ⟨j, k⟩ where
  held := hs.held.of_same hk
  fresh f b hle := hs.fresh f b (hk.size ▸ hle)
  untouched := hs.untouched
  recorded := hs.recorded

/-- What is called in the course of a change supplies the functions that it makes. -/
theorem grows (hs : G.Kept T ⟨j, h⟩) (hg : h.Grows B k) (hB : ∀ f b, B f b → G f b) : G.Kept T ⟨j, k⟩ where
  held := hg.held hs.held fun f b hle hb => hs.fresh f b hle (hB f b hb)
  fresh f b hle := hs.fresh f b (Nat.le_trans hg.kept.size hle)
  untouched := hs.untouched
  recorded := hs.recorded

theorem updateClass (hs : G.Kept T s) (c d : ClassRef) : G.Kept T (s.updateClass c d) := by
  let L : Journaled.ClassLaw :=
    { inv := fun t => G.Kept T t
      allowed := fun _ => True
      attr := fun _ _ _ => trivial
      record := fun {t c} ht hc => by
        -- a class is recorded, and no function
        have hrecords : (t.journal.recordClass t.heap c).records =
            .type c (t.heap.type c).attrs :: t.journal.records := by
          unfold Journal.recordClass
          rw [hc]
          rfl
        refine ⟨ht.held, ht.fresh, fun f hf => ht.untouched f ?_, fun f state hr => ?_⟩
        · unfold Journal.hasFunction at hf ⊢
          rw [hrecords, List.any_cons] at hf
          exact hf
        · rw [hrecords] at hr
          exact ht.recorded f state ((List.mem_cons.1 hr).resolve_left nofun)
      change := fun ht _ _ => ht.of_same (.of_functions rfl) }
  exact L.updateClass_keeps hs trivial trivial

theorem updateFunction (hs : G.Kept T s) {f g : FunctionRef} (hf : f.index < s.heap.functions.size)
    (hg : g.index < s.heap.functions.size) : G.Kept (T.take (some (f, g))) (s.updateFunction f g) := by
  by_cases hfg : f = g
  · subst hfg
    have htake : T.take (some (f, f)) = T := by
      funext f'
      show T (if f' = f then f else f') = T f'
      split
      · rename_i he
        rw [he]
      · rfl
    rw [htake]
    unfold Journaled.updateFunction
    rw [if_pos rfl]
    exact hs
  have hother : ∀ {f'}, f' ≠ f → T.take (some (f, g)) f' = T f' := fun hne => congrArg T (if_neg hne)
  have hself : T.take (some (f, g)) f = T g := congrArg T (if_pos rfl)
  unfold Journaled.updateFunction
  rw [if_neg hfg]
  constructor
  · intro f' hf'
    rw [show (s.heap.modifyFunction f _).functions.size = _ from Arena.size_modify ..] at hf'
    by_cases he : f' = f
    · -- code and defaults are both those of `g`
      subst he
      rw [show (s.heap.modifyFunction f' _).function f' = _ from Arena.get_modify_self _ _ hf]
      obtain ⟨b, hb, hw, hfits⟩ := hs.held g hg
      exact ⟨b, by rw [hself]; exact hb, hw, hfits.code, hfits.defaults⟩
    · rw [show (s.heap.modifyFunction f _).function f' = _ from Arena.get_modify_of_ne _ _ he]
      exact (hs.held f' hf').mono fun b hb => by rw [hother he]; exact hb
  · intro f' b hle hb
    rw [show (s.heap.modifyFunction f _).functions.size = _ from Arena.size_modify ..] at hle
    have hne : f' ≠ f := fun he => absurd hf (Nat.not_lt.2 (he ▸ hle))
    rw [hother hne]
    exact hs.fresh f' b hle hb
  · intro f' hf' b hb
    -- the function that is updated is recorded from now on
    have hne : f' ≠ f := fun he => by
      rw [he, Journal.hasFunction_recordFunction] at hf'
      cases hf'
    rw [hother hne] at hb
    refine hs.untouched f' ?_ b hb
    unfold Journal.recordFunction at hf'
    split at hf'
    · exact hf'
    · unfold Journal.hasFunction at hf' ⊢
      rw [List.any_cons] at hf'
      exact (Bool.or_eq_false_iff.1 hf').2
  · intro f' state hr
    dsimp only at hr
    unfold Journal.recordFunction at hr
    split at hr
    · exact hs.recorded f' state hr
    · rename_i hnew
      rcases List.mem_cons.1 hr with hr | hr
      · -- what is recorded now has not changed since the beginning
        cases hr
        exact (hs.held f hf).mono (hs.untouched f (Bool.not_eq_true _ ▸ hnew))
      · exact hs.recorded f' state hr

/-- Going back gives every function what it had in the beginning: those that are recorded have it again, and the
others have it still. -/
theorem rollback (hs : G.Kept T s) : G.Held (s.journal.rollback s.heap) := by
  -- on the records that are left: every function has its own again, or there is still a record of it
  have hback : ∀ (rs : List Journal.Record) (k : Heap),
      (∀ f state, Journal.Record.function f state ∈ rs → G.Serves f state) →
      (∀ f : FunctionRef, f.index < k.functions.size →
        rs.any (·.isOfFunction f) = true ∨ G.Serves f (k.function f).state) →
      G.Held (rs.foldl Journal.Record.restore k) := by
    intro rs
    induction rs with
    | nil => exact fun k _ hk f hf => (hk f hf).resolve_left nofun
    | cons r rs ih =>
      intro k hrs hk
      refine ih _ (fun f state hr => hrs f state (List.mem_cons_of_mem _ hr)) fun f hf => ?_
      cases r with
      | type c attrs => exact (hk f hf).imp_left id
      | function g state =>
        rw [show (Journal.Record.restore k (.function g state)).functions.size = _ from Arena.size_modify ..] at hf
        by_cases he : f = g
        · subst he
          rw [show (Journal.Record.restore k (.function f state)).function f = _ from Arena.get_modify_self _ _ hf]
          exact .inr (hrs f state (List.mem_cons_self ..))
        · rw [show (Journal.Record.restore k (.function g state)).function f = _ from Arena.get_modify_of_ne _ _ he]
          refine (hk f hf).imp_left fun hany => ?_
          rw [List.any_cons, show Journal.Record.isOfFunction f (.function g state) = false from
            decide_eq_false (Ne.symm he)] at hany
          exact hany
  refine Held.of_same (hback s.journal.records s.heap hs.recorded fun f hf => ?_) (.of_functions rfl)
  cases hrec : s.journal.hasFunction f with
  | true => exact .inl hrec
  | false => exact .inr ((hs.held f hf).mono (hs.untouched f hrec))

end Kept

end Supply

/-! ## Updates -/

namespace Update

variable {G T : Supply} {s : Journaled} {old new : Value}

theorem takes?_of_hook? {h : Heap} (hne : old ≠ new) (hh : hook? h new = none) :
    takes? h old new = h.functionPair? old new := by
  unfold takes?
  rw [hh, if_neg (by simp [hne])]

theorem functionPair?_of_kind_ne (h : Heap) (hk : old.kind ≠ new.kind) : h.functionPair? old new = none := by
  unfold Heap.functionPair?
  split
  · exact absurd rfl hk
  · exact absurd rfl hk
  · rfl

/-- An update in place, of a function, of a class or of nothing. -/
theorem inPlace_kept (hs : G.Kept T s) (hne : old ≠ new) (hk : old.kind = new.kind) (hh : hook? s.heap new = none)
    (hthere : ∀ f g, s.heap.functionPair? old new = some (f, g) →
      f.index < s.heap.functions.size ∧ g.index < s.heap.functions.size) :
    G.Kept (T.take (takes? s.heap old new)) (inPlace old new s).2 := by
  rw [takes?_of_hook? hne hh]
  cases old with
  | function f =>
    cases new with
    | function g => exact hs.updateFunction (hthere f g rfl).1 (hthere f g rfl).2
    | _ => cases hk
  | method p =>
    cases new with
    | method q => exact hs.updateFunction (hthere _ _ rfl).1 (hthere _ _ rfl).2
    | _ => cases hk
  | type c =>
    cases new with
    | type d => exact hs.updateClass c d
    | _ => cases hk
  | _ => cases new <;> first | cases hk; done | exact hs

/-- However a value is brought up to date, each function has what it is said to have. A hook may make functions, and
takes no code of one for another. -/
theorem Performed.kept {limit : Nat} {j j' : Journal} {m m' : Machine} {u : Update}
    (hp : Performed (Run.call limit) old new j m u j' m') (hs : G.Kept T ⟨j, m.heap⟩)
    (hthere : ∀ f g, m.heap.functionPair? old new = some (f, g) →
      f.index < m.heap.functions.size ∧ g.index < m.heap.functions.size)
    (hB : ∀ hook k, Asks m old new hook k →
      ∀ f b, (Moment.mk (Run.callActivity k hook [old]) k).births limit f b → G f b) :
    G.Kept (T.take (takes? m.heap old new)) ⟨j', m'.heap⟩ := by
  cases hp with
  | unchanged he =>
    unfold takes?
    rw [if_pos (.inl he)]
    exact hs
  | replaced hk =>
    have hnone : takes? m.heap old new = none := by
      unfold takes?
      rw [functionPair?_of_kind_ne m.heap hk, ite_self]
    rw [hnone]
    exact hs
  | inPlace hne hk hh =>
    have hkept := inPlace_kept (s := ⟨j, m.heap⟩) hs hne hk hh hthere
    exact hkept
  | @asked hook v k m' ha hc =>
    obtain ⟨a, hfound, -, hkeq⟩ := ha.found
    have hnone : takes? m.heap old new = none := by
      unfold takes?
      rw [hfound, if_pos (.inr rfl)]
    have hk : m.heap.SamePrograms k.heap := by
      rw [hkeq]
      exact .obtain m.heap a
    have hsk := hs.of_same hk
    have hgrows := Activity.final_grows (S := G) ⟨Run.callActivity k hook [old], k⟩ rfl hsk.held.codeWellFormed
      (hB hook k ha)
    have hfinal : (Run.callActivity k hook [old]).final limit k = m' := congrArg Run.final hc
    dsimp only at hgrows
    rw [hfinal] at hgrows
    rw [hnone]
    exact hsk.grows hgrows fun _ _ hb => hb

end Update

/-! ## Merges -/

namespace Merge

/-- The function that is updated in place when the turn of a name comes, and the one whose code it takes. -/
def Stage.takes? (scratch live : ScopeRef) (x : Name) (a : Stage) : Option (FunctionRef × FunctionRef) :=
  match (a.machine.heap.scope live).get? x, (a.machine.heap.scope scratch).get? x with
  | some old, some new => Update.takes? a.machine.heap old new
  | _, _ => none

/-- What each function has its code from at a stage of the merge, when the unit and the hooks supply what they make
as `G` says. -/
inductive Supplies (limit : Nat) (module : ModuleRef) (m m₁ : Machine) (G : Supply) :
    List Name → Stage → Supply → Prop
  | opening : Supplies limit module m m₁ G [] (opening m.heap.newScope.1 (m.heap.module module).scope m₁) G
  | update {done : List Name} {a b : Stage} {T : Supply} {x : Name} (h : Supplies limit module m m₁ G done a T)
      (hx : Passes (Run.call limit) m.heap.newScope.1 (m.heap.module module).scope a [x] b) :
      Supplies limit module m m₁ G (done ++ [x]) b
        (T.take (a.takes? m.heap.newScope.1 (m.heap.module module).scope x))

variable {limit : Nat} {u : CodeUnit} {module : ModuleRef} {m m₁ : Machine} {G T : Supply}

theorem Supplies.reaches {xs : List Name} {a : Stage} (h : Supplies limit module m m₁ G xs a T) :
    Reaches limit module m m₁ xs a := by
  induction h with
  | opening => rfl
  | update _ hx ih => exact passes_append.2 ⟨_, ih, hx⟩

/-- At every stage it is settled what each function has its code from. -/
theorem Reaches.supplies (G : Supply) {xs : List Name} {a : Stage} (h : Reaches limit module m m₁ xs a) :
    ∃ T, Supplies limit module m m₁ G xs a T := by
  induction xs using List.reverseRecOn generalizing a with
  | nil => exact ⟨G, Passes.nil h ▸ .opening⟩
  | append_singleton xs x ih =>
    obtain ⟨b, hb, hx⟩ := passes_append.1 h
    obtain ⟨T, hT⟩ := ih hb
    exact ⟨_, hT.update hx⟩

/-- At every stage each function has what it is said to have. -/
theorem Executed.stage_kept (he : Executed limit u module m m₁) (hm : m.heap.HasModule module) (hc : m.heap.Closed)
    (hG : G.Held m₁.heap)
    (hB : ∀ hook old k, CallsHook limit u module m hook old k →
      ∀ f b, (Moment.mk (Run.callActivity k hook [old]) k).births limit f b → G f b)
    {xs todo : List Name} (hxs : sharedNames module m m₁ = xs ++ todo) {a : Stage}
    (hT : Supplies limit module m m₁ G xs a T) : G.Kept T ⟨a.journal, a.machine.heap⟩ := by
  induction hT generalizing todo with
  | opening =>
    refine Supply.Kept.start (hG.of_same ?_) _ _
    rw [opening_heap hm.newScope_ne]
    exact .of_functions rfl
  | @update done a b T x h hx ih =>
    rw [List.append_assoc, List.singleton_append] at hxs
    have ha := ih hxs
    have hclosed := (he.stage_closed hm hc hxs h.reaches).heap
    cases hx.singleton with
    | unbound hnone =>
      have htakes : a.takes? m.heap.newScope.1 (m.heap.module module).scope x = none := by
        unfold Stage.takes?
        rcases hnone with hnone | hnone
        · rw [hnone]
        · rw [hnone]
          cases (a.machine.heap.scope (m.heap.module module).scope).get? x <;> rfl
      rw [htakes]
      exact ha
    | @bound old new up j k ho hn hu =>
      have htakes : a.takes? m.heap.newScope.1 (m.heap.module module).scope x =
          Update.takes? a.machine.heap old new := by
        unfold Stage.takes?
        rw [ho, hn]
      rw [htakes]
      refine (hu.kept ha (fun f g hpair => ?_) fun hook k' hasks => ?_).of_same (.of_functions rfl)
      · obtain ⟨hf, hg⟩ := Heap.behind?_of_functionPair? hpair
        exact ⟨(Heap.behind?_within (R := .whole) hclosed (hclosed.bound ho) hf).2,
          (Heap.behind?_within (R := .whole) hclosed (hclosed.bound hn) hg).2⟩
      · exact hB hook old k' ⟨x, a, ⟨m₁, done, todo, he, hxs, h.reaches⟩, ho, new, hn, hasks⟩

end Merge

end LivePatch
