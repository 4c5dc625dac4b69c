/-
The depth. Of all that happens in a run, only the body of a function is run at another depth than what it is a
part of, namely one call deeper; and whatever happens ends at the depth at which it began. So at every moment the
depth tells how many bodies are being run, and it is back where it was when a run ends, whether with a value or
with a failure. The hooks of a merge are called at the depth of the merge, which is back there as well when a hook
fails and the merge is undone.

That a call of a function is the run of its body one call deeper is said of the call itself, whose parts these are.
And that nothing but the run of a body changes the depth is said by what a run makes of functions: it is the same
for any way to call them that does at the depth of the run what the machine does.
-/
import LivePatch.Proofs.Machine.Parts
import LivePatch.Proofs.Module.Deed

namespace LivePatch

/-! ## Bodies being run -/

namespace Activity

variable {limit d n : Nat} {root p : Moment}

/-- The number of bodies that the parts of an activity are run in: a call of a function runs one. -/
def bodies : Activity → Nat
  | invoke .. => 1
  | _ => 0

/-- What begins in the course of an activity, inside so many bodies that have begun in the course of it and have
not ended. -/
inductive Inside (limit : Nat) (root : Moment) : Nat → Moment → Prop
  | start : Inside limit root 0 root
  | part {n : Nat} {p q : Moment} (h : Inside limit root n p) (hq : q ∈ p.activity.parts limit p.machine) :
      Inside limit root (n + p.activity.bodies) q

/-- A call of a function and its parts. At the limit, and with arguments that cannot be bound, it has none, and it
fails and leaves the machine as it is. Otherwise its part is its body, which is run with one call more being run, and
it comes to what the body comes to, with one call less being run. -/
inductive CallOf (limit : Nat) (f : FunctionRef) (args : List Value) (m : Machine) : List Moment → Prop
  | atLimit (hd : limit ≤ m.depth)
      (hr : Run.invoke limit f args m = .error (.failure (.recursionLimit limit)) m) : CallOf limit f args m []
  | refused {e : RunError} (hd : m.depth < limit)
      (hl : Run.bindArguments (m.heap.function f).name (m.heap.function f).state.code.params
        (m.heap.function f).state.defaults args = .error e)
      (hr : Run.invoke limit f args m = .error (.failure e) m) : CallOf limit f args m []
  | body {frame : Frame} {locals : Bindings Value} (hd : m.depth < limit)
      (hl : Run.bindArguments (m.heap.function f).name (m.heap.function f).state.code.params
        (m.heap.function f).state.defaults args = .ok locals)
      (hf : frame = ⟨(m.heap.function f).globals, (m.heap.function f).module, .function locals⟩)
      (hr : Run.invoke limit f args m = Run.returned (Stmt.runAll (Run.call limit) frame
        (m.heap.function f).state.code.body { m with depth := m.depth + 1 })) :
      CallOf limit f args m
        [⟨.runAll frame (m.heap.function f).state.code.body, { m with depth := m.depth + 1 }⟩]

/-- Something that begins inside `n` bodies, in a run that has begun at the depth `d`. -/
structure Counted (limit d n : Nat) (p : Moment) : Prop where
  begins : p.machine.depth = d + n
  ends : (p.activity.final limit p.machine).depth = d + n
  bounded : d + n ≤ max d limit
  /-- Functions are called at this depth only, up to the end and not only at the beginning. -/
  level : ∀ invoke : Run.Invoker,
    (∀ f args (k : Machine), k.depth = d + n → invoke f args k = Run.invoke limit f args k) →
      p.activity.endsBy invoke p.machine = p.activity.ending limit p.machine
  counts : ∀ f args, p.activity = .invoke f args → CallOf limit f args p.machine (p.activity.parts limit p.machine)
  /-- The body of a call ends one call deeper than the call, so that there is one to be taken away. -/
  leaves : ∀ f args, p.activity = .invoke f args → ∀ q ∈ p.activity.parts limit p.machine,
    (q.activity.final limit q.machine).depth = d + n + 1

/-- Whatever happens in a run that begins at the depth `d` begins inside some number of bodies, and the depth
counts them. -/
def CountsBodies (limit d : Nat) (root : Moment) : Prop :=
  ∀ p, Happens limit root p → (∃ n, Inside limit root n p) ∧ ∀ n, Inside limit root n p → Counted limit d n p

theorem Happens.inside (h : Happens limit root p) : ∃ n, Inside limit root n p := by
  induction h with
  | start => exact ⟨0, .start⟩
  | part _ hq ih =>
    obtain ⟨n, hn⟩ := ih
    exact ⟨_, hn.part hq⟩

theorem Inside.happens (h : Inside limit root n p) : Happens limit root p := by
  induction h with
  | start => exact .start
  | part _ hq ih => exact ih.part hq

/-- The part of the number `i`. -/
theorem Inside.nth (h : Inside limit root n p) (i : Nat) {q : Moment}
    (hq : (p.activity.parts limit p.machine)[i]? = some q) : Inside limit root (n + p.activity.bodies) q :=
  h.part (List.mem_of_getElem? hq)

theorem partDepth_eq (d : Nat) (a : Activity) : a.partDepth d = d + a.bodies := by
  cases a <;> rfl

/-- A body is run below the limit only. -/
theorem depth_of_mem_parts {q : Moment} (hq : q ∈ p.activity.parts limit p.machine) :
    q.machine.depth = p.machine.depth + p.activity.bodies ∧ q.machine.depth ≤ max p.machine.depth limit := by
  have hdepth := parts_depth hq
  rw [partDepth_eq] at hdepth
  refine ⟨hdepth, ?_⟩
  obtain ⟨a, m⟩ := p
  cases a with
  | invoke f args =>
    obtain ⟨hlt, hd⟩ := bodyPart_below hq
    exact Nat.le_trans (Nat.le_of_eq hd) (Nat.le_trans hlt (Nat.le_max_right _ _))
  | _ => exact Nat.le_trans (Nat.le_of_eq hdepth) (Nat.le_max_left _ _)

/-- By induction on the way from the run to its part, which goes one call deeper where it enters a body. -/
theorem Inside.depth_eq (h : Inside limit root n p) :
    p.machine.depth = root.machine.depth + n ∧ p.machine.depth ≤ max root.machine.depth limit := by
  induction h with
  | start => exact ⟨rfl, Nat.le_max_left _ _⟩
  | part _ hq ih =>
    obtain ⟨hbegins, hbounded⟩ := ih
    obtain ⟨hdepth, hle⟩ := depth_of_mem_parts hq
    exact ⟨by rw [hdepth, hbegins, Nat.add_assoc], by omega⟩

theorem callOf_bodyPart (limit : Nat) (f : FunctionRef) (args : List Value) (m : Machine) :
    CallOf limit f args m (bodyPart limit f args m) := by
  unfold bodyPart
  split
  · rename_i hd
    exact .atLimit hd (Run.invoke_at_limit hd)
  · rename_i hd
    replace hd := Nat.not_le.1 hd
    dsimp only
    split
    · rename_i e hl
      exact .refused hd hl (Run.invoke_refused hd hl)
    · rename_i locals hl
      exact .body hd hl rfl ((Run.invoke_entered hd hl).trans (Run.runBody_eq ..))

theorem Inside.counted (h : Inside limit root n p) : Counted limit root.machine.depth n p := by
  obtain ⟨hbegins, hbounded⟩ := h.depth_eq
  refine ⟨hbegins, (final_depth limit _ _).trans hbegins, hbegins ▸ hbounded, fun invoke hi => ?_,
    fun f args hp => ?_, fun f args hp q hq => ?_⟩
  · exact endsBy_same (fun f args k hk => hi f args k (hk.trans hbegins)) _
  · rw [hp]
    exact callOf_bodyPart limit f args p.machine
  · rw [final_depth, (depth_of_mem_parts hq).1, hbegins, hp]
    rfl

theorem countsBodies (limit : Nat) (root : Moment) : CountsBodies limit root.machine.depth root :=
  fun _ h => ⟨h.inside, fun _ hn => hn.counted⟩

end Activity

/-! ## Merges -/

/-- What relates calls, and is kept by composing runs, relates updates. -/
theorem Update.perform_related {R : ∀ {α : Type}, Run α → Run α → Prop} {call call' : Caller}
    (C : Run.Congruence @R) (hc : ∀ f args, R (call f args) (call' f args)) (old new : Value) (j : Journal) :
    R (perform call old new j) (perform call' old new j) := by
  unfold perform
  split
  · exact C.plain (Run.plain_pure _)
  · split
    · exact C.plain (Run.plain_pure _)
    · refine C.bind (C.plain (Run.plain_read _)) fun found => ?_
      cases found with
      | none => exact C.plain (Run.plain_make _)
      | some found =>
        refine C.bind (C.plain (Run.plain_make _)) fun hook => ?_
        exact C.bind (hc hook [old]) fun v => C.plain (Run.plain_pure _)

namespace Merge

section

variable {limit : Nat} {call : Caller} {d : Nat}

theorem updateNames_same (hc : ∀ f args (k : Machine), k.depth = d → call f args k = Run.call limit f args k)
    (scratch live : ScopeRef) : ∀ (xs : List Name) (s : Summary) (j : Journal) (m : Machine), m.depth = d →
      updateNames call scratch live xs s j m = updateNames (Run.call limit) scratch live xs s j m
  | [], _, _, _, _ => rfl
  | x :: xs, s, j, m, hm => by
    unfold updateNames
    split
    · rename_i old new hold hnew
      have hcall : ∀ f args, Run.LevelSame d (Run.call limit f args) (call f args) :=
        fun f args => ⟨Run.call_level limit f args, fun k hk => (hc f args k hk).symm⟩
      obtain ⟨hlevel, hsame⟩ := Update.perform_related (Run.levelSame_congruence d) hcall old new j
      rw [← hsame m hm]
      cases hr : Update.perform (Run.call limit) old new j m with
      | ok u m' => exact updateNames_same hc scratch live xs _ _ _ ((hlevel.depth_eq hr).trans hm)
      | error e m' => rfl
    · exact updateNames_same hc scratch live xs s j m hm

/-- A merge comes to the same for any two ways to call hooks that do the same at the depth of the merge. -/
theorem apply_same {m : Machine}
    (hc : ∀ f args (k : Machine), k.depth = m.depth → call f args k = Run.call limit f args k)
    (scratch live : ScopeRef) : apply call scratch live m = apply (Run.call limit) scratch live m := by
  unfold apply
  simp only
  rw [updateNames_same hc scratch live]
  rfl

end

variable {limit : Nat} {u : CodeUnit} {module : ModuleRef} {m m₁ m' : Machine} {s : Summary}

theorem Executed.depth_eq (he : Executed limit u module m m₁) : m₁.depth = m.depth :=
  (u.run_level limit _ _).depth_eq (m := { m with heap := m.heap.newScope.2 }) he

theorem Executed.merge_eq (he : Executed limit u module m m₁) :
    merge limit u module m = apply (Run.call limit) m.heap.newScope.1 (m.heap.module module).scope m₁ := by
  have hrun : u.run limit m.heap.newScope.1 (m.heap.module module).name { m with heap := m.heap.newScope.2 } =
    .ok () m₁ := he
  unfold merge
  simp only
  rw [hrun]

theorem depth_of_asks {k : Machine} {old new hook : Value} (h : Update.Asks m old new hook k) :
    k.depth = m.depth := by
  obtain ⟨_, -, -, rfl⟩ := h.found
  rfl

/-- At every stage, a merge is back at the depth where it began. -/
theorem Executed.stage_depth (he : Executed limit u module m m₁) {xs todo : List Name}
    (hxs : sharedNames module m m₁ = xs ++ todo) {a : Stage} (hp : Reaches limit module m m₁ xs a) :
    a.machine.depth = m.depth := by
  refine he.induct (I := fun _ a => a.machine.depth = m.depth) he.depth_eq ?_ hxs hp
  intro done x todo a b _ _ _ ha hstep
  cases hstep with
  | unbound => exact ha
  | @bound _ _ _ _ m₂ _ _ hu =>
    show m₂.depth = m.depth
    cases hu with
    | unchanged | replaced | inPlace => exact ha
    | @asked hook v k _ hasks hc =>
      exact ((Run.call_level limit hook _).depth_eq hc).trans ((depth_of_asks hasks).trans ha)

theorem same_depth (h : merge limit u module m = .ok s m') : m'.depth = m.depth := by
  obtain ⟨m₁, a, he, hp, -, rfl⟩ := Merge.succeeds h
  exact he.stage_depth (List.append_nil _).symm hp

/-- A hook is called at the depth where the merge began. -/
theorem CallsHook.depth_eq {hook old : Value} {k : Machine} (h : CallsHook limit u module m hook old k) :
    k.depth = m.depth := by
  obtain ⟨x, a, ⟨m₁, done, todo, he, hs, hp⟩, -, new, -, hasks⟩ := h
  exact (depth_of_asks hasks).trans (he.stage_depth hs hp)

/-- However a merge ends, it ends at the depth where it began. -/
theorem final_depth (limit : Nat) (u : CodeUnit) (module : ModuleRef) (m : Machine) :
    (Run.final (merge limit u module m)).depth = m.depth := by
  cases hr : merge limit u module m with
  | ok s m' => exact same_depth hr
  | error e m' =>
    show m'.depth = m.depth
    rcases stops hr with ⟨e', he⟩ | ⟨x, a, old, hook, k, e', m₂, ht, ha, hcall, hback⟩
    · have hlevel := u.run_level limit m.heap.newScope.1 (m.heap.module module).name
        { m with heap := m.heap.newScope.2 }
      rw [he] at hlevel
      exact hlevel
    · -- the hook comes back to its depth, and undoing the merge changes only the heap
      have hlevel := Run.call_level limit hook [old] k
      rw [hcall, CallsHook.depth_eq ⟨x, a, ht, ha⟩] at hlevel
      rcases hback with rfl | ⟨-, rfl⟩ <;> exact hlevel

end Merge

/-- What opens a deed opens it at the depth where it begins. -/
theorem Deed.Opens.depth_eq {limit : Nat} {m : Machine} {d : Deed} {root : Moment} (h : d.Opens limit m root) :
    root.machine.depth = m.depth := by
  cases h with
  | ran | unit | called => rfl
  | hook hook => exact hook.depth_eq

/-! ## The depth counts -/

/-- The running of a unit, the call of a value and a merge end at the depth at which they begin, however they end.
At every moment in between the depth is larger by the number of bodies being run, and it exceeds the limit only
when it did so at the beginning; and the depth that is counted down when a body ends is larger than zero. -/
theorem Machine.depth_counts_bodies (limit : Nat) (m : Machine) :
    (∀ (u : CodeUnit) (globals : ScopeRef) (module : Name),
      (Run.final (u.run limit globals module m)).depth = m.depth ∧
        Run.final (u.run limit globals module m) =
          (Activity.runAll ⟨globals, module, .module⟩ u.body).final limit m ∧
        Activity.CountsBodies limit m.depth ⟨.runAll ⟨globals, module, .module⟩ u.body, m⟩) ∧
    (∀ (callee : Value) (args : List Value),
      (Run.final (Run.call limit callee args m)).depth = m.depth ∧
        Run.ending (Run.call limit callee args m) = (Run.callActivity m callee args).ending limit m ∧
        Activity.CountsBodies limit m.depth ⟨Run.callActivity m callee args, m⟩) ∧
    ∀ (u : CodeUnit) (module : ModuleRef),
      (Run.final (merge limit u module m)).depth = m.depth ∧
        (∀ root, (Deed.merge u module).Opens limit m root → Activity.CountsBodies limit m.depth root) ∧
        (∀ m₁ xs todo a, Merge.Executed limit u module m m₁ → Merge.sharedNames module m m₁ = xs ++ todo →
          Merge.Reaches limit module m m₁ xs a → a.machine.depth = m.depth) ∧
        ∀ m₁ call, Merge.Executed limit u module m m₁ →
          (∀ f args (k : Machine), k.depth = m.depth → call f args k = Run.call limit f args k) →
          merge limit u module m = Merge.apply call m.heap.newScope.1 (m.heap.module module).scope m₁ := by
  refine ⟨fun u globals module => ⟨?_, u.run_final limit globals module m, Activity.countsBodies limit _⟩,
    fun callee args => ⟨Run.call_level limit callee args m, rfl, Activity.countsBodies limit _⟩,
    fun u module => ⟨Merge.final_depth limit u module m, fun root hroot => ?_, ?_, ?_⟩⟩
  · exact u.run_level limit globals module m
  · rw [← hroot.depth_eq]
    exact Activity.countsBodies limit root
  · exact fun m₁ xs todo a he hs hp => he.stage_depth hs hp
  · intro m₁ call he hc
    rw [he.merge_eq]
    exact (Merge.apply_same (fun f args k hk => hc f args k (hk.trans he.depth_eq)) _ _).symm

namespace Sample

/-- The run of a unit in which one function calls another. -/
def nestedRun : Moment := ⟨.runAll ⟨Heap.empty.newScope.1, "m", .module⟩ nested.body, nestedStart⟩

end Sample

/-- In a function that is called from another one the depth is two. Where a limit of one refuses this call, the run
fails, and the depth is zero again. -/
theorem Machine.depth_counts_bodies_nested :
    (∃ p, Activity.Inside 2 Sample.nestedRun 2 p ∧ p.activity.bodies = 0 ∧ Activity.Counted 2 0 2 p) ∧
      Run.CutOff 1 (Sample.nested.run 1 Heap.empty.newScope.1 "m" Sample.nestedStart) ∧
      (Run.final (Sample.nested.run 1 Heap.empty.newScope.1 "m" Sample.nestedStart)).depth = 0 := by
  have hroot : Activity.Inside 2 Sample.nestedRun 0 Sample.nestedRun := .start
  -- the third statement calls `g`, whose body calls `f`
  have hcall := (((hroot.nth 1 rfl).nth 1 rfl).nth 0 rfl).nth 0 rfl
  have hg := ((hcall.nth 2 rfl).nth 0 rfl).nth 0 rfl
  have hf := ((((hg.nth 0 rfl).nth 0 rfl).nth 2 rfl).nth 0 rfl).nth 0 rfl
  have hcounts := ((depth_counts_bodies 2 Sample.nestedStart).1 Sample.nested Heap.empty.newScope.1 "m").2.2
  exact ⟨⟨_, hf, rfl, (hcounts _ hf.happens).2 2 hf⟩, ⟨_, rfl⟩,
    ((depth_counts_bodies 1 Sample.nestedStart).1 Sample.nested Heap.empty.newScope.1 "m").1⟩

end LivePatch
