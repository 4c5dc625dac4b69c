/-
What parameters are bound to. A call of a function binds its parameters to the arguments and then to the last of
the defaults. Where the code and the defaults are those of one definition whose defaulted parameters come last,
each parameter that gets no argument gets the value of its own default expression, and there is always one.
-/
import LivePatch.Proofs.Machine.Definition

namespace LivePatch

/-! ## Several expressions -/

namespace Expr

variable {call : Caller} {frame : Frame}

theorem length_of_evalAll : ∀ {es : List Expr} {vs : List Value} {m k : Machine},
    evalAll call frame es m = .ok vs k → vs.length = es.length
  | [], vs, m, k, h => by
    rw [evalAll] at h
    cases h
    rfl
  | e :: es, vs, m, k, h => by
    rw [evalAll] at h
    obtain ⟨v, m₁, -, h⟩ := bind_ok h
    obtain ⟨ws, m₂, hws, h⟩ := bind_ok h
    cases h
    exact congrArg (· + 1) (length_of_evalAll hws)

theorem evalAll_append {fs : List Expr} : ∀ {es : List Expr} {ws : List Value} {m k : Machine},
    evalAll call frame (es ++ fs) m = .ok ws k →
      ∃ us vs m₁, evalAll call frame es m = .ok us m₁ ∧ evalAll call frame fs m₁ = .ok vs k ∧ ws = us ++ vs
  | [], ws, m, k, h => ⟨[], ws, m, by rw [evalAll]; rfl, h, rfl⟩
  | e :: es, ws, m, k, h => by
    rw [List.cons_append, evalAll] at h
    obtain ⟨v, m₁, hv, h⟩ := bind_ok h
    obtain ⟨vs, m₂, hvs, h⟩ := bind_ok h
    cases h
    obtain ⟨us, vs', m₃, hus, hvs', rfl⟩ := evalAll_append hvs
    refine ⟨v :: us, vs', m₃, ?_, hvs', rfl⟩
    rw [evalAll, bind_of_ok hv, bind_of_ok hus]
    rfl

end Expr

/-! ## Arguments and defaults -/

namespace Run

/-- Binds parameters as a call does, but those for which neither an argument nor a default is left to `w`. -/
def bindParamsElse (w : Value) : List Name → List Value → List Value → Bindings Value → Bindings Value
  | [], _, _, b => b
  | x :: xs, v :: vs, ds, b => bindParamsElse w xs vs ds (b.insert x v)
  | x :: xs, [], d :: ds, b => bindParamsElse w xs [] ds (b.insert x d)
  | x :: xs, [], [], b => bindParamsElse w xs [] [] (b.insert x w)

/-- Where arguments and defaults are enough, there is nothing else to bind. -/
theorem bindParamsElse_eq (w : Value) : ∀ (xs : List Name) (vs ds : List Value) (b : Bindings Value),
    xs.length ≤ vs.length + ds.length → bindParamsElse w xs vs ds b = bindParams xs vs ds b
  | [], _, _, _, _ => rfl
  | x :: xs, v :: vs, ds, b, h =>
    bindParamsElse_eq w xs vs ds (b.insert x v) (by simp only [List.length_cons] at h; omega)
  | x :: xs, [], d :: ds, b, h =>
    bindParamsElse_eq w xs [] ds (b.insert x d) (by simp only [List.length_cons, List.length_nil] at h ⊢; omega)
  | _ :: _, [], [], _, h => absurd h (by simp)

theorem get?_bindParams_of_notMem {y : Name} : ∀ {xs : List Name} (vs ds : List Value) (b : Bindings Value),
    y ∉ xs → (bindParams xs vs ds b).get? y = b.get? y
  | [], _, _, _, _ => rfl
  | x :: xs, vs, ds, b, h => by
    obtain ⟨hne, hxs⟩ := not_or.1 (mt List.mem_cons.2 h)
    have hstep : ∀ v vs ds, (bindParams xs vs ds (b.insert x v)).get? y = b.get? y := fun v vs ds => by
      rw [get?_bindParams_of_notMem vs ds _ hxs, Bindings.get?_insert, if_neg hne]
    cases vs with
    | cons v vs => exact hstep v vs ds
    | nil =>
      cases ds with
      | cons d ds => exact hstep d [] ds
      | nil => exact hstep .none [] []

/-- Each parameter is bound to what stands in its place when the defaults follow the arguments. -/
theorem get?_bindParams : ∀ {xs : List Name} (vs ds : List Value) (b : Bindings Value), xs.Nodup →
    xs.length ≤ vs.length + ds.length → ∀ (i : Nat) (hi : i < xs.length),
      (bindParams xs vs ds b).get? xs[i] = (vs ++ ds)[i]?
  | x :: xs, vs, ds, b, hn, hle, i, hi => by
    obtain ⟨hx, hn⟩ := List.nodup_cons.1 hn
    simp only [List.length_cons] at hle hi
    -- the first value goes to the first parameter, and the others to the others
    have hstep : ∀ v vs ds, xs.length ≤ vs.length + ds.length →
        (bindParams xs vs ds (b.insert x v)).get? (x :: xs)[i] = (v :: (vs ++ ds))[i]? := by
      intro v vs ds hle
      cases i with
      | zero =>
        show (bindParams xs vs ds (b.insert x v)).get? x = some v
        rw [get?_bindParams_of_notMem vs ds _ hx, Bindings.get?_insert, if_pos rfl]
      | succ i => exact get?_bindParams vs ds _ hn hle i (Nat.lt_of_succ_lt_succ hi)
    cases vs with
    | cons v vs => exact hstep v vs ds (by simp only [List.length_cons] at hle; omega)
    | nil =>
      cases ds with
      | cons d ds => exact hstep d [] ds (by simp only [List.length_cons, List.length_nil] at hle ⊢; omega)
      | nil => exact absurd hle (by simp)

end Run

/-! ## Defaulted parameters -/

/-- Parameters of which the defaulted ones come last are some without a default and then some with one. -/
theorem Spelling.defaultsLast_split {ps : List Param} (h : defaultsLast ps = true) :
    ∃ qs rs, ps = qs ++ rs ∧ (∀ q ∈ qs, q.default = none) ∧ ∀ r ∈ rs, r.default.isSome = true := by
  induction ps with
  | nil => exact ⟨[], [], rfl, nofun, nofun⟩
  | cons p ps ih =>
    unfold defaultsLast at h
    split at h
    · rename_i hp
      refine ⟨[], p :: ps, rfl, nofun, fun r hr => ?_⟩
      rcases List.mem_cons.1 hr with rfl | hr
      · exact hp
      · exact List.all_eq_true.1 h r hr
    · rename_i hp
      obtain ⟨qs, rs, rfl, hqs, hrs⟩ := ih h
      refine ⟨p :: qs, rs, rfl, fun q hq => ?_, hrs⟩
      rcases List.mem_cons.1 hq with rfl | hq
      · exact Option.not_isSome_iff_eq_none.1 hp
      · exact hqs q hq

namespace Definition

variable (b : Definition)

/-- The number of parameters without a default. -/
def required : Nat := b.params.length - (b.params.filterMap (·.default)).length

/-- A parameter has a default just when it is one of the last. -/
def DefaultsLast : Prop :=
  ∀ (i : Nat) (hi : i < b.params.length), b.params[i].default.isSome = true ↔ b.required ≤ i

/-- The value of the default expression of a parameter when the definition was carried out. It was evaluated after
the default expressions of the parameters before it. -/
def DefaultValue (i : Nat) (v : Value) : Prop :=
  ∃ e vs k k', (b.params[i]?.bind (·.default)) = some e ∧
    Expr.evalAll (Run.call b.limit) b.frame ((b.params.take i).filterMap (·.default)) b.start = .ok vs k ∧
    e.eval (Run.call b.limit) b.frame k = .ok v k'

variable {b}

/-- Where the defaulted parameters come last, the defaults before a parameter are those of the parameters between
the first defaulted one and this one. -/
theorem defaultsLast_of_wellFormed (h : b.wellFormed = true) :
    b.DefaultsLast ∧ ∀ i, b.required ≤ i → i ≤ b.params.length →
      ((b.params.take i).filterMap (·.default)).length = i - b.required := by
  obtain ⟨qs, rs, hsplit, hqs, hrs⟩ := Spelling.defaultsLast_split (Bool.and_eq_true_iff.1 h).1
  have hnone : qs.filterMap (·.default) = [] := List.filterMap_eq_nil_iff.2 hqs
  have hsome : ∀ n, ((rs.take n).filterMap (·.default)).length = (rs.take n).length := fun n =>
    List.filterMap_length_eq_length.2 fun r hr => hrs r (List.mem_of_mem_take hr)
  have hall : (rs.filterMap (·.default)).length = rs.length := List.filterMap_length_eq_length.2 hrs
  have hrequired : b.required = qs.length := by
    unfold required
    rw [hsplit, List.filterMap_append, hnone, List.nil_append, hall, List.length_append]
    omega
  constructor
  · intro i hi
    rw [hrequired]
    have hget : b.params[i]? = (qs ++ rs)[i]? := by rw [hsplit]
    rw [List.getElem?_eq_getElem hi] at hget
    by_cases hlt : i < qs.length
    · rw [List.getElem?_append_left hlt] at hget
      rw [hqs _ (List.mem_of_getElem? hget.symm)]
      simp [hlt]
    · rw [List.getElem?_append_right (Nat.not_lt.1 hlt)] at hget
      simp [hrs _ (List.mem_of_getElem? hget.symm), Nat.not_lt.1 hlt]
  · intro i hle hi
    rw [hrequired] at hle ⊢
    rw [hsplit, List.length_append] at hi
    rw [hsplit, List.take_append, List.take_of_length_le hle, List.filterMap_append, hnone, List.nil_append, hsome,
      List.length_take]
    omega

/-- The value at the place of a defaulted parameter is that of its own default expression. -/
theorem defaultValue_of_gives {ds : List Value} {k : Machine} (hw : b.wellFormed = true) (hg : b.Gives ds k) {i : Nat}
    (hle : b.required ≤ i) (hi : i < b.params.length) :
    ∃ v, ds[i - b.required]? = some v ∧ b.DefaultValue i v := by
  obtain ⟨hlast, hcount⟩ := defaultsLast_of_wellFormed hw
  obtain ⟨e, he⟩ := Option.isSome_iff_exists.1 ((hlast i hi).2 hle)
  -- the defaults are evaluated in order, so that those before this one come first among the values
  have hsplit : b.params = b.params.take i ++ b.params[i] :: b.params.drop (i + 1) := by
    rw [List.getElem_cons_drop, List.take_append_drop]
  have hdefaults : b.params.filterMap (·.default) =
      (b.params.take i).filterMap (·.default) ++ e :: (b.params.drop (i + 1)).filterMap (·.default) := by
    conv_lhs => rw [hsplit, List.filterMap_append, List.filterMap_cons_some he]
  unfold Gives at hg
  rw [hdefaults] at hg
  obtain ⟨us, vs, m₁, hus, hvs, rfl⟩ := Expr.evalAll_append hg
  rw [Expr.evalAll] at hvs
  obtain ⟨v, m₂, hv, hvs⟩ := bind_ok hvs
  obtain ⟨ws, m₃, -, hvs⟩ := bind_ok hvs
  cases hvs
  refine ⟨v, ?_, e, us, m₁, m₂, ?_, hus, hv⟩
  · have hlen : us.length = i - b.required := (Expr.length_of_evalAll hus).trans (hcount i hle (Nat.le_of_lt hi))
    rw [← hlen, List.getElem?_append_right (Nat.le_refl _), Nat.sub_self]
    rfl
  · rw [List.getElem?_eq_getElem hi]
    exact he

/-! ## Calls -/

/-- What becomes of the parameters when the function, whose code is that of the definition, is called on the machine
with some arguments. A number of arguments that does not fit is refused before the body begins, and nothing has
happened. Otherwise the call is the run of the body, with each parameter bound to its argument or to the value that
its own default expression had, whatever would be bound in the place of a missing default. -/
structure Answers (b : Definition) (limit : Nat) (f : FunctionRef) (args : List Value) (m : Machine) : Prop where
  refused : args.length < b.required ∨ b.params.length < args.length →
    Run.call limit (.function f) args m = .error (.failure
      (.arity (m.heap.function f).name b.required b.params.length args.length)) m
  entered : b.required ≤ args.length → args.length ≤ b.params.length → ∃ locals,
    Run.call limit (.function f) args m = Run.runBody limit (m.heap.function f) locals m ∧
    (∀ (i : Nat) (hi : i < b.params.length), ∃ v, locals.get? b.params[i].name = some v ∧
      (i < args.length → args[i]? = some v) ∧ (args.length ≤ i → b.DefaultValue i v)) ∧
    ∀ w, locals = Run.bindParamsElse w (m.heap.function f).state.code.params args
      ((m.heap.function f).state.defaults.drop (args.length - b.required)) .empty

theorem Fits.answers {limit : Nat} {f : FunctionRef} {args : List Value} {m : Machine}
    (hfits : b.Fits (m.heap.function f).state) (hw : b.wellFormed = true)
    (hn : (m.heap.function f).state.code.params.Nodup) (hd : m.depth < limit) : b.Answers limit f args m := by
  obtain ⟨hcode, k, hg⟩ := hfits
  have hparams : (m.heap.function f).state.code.params = b.params.map (·.name) := congrArg FunctionCode.params hcode
  have hlen : (m.heap.function f).state.defaults.length = (b.params.filterMap (·.default)).length :=
    Expr.length_of_evalAll hg
  have hle : (b.params.filterMap (·.default)).length ≤ b.params.length := List.length_filterMap_le ..
  -- the number of parameters without a default, as a call counts them
  have hmin : (b.params.map (·.name)).length - (m.heap.function f).state.defaults.length = b.required := by
    rw [List.length_map, hlen]
    rfl
  have hcall : Run.call limit (.function f) args m = Run.invoke limit f args m := rfl
  constructor
  · intro hout
    rw [hcall]
    refine Run.invoke_refused hd ?_
    rw [hparams]
    unfold Run.bindArguments
    dsimp only
    rw [hmin, List.length_map, if_pos hout]
  · intro hlo hhi
    have hbound : Run.bindArguments (m.heap.function f).name (m.heap.function f).state.code.params
        (m.heap.function f).state.defaults args = .ok (Run.bindParams (b.params.map (·.name)) args
          ((m.heap.function f).state.defaults.drop (args.length - b.required)) .empty) := by
      rw [hparams]
      unfold Run.bindArguments
      dsimp only
      rw [hmin, List.length_map, if_neg (by omega)]
    -- what is left out of the defaults is made up for by arguments
    have henough : (b.params.map (·.name)).length ≤
        args.length + ((m.heap.function f).state.defaults.drop (args.length - b.required)).length := by
      rw [List.length_map, List.length_drop, hlen]
      unfold required at hlo ⊢
      omega
    refine ⟨_, hcall.trans (Run.invoke_entered hd hbound), fun i hi => ?_, fun w => ?_⟩
    · rw [hparams] at hn
      have hget := Run.get?_bindParams args _ .empty hn henough i (by rw [List.length_map]; exact hi)
      rw [List.getElem_map] at hget
      rw [hget]
      by_cases hlt : i < args.length
      · exact ⟨args[i], by rw [List.getElem?_append_left hlt, List.getElem?_eq_getElem hlt],
          fun _ => List.getElem?_eq_getElem hlt, fun h => absurd hlt (Nat.not_lt.2 h)⟩
      · have hge := Nat.not_lt.1 hlt
        obtain ⟨v, hv, hdefault⟩ := defaultValue_of_gives hw hg (Nat.le_trans hlo hge) hi
        refine ⟨v, ?_, fun h => absurd h hlt, fun _ => hdefault⟩
        rw [List.getElem?_append_right hge, List.getElem?_drop, ← hv]
        congr 1
        omega
    · rw [hparams]
      exact (Run.bindParamsElse_eq w _ _ _ .empty henough).symm

end Definition

end LivePatch
