/-
The laps of the readers. The loops of the readers with a bound are made of the same laps as those without
one, and a lap that goes on has passed a token.
-/
import LivePatch.Proofs.Syntax.Agreeing

namespace LivePatch

/-! ## What a lap passes -/

namespace Passes

variable {α : Type} {l : Span} {P : List PlacedToken → α → Prop}

theorem operatorLap {op? : Token → Option BinaryOp} {operand : Reader Expr} {Q : List PlacedToken → Expr → Prop}
    (hr : ∀ l, Passes l operand Q) (left : Expr) (l : Span) :
    Passes l (Lap.operator op? operand left) fun ts o => ∀ a, o = .again a → ts ≠ [] :=
  .operator (.pure nofun) fun _ _ _ => .bind (hr _) fun _ _ _ => .pure fun _ _ => List.cons_ne_nil _ _

theorem trailerLap {args : Reader (List Expr)} {Q : List PlacedToken → List Expr → Prop}
    (hr : ∀ l, Passes l args Q) (e : Expr) (l : Span) :
    Passes l (Lap.trailer args e) fun ts o => ∀ a, o = .again a → ts ≠ [] := by
  refine .eat_ite (fun _ _ => ?_) (.eat_ite (fun _ _ => ?_) (.pure nofun))
  · exact .bind (hr _) fun _ _ _ => .last (.pure fun _ _ => List.cons_ne_nil _ _)
  · exact .ident fun _ _ _ => .pure fun _ _ => List.cons_ne_nil _ _

theorem separatedLap {stop : Token} {item : List α → Reader α} (hr : ∀ as l, Passes l (item as) P)
    (as : List α) (l : Span) :
    Passes l (Lap.separated stop item as) fun ts o => ∀ a, o = .again a → ts ≠ [] := by
  refine .at? fun b => .ite (fun _ => .pure nofun) fun _ => .bind (hr as l) fun ts _ _ => ?_
  exact .eat_ite (fun _ _ => .pure fun _ _ => by simp) (.pure nofun)

theorem untilSignLap {stop : Token} {item : Reader α} (hr : ∀ l, Passes l item P)
    (hP : ∀ {ts a}, P ts a → ts ≠ []) (as : List α) (l : Span) :
    Passes l (Lap.untilSign stop item as) fun ts o => ∀ a, o = .again a → ts ≠ [] := by
  refine .peek fun o => ?_
  cases o with
  | none => exact .pure nofun
  | some t =>
    refine .ite (fun _ => .pure nofun) fun _ => .bind (hr l) fun ts _ h => .pure fun _ _ => ?_
    rw [List.append_nil]
    exact hP h

theorem untilEndLap {item : Reader α} (hr : ∀ l, Passes l item P) (hP : ∀ {ts a}, P ts a → ts ≠ [])
    (as : List α) (l : Span) :
    Passes l (Lap.untilEnd item as) fun ts o => ∀ a, o = .again a → ts ≠ [] := by
  refine .peek fun o => ?_
  cases o with
  | none => exact .pure nofun
  | some t =>
    refine .bind (hr l) fun ts _ h => .pure fun _ _ => ?_
    rw [List.append_nil]
    exact hP h

end Passes

/-! ## Loops with a bound are made of laps -/

namespace Reader

variable {α : Type}

/-- Puts what is read behind `as`. -/
def behind (as : List α) (r : Reader (List α)) : Reader (List α) := do
  let bs ← r
  return as ++ bs

theorem behind_nil (r : Reader (List α)) : behind [] r = r := by
  unfold behind
  simp only [List.nil_append, bind_pure]

theorem chainFrom_succ (op? : Token → Option BinaryOp) (operand : Reader Expr) (k : Nat) (left : Expr) :
    chainFrom op? operand (k + 1) left =
      Lap.operator op? operand left >>= Lap.next (chainFrom op? operand k) := by
  rw [chainFrom]
  unfold Lap.operator
  rw [bind_assoc]
  congr; funext o
  cases o.bind op? with
  | none => rfl
  | some op =>
    simp only [bind_assoc, pure_bind, Lap.next]
    rfl

theorem trailersFrom_succ (expr : Reader Expr) (k : Nat) (e : Expr) :
    trailersFrom expr (k + 1) e =
      Lap.trailer (arguments expr k) e >>= Lap.next (trailersFrom expr k) := by
  rw [trailersFrom]
  unfold Lap.trailer
  rw [bind_assoc]
  congr; funext called
  cases called with
  | true =>
    simp only [if_true, bind_assoc, pure_bind, Lap.next]
    rfl
  | false =>
    simp only [Bool.false_eq_true, if_false]
    rw [bind_assoc]
    congr; funext dotted
    cases dotted with
    | true =>
      simp only [if_true, bind_assoc, pure_bind, Lap.next]
      rfl
    | false => rfl

theorem separated_succ (stop : Token) (item : Reader α) (k : Nat) (as : List α) :
    behind as (separated stop item (k + 1)) =
      Lap.separated stop (fun _ => item) as >>=
        Lap.next fun as => behind as (separated stop item k) := by
  rw [separated]
  unfold behind Lap.separated
  rw [bind_assoc, bind_assoc]
  congr; funext closed
  cases closed with
  | true => simp only [if_true, pure_bind, List.append_nil, Lap.next]
  | false =>
    simp only [Bool.false_eq_true, if_false, bind_assoc]
    congr; funext a; congr; funext more
    cases more with
    | true => simp only [if_true, bind_assoc, pure_bind, Lap.next, List.append_assoc, List.singleton_append]
    | false => rfl

theorem untilSign_succ (stop : Token) (item : Reader α) (k : Nat) (as : List α) :
    behind as (untilSign stop item (k + 1)) =
      Lap.untilSign stop item as >>=
        Lap.next fun as => behind as (untilSign stop item k) := by
  rw [untilSign]
  unfold behind Lap.untilSign
  rw [bind_assoc, bind_assoc]
  congr; funext o
  cases o with
  | none => simp only [pure_bind, List.append_nil, Lap.next]
  | some t =>
    by_cases ht : t = stop
    · simp only [ht, if_true, pure_bind, List.append_nil, Lap.next]
    · simp only [ht, if_false, bind_assoc, pure_bind, Lap.next, List.append_assoc, List.singleton_append]

theorem untilEnd_succ (item : Reader α) (k : Nat) (as : List α) :
    behind as (untilEnd item (k + 1)) =
      Lap.untilEnd item as >>= Lap.next fun as => behind as (untilEnd item k) := by
  rw [untilEnd]
  unfold behind Lap.untilEnd
  rw [bind_assoc, bind_assoc]
  congr; funext o
  cases o with
  | none => simp only [pure_bind, List.append_nil, Lap.next]
  | some t => simp only [bind_assoc, pure_bind, Lap.next, List.append_assoc, List.singleton_append]

/-- Whether a parameter needs a default is read off from those before it. -/
theorem params_lap (expr : Reader Expr) (k : Nat) (ps : List Param) :
    behind ps (params expr (ps.any (·.default.isSome)) (k + 1)) =
      Lap.separated (.sign .rightParen) (fun ps => param expr (ps.any (·.default.isSome))) ps >>=
        Lap.next fun ps => behind ps (params expr (ps.any (·.default.isSome)) k) := by
  rw [params_succ]
  unfold behind Lap.separated moreParams
  rw [bind_assoc, bind_assoc]
  congr; funext closed
  cases closed with
  | true => simp only [if_true, pure_bind, List.append_nil, Lap.next]
  | false =>
    simp only [Bool.false_eq_true, if_false, bind_assoc]
    congr; funext p; congr; funext more
    cases more with
    | true =>
      simp only [if_true, bind_assoc, pure_bind, Lap.next, List.append_assoc, List.singleton_append,
        List.any_append, List.any_cons, List.any_nil, Bool.or_false]
    | false => rfl

/-- Only a bracket is followed by another expression. -/
theorem primary_eq (expr : Reader Expr) : primary expr = (do
      if ← at? (.sign .leftParen) then
        let start ← expect (.sign .leftParen)
        let inner ← expr
        let close ← expect (.sign .rightParen)
        return inner.withSpan (start.merge close)
      else primary (expected .expression)) := by
  funext c
  obtain ⟨l, rest⟩ := c
  cases rest with
  | nil => rfl
  | cons p rest =>
    obtain ⟨t, s⟩ := p
    cases t with
    | sign g => cases g <;> rfl
    | keyword k => cases k <;> rfl
    | _ => rfl

end Reader


/-! ## Laps agree -/

namespace Attempt.Agrees

variable {α : Type} {n : Nat} {P : List PlacedToken → α → Prop}

theorem operatorLap {op? : Token → Option BinaryOp} {m : Nat → Attempt Expr} {operand : Reader Expr}
    {Q : List PlacedToken → Expr → Prop} (hm : Agrees n m operand) (hpass : ∀ l, Passes l operand Q)
    (left : Expr) :
    Agrees n (fun d => Lap.operator op? (m d) left) (Lap.operator op? operand left) :=
  operator pure fun _ => (hm.mono (Nat.sub_le n 1)).keep hpass fun _ => pure

theorem trailerLap {m : Nat → Attempt (List Expr)} {args : Reader (List Expr)}
    {Q : List PlacedToken → List Expr → Prop} (hm : Agrees (n - 1) m args) (hpass : ∀ l, Passes l args Q)
    (e : Expr) : Agrees n (fun d => Lap.trailer (m d) e) (Lap.trailer args e) := by
  refine eat_ite ?_ (eat_ite (ident fun _ => pure) pure)
  exact hm.keep hpass fun es => last fun _ => pure

theorem separatedLap {stop : Token} {m : Nat → List α → Attempt α} {item : List α → Reader α}
    (hm : ∀ as, Agrees n (m · as) (item as)) (hpass : ∀ as l, Passes l (item as) P) (as : List α) :
    Agrees n (fun d => Lap.separated stop (m d) as) (Lap.separated stop item as) := by
  refine at? fun b => ite (fun _ => pure) fun _ => ?_
  exact (hm as).keep (hpass as) fun a => eat_ite pure pure

theorem untilSignLap {stop : Token} {m : Nat → Attempt α} {item : Reader α} (hm : Agrees n m item)
    (hpass : ∀ l, Passes l item P) (as : List α) :
    Agrees n (fun d => Lap.untilSign stop (m d) as) (Lap.untilSign stop item as) := by
  refine peek fun o => ?_
  cases o with
  | none => exact pure
  | some t => exact ite (fun _ => pure) fun _ => hm.keep hpass fun a => pure

/-- The loop over the items in braces. -/
theorem untilSign {k : Nat} {stop : Token} {go : Nat → List α → Attempt (List α)} {m : Nat → Attempt α}
    {item : Reader α} (hgo : ∀ d as, go (d + 1) as = Lap.untilSign stop (m d) as >>= Lap.next (go d))
    (hm : Agrees n m item) (hpass : ∀ l, Passes l item P) (hP : ∀ {ts a}, P ts a → ts ≠ []) (hk : n ≤ k) :
    Agrees n (go · []) (Reader.untilSign stop item k) := by
  rw [← Reader.behind_nil (Reader.untilSign stop item k)]
  refine loop (f := fun k as => Reader.behind as (Reader.untilSign stop item k)) hgo
    (Reader.untilSign_succ stop item) ?_ ?_ [] hk (Nat.le_refl n)
  · exact fun _ => Passes.untilSignLap hpass hP
  · exact fun _ _ as _ hn => untilSignLap (hm.mono hn) hpass as

theorem untilEndLap {m : Nat → Attempt α} {item : Reader α} (hm : Agrees n m item)
    (hpass : ∀ l, Passes l item P) (as : List α) :
    Agrees n (fun d => Lap.untilEnd (m d) as) (Lap.untilEnd item as) := by
  refine peek fun o => ?_
  cases o with
  | none => exact pure
  | some t => exact hm.keep hpass fun a => pure

end Attempt.Agrees

end LivePatch
