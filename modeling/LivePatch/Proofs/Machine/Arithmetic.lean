/-
Arithmetic. An expression of numbers, names of numbers and signs of arithmetic asks for one operation at
each sign, on numbers that are as large as they come. Evaluating it does these operations from left to
right, each after those that its operands ask for, and stops at the first one that divides by zero or whose
result 64 bits do not hold; without such a one its value is the exact one.
-/
import LivePatch.Machine.Run
import LivePatch.Proofs.Sequence

namespace LivePatch

/-- The signs that stand between two numbers. -/
inductive ArithOp where
  | add | sub | mul | div | mod
  deriving DecidableEq, Repr

namespace ArithOp

/-- The sign among all those that stand between two operands. -/
def sign : ArithOp → BinaryOp
  | add => .add
  | sub => .sub
  | mul => .mul
  | div => .div
  | mod => .mod

/-- The exact result. A quotient is that of the magnitudes, cut off, with the sign that the two signs make;
a remainder is that of the magnitudes with the sign of the dividend. -/
def exact (op : ArithOp) (a b : Int) : Int :=
  match op with
  | add => a + b
  | sub => a - b
  | mul => a * b
  | div => a.sign * b.sign * (a.natAbs / b.natAbs : Nat)
  | mod => a.sign * (a.natAbs % b.natAbs : Nat)

end ArithOp

/-- An expression of arithmetic, with the places where its parts stand. -/
inductive Arith where
  | number (n : Int64) (span : Span)
  | name (x : Name) (span : Span)
  | binary (op : ArithOp) (left right : Arith) (span : Span)
  | minus (operand : Arith) (span : Span)

/-- One operation, with the numbers it is done on. -/
inductive Operation where
  | binary (op : ArithOp) (a b : Int)
  | minus (a : Int)
  deriving DecidableEq, Repr

namespace Operation

/-- The sign that the operation is written with. -/
def symbol : Operation → String
  | binary op _ _ => op.sign.symbol
  | minus _ => UnaryOp.neg.symbol

/-- The exact result. -/
def exact : Operation → Int
  | binary op a b => op.exact a b
  | minus a => -a

/-- Whether the operation divides by zero. -/
def byZero : Operation → Bool
  | binary .div _ b | binary .mod _ b => b = 0
  | _ => false

/-- Whether the operation is the remainder that goes with the one quotient of two numbers that 64 bits do not
hold, that of the least number by minus one. -/
def isLeastRemainder : Operation → Bool
  | binary .mod a b => a = Int64.minValue.toInt && b = -1
  | _ => false

/-- Whether the operation overflows: 64 bits do not hold its result, or not the quotient it goes with. -/
def overflows (o : Operation) : Bool :=
  o.isLeastRemainder || (o.exact < Int64.minValue.toInt || Int64.maxValue.toInt < o.exact)

/-- What is wrong with the operation, if anything is. -/
def fault? (o : Operation) : Option RunError :=
  if o.byZero then some .divisionByZero
  else if o.overflows then some (.integerOverflow o.symbol)
  else none

end Operation

namespace Arith

/-- The expression as code. -/
def expr : Arith → Expr
  | number n s => .int n s
  | name x s => .ident x s
  | binary op left right s => .binary op.sign left.expr right.expr s
  | minus operand s => .unary .neg operand.expr s

/-- The names that stand in the expression. -/
def names : Arith → List Name
  | number _ _ => []
  | name x _ => [x]
  | binary _ left right _ => left.names ++ right.names
  | minus operand _ => operand.names

variable (env : Name → Int64)

/-- The exact number that the expression stands for. -/
def exact : Arith → Int
  | number n _ => n.toInt
  | name x _ => (env x).toInt
  | binary op left right _ => op.exact left.exact right.exact
  | minus operand _ => -operand.exact

/-- The operations that the expression asks for, in the order in which they are done. -/
def operations : Arith → List Operation
  | number _ _ | name _ _ => []
  | binary op left right _ =>
    left.operations ++ right.operations ++ [.binary op (left.exact env) (right.exact env)]
  | minus operand _ => operand.operations ++ [.minus (operand.exact env)]

end Arith

/-! ## One operation -/

section

variable {a b : Int}

theorem Operator.fits_iff {n : Int} :
    Operator.fits n = true ↔ Int64.minValue.toInt ≤ n ∧ n ≤ Int64.maxValue.toInt := by
  simp [Operator.fits]

theorem Operator.toInt_ofInt {n : Int} (hn : Operator.fits n = true) : (Int64.ofInt n).toInt = n := by
  obtain ⟨hl, hu⟩ := Operator.fits_iff.mp hn
  rw [Int64.toInt_minValue] at hl
  rw [Int64.toInt_maxValue] at hu
  exact Int64.toInt_ofInt_of_le hl (by omega)

theorem Operator.fits_toInt (n : Int64) : Operator.fits n.toInt = true :=
  Operator.fits_iff.mpr ⟨n.minValue_le_toInt, n.toInt_le⟩

/-- Cutting off toward zero divides the magnitudes. -/
theorem ArithOp.exact_div (a b : Int) : ArithOp.div.exact a b = a.tdiv b := by
  show a.sign * b.sign * (a.natAbs / b.natAbs : Nat) = _
  rw [← Int.sign_mul_natAbs (a.tdiv b), Int.sign_tdiv, Int.natAbs_tdiv]
  split
  · rename_i hlt
    rw [Nat.div_eq_of_lt hlt]
    simp
  · rfl

theorem ArithOp.exact_mod (a b : Int) : ArithOp.mod.exact a b = a.tmod b := by
  show a.sign * (a.natAbs % b.natAbs : Nat) = _
  rw [← Int.sign_mul_natAbs (a.tmod b), Int.sign_tmod, Int.natAbs_tmod]
  split
  · rename_i hd
    rw [Nat.mod_eq_zero_of_dvd (Int.natAbs_dvd_natAbs.mpr hd)]
    simp
  · rfl

/-- A remainder is no larger than the dividend. -/
theorem Operator.fits_mod (ha : Operator.fits a = true) (b : Int) :
    Operator.fits (ArithOp.mod.exact a b) = true := by
  rw [ArithOp.exact_mod]
  rw [Operator.fits_iff] at ha ⊢
  have hm : (a.tmod b).natAbs ≤ a.natAbs := by
    rw [Int.natAbs_tmod]
    exact Nat.mod_le _ _
  have hmin : Int64.minValue.toInt = -2 ^ 63 := Int64.toInt_minValue
  have hmax : Int64.maxValue.toInt = 2 ^ 63 - 1 := Int64.toInt_maxValue
  rcases Int.le_total 0 a with h | h
  · have := Int.tmod_nonneg b h
    omega
  · have := Int.tmod_nonneg b (Int.neg_nonneg_of_nonpos h)
    rw [Int.neg_tmod] at this
    omega

/-- A quotient by two or more is at most half of the dividend, so that only the one by minus one can be too
large, and that only for the least number. -/
theorem Operator.fits_tdiv (ha : Operator.fits a = true) (hb : b ≠ 0) :
    Operator.fits (a.tdiv b) = true ↔ ¬(a = Int64.minValue.toInt ∧ b = -1) := by
  rw [Operator.fits_iff] at ha ⊢
  have hmin : Int64.minValue.toInt = -2 ^ 63 := Int64.toInt_minValue
  have hmax : Int64.maxValue.toInt = 2 ^ 63 - 1 := Int64.toInt_maxValue
  have hq : (a.tdiv b).natAbs = a.natAbs / b.natAbs := Int.natAbs_tdiv a b
  by_cases hone : b.natAbs = 1
  · rcases show b = 1 ∨ b = -1 by omega with rfl | rfl
    · rw [Int.tdiv_one]
      omega
    · rw [Int.tdiv_neg, Int.tdiv_one]
      omega
  · have hhalf : a.natAbs / b.natAbs ≤ a.natAbs / 2 := Nat.div_le_div_left (by omega) (by decide)
    omega

end

/-- What an operation gives, on numbers that 64 bits hold: its fault, or the exact result. -/
def Operation.Gives (o : Operation) (r : Except RunError Value) : Prop :=
  (∃ e, o.fault? = some e ∧ r = .error e) ∨
    ∃ n : Int64, o.fault? = none ∧ n.toInt = o.exact ∧ r = .ok (.int n)

/-- A result that has to fit is given, or it is an overflow. -/
theorem Operation.gives_exact {o : Operation} (hz : o.byZero = false)
    (ho : o.overflows = !Operator.fits o.exact) : o.Gives (Operator.exact o.symbol o.exact) := by
  unfold Operator.exact
  cases hf : Operator.fits o.exact with
  | true =>
    refine .inr ⟨.ofInt o.exact, ?_, Operator.toInt_ofInt hf, rfl⟩
    simp [fault?, hz, ho, hf]
  | false =>
    refine .inl ⟨.integerOverflow o.symbol, ?_, rfl⟩
    simp [fault?, hz, ho, hf]

theorem Operator.not_fits (n : Int) :
    (n < Int64.minValue.toInt || Int64.maxValue.toInt < n : Bool) = !Operator.fits n := by
  simp [Operator.fits, Bool.not_and, ← decide_not]

theorem Operation.divides_by_zero {o : Operation} (hz : o.byZero = true) :
    o.Gives (.error .divisionByZero) :=
  .inl ⟨.divisionByZero, by simp [fault?, hz], rfl⟩

/-- A remainder overflows with its quotient, since it fits by itself. -/
theorem Operation.overflows_mod {a b : Int} (ha : Operator.fits a = true) (hb : b ≠ 0) :
    (Operation.binary .mod a b).overflows = !Operator.fits (a.tdiv b) := by
  show ((decide _ && decide _) || (decide (ArithOp.mod.exact a b < _) || decide (_ < ArithOp.mod.exact a b))) = _
  rw [Operator.not_fits, Operator.fits_mod ha b, Bool.not_true, Bool.or_false, ← Bool.decide_and,
    ← Bool.not_eq_eq_eq_not, ← decide_not, Bool.eq_iff_iff, decide_eq_true_iff]
  exact (Operator.fits_tdiv ha hb).symm

/-- Two integers and a sign of arithmetic. -/
theorem Operator.binary_gives (op : ArithOp) (a b : Int64) (h : Heap) :
    (Operation.binary op a.toInt b.toInt).Gives (Operator.binary op.sign (.int a) (.int b) h) := by
  have ha := Operator.fits_toInt a
  cases op with
  | add => exact Operation.gives_exact rfl (Operator.not_fits _)
  | sub => exact Operation.gives_exact rfl (Operator.not_fits _)
  | mul => exact Operation.gives_exact rfl (Operator.not_fits _)
  | div =>
    show Operation.Gives _ (if b.toInt = 0 then _ else Operator.exact _ (a.toInt.tdiv b.toInt))
    split
    · rename_i hb
      exact Operation.divides_by_zero (decide_eq_true hb)
    · rename_i hb
      rw [← ArithOp.exact_div]
      exact Operation.gives_exact (decide_eq_false hb) (Operator.not_fits _)
  | mod =>
    show Operation.Gives _ (if b.toInt = 0 then _
      else if Operator.fits (a.toInt.tdiv b.toInt) then Operator.exact _ (a.toInt.tmod b.toInt) else _)
    split
    · rename_i hb
      exact Operation.divides_by_zero (decide_eq_true hb)
    · rename_i hb
      have hz : (Operation.binary .mod a.toInt b.toInt).byZero = false := decide_eq_false hb
      have ho := Operation.overflows_mod ha hb
      split
      · rename_i hf
        rw [← ArithOp.exact_mod]
        -- the quotient fits, and the remainder always does
        exact Operation.gives_exact hz (ho.trans (congrArg not (hf.trans (Operator.fits_mod ha b.toInt).symm)))
      · rename_i hf
        refine .inl ⟨.integerOverflow "%", ?_, rfl⟩
        simp only [Operation.fault?, hz, ho, hf]
        rfl

theorem Operator.unary_gives (a : Int64) (h : Heap) :
    (Operation.minus a.toInt).Gives (Operator.unary .neg (.int a) h) :=
  Operation.gives_exact rfl (Operator.not_fits _)

/-! ## A whole expression -/

namespace Arith

variable {env : Name → Int64} {call : Caller} {frame : Frame} {m : Machine}

/-- What an expression of arithmetic comes to: the fault of its first operation that has one, or the exact
number. -/
def Comes (env : Name → Int64) (t : Arith) (m : Machine)
    (r : EStateM.Result (Halt RunError) Machine Value) : Prop :=
  (∃ e, (t.operations env).findSome? Operation.fault? = some e ∧ r = .error (.failure e) m) ∨
    ∃ n : Int64, (t.operations env).findSome? Operation.fault? = none ∧ n.toInt = t.exact env ∧
      r = .ok (.int n) m

theorem read_bind {α β : Type} (g : Heap → α) (f : α → Run β) : (Run.read g >>= f) m = f (g m.heap) m := rfl

theorem operate_of_ok {f : Heap → Except RunError Value} {v : Value} (h : f m.heap = .ok v) :
    Run.operate f m = .ok v m := by
  unfold Run.operate
  rw [read_bind, h]
  rfl

theorem operate_of_error {f : Heap → Except RunError Value} {e : RunError} (h : f m.heap = .error e) :
    Run.operate f m = .error (.failure e) m := by
  unfold Run.operate
  rw [read_bind, h]
  rfl

/-- The operation of an expression is the last one it asks for. -/
theorem Comes.operate {t : Arith} {before : List Operation} {o : Operation}
    {f : Heap → Except RunError Value} (ht : t.operations env = before ++ [o])
    (hv : t.exact env = o.exact) (hb : before.findSome? Operation.fault? = none)
    (ho : o.Gives (f m.heap)) : t.Comes env m (Run.operate f m) := by
  have hops : (t.operations env).findSome? Operation.fault? = o.fault? := by
    rw [ht, List.findSome?_append, hb]
    simp
  rcases ho with ⟨e, he, hf⟩ | ⟨n, hn, hx, hf⟩
  · exact .inl ⟨e, hops.trans he, operate_of_error hf⟩
  · exact .inr ⟨n, hops.trans hn, hx.trans hv.symm, operate_of_ok hf⟩

/-- An expression of arithmetic evaluates its operands and then operates. -/
theorem eval_binary (op : ArithOp) (left right : Arith) (s : Span) :
    (binary op left right s).expr.eval call frame = (do
      let v ← left.expr.eval call frame
      let w ← right.expr.eval call frame
      Run.operate (Operator.binary op.sign v w)) := by
  show Expr.eval call frame (.binary op.sign left.expr right.expr s) = _
  rw [Expr.eval]
  cases op <;> rfl

theorem eval_minus (operand : Arith) (s : Span) :
    (minus operand s).expr.eval call frame = (do
      let v ← operand.expr.eval call frame
      Run.operate (Operator.unary .neg v)) := by
  show Expr.eval call frame (.unary .neg operand.expr s) = _
  rw [Expr.eval]

/-- By induction on the expression: the operands leave the machine as it is, so that each part runs on it. -/
theorem eval_comes (call : Caller) (t : Arith)
    (hx : ∀ x ∈ t.names, frame.lookup? m.heap x = some (.int (env x))) :
    t.Comes env m (t.expr.eval call frame m) := by
  induction t with
  | number n s =>
    refine .inr ⟨n, rfl, rfl, ?_⟩
    show Expr.eval call frame (.int n s) m = _
    rw [Expr.eval]
    rfl
  | name x s =>
    refine .inr ⟨env x, rfl, rfl, ?_⟩
    show Expr.eval call frame (.ident x s) m = _
    rw [Expr.eval]
    unfold Run.valueOfName
    rw [read_bind, hx x (List.mem_singleton_self x)]
    rfl
  | binary op left right s ihl ihr =>
    rw [eval_binary]
    have hops : (binary op left right s).operations env =
        (left.operations env ++ right.operations env) ++ [.binary op (left.exact env) (right.exact env)] :=
      rfl
    rcases ihl fun x h => hx x (List.mem_append_left _ h) with ⟨e, he, hl⟩ | ⟨a, hla, ha, hl⟩
    · refine .inl ⟨e, ?_, bind_of_error hl _⟩
      rw [hops, List.findSome?_append, List.findSome?_append, he]
      rfl
    · rw [bind_of_ok hl]
      rcases ihr fun x h => hx x (List.mem_append_right _ h) with ⟨e, he, hr⟩ | ⟨b, hrb, hb, hr⟩
      · refine .inl ⟨e, ?_, bind_of_error hr _⟩
        rw [hops, List.findSome?_append, List.findSome?_append, hla, he]
        rfl
      · rw [bind_of_ok hr]
        rw [← ha, ← hb] at hops
        refine Comes.operate hops ?_ ?_ (Operator.binary_gives op a b m.heap)
        · show op.exact (left.exact env) (right.exact env) = op.exact a.toInt b.toInt
          rw [ha, hb]
        · rw [List.findSome?_append, hla, hrb]
          rfl
  | minus operand s ih =>
    rw [eval_minus]
    have hops : (minus operand s).operations env =
        operand.operations env ++ [.minus (operand.exact env)] := rfl
    rcases ih hx with ⟨e, he, ho⟩ | ⟨a, hoa, ha, ho⟩
    · refine .inl ⟨e, ?_, bind_of_error ho _⟩
      rw [hops, List.findSome?_append, he]
      rfl
    · rw [bind_of_ok ho]
      rw [← ha] at hops
      refine Comes.operate hops ?_ hoa (Operator.unary_gives a m.heap)
      show -operand.exact env = -a.toInt
      rw [ha]

/-- An expression of arithmetic has a value exactly when none of its operations, on the exact numbers, has
a fault; the value is then the exact number. Otherwise its error is the fault of the first operation that
has one, in the order in which they are done: a division by zero, or the overflow of its sign. Either way
the machine is left as it was. -/
theorem eval_exact (t : Arith) (call : Caller) (frame : Frame) (m : Machine) (env : Name → Int64)
    (hx : ∀ x ∈ t.names, frame.lookup? m.heap x = some (.int (env x))) :
    ((∃ v m', t.expr.eval call frame m = .ok v m') ↔ ∀ o ∈ t.operations env, o.fault? = none) ∧
      ((∀ o ∈ t.operations env, o.fault? = none) →
        ∃ n : Int64, t.expr.eval call frame m = .ok (.int n) m ∧ n.toInt = t.exact env) ∧
      ∀ before o after e, t.operations env = before ++ o :: after →
        (∀ p ∈ before, p.fault? = none) → o.fault? = some e →
          t.expr.eval call frame m = .error (.failure e) m := by
  rw [← List.findSome?_eq_none_iff]
  rcases eval_comes call t hx with ⟨e, he, hr⟩ | ⟨n, hn, hx, hr⟩
  · refine ⟨⟨?_, ?_⟩, ?_, ?_⟩
    · rintro ⟨v, m', hv⟩
      rw [hr] at hv
      cases hv
    · intro hnone
      rw [he] at hnone
      cases hnone
    · intro hnone
      rw [he] at hnone
      cases hnone
    · intro before o after e' hops hb ho
      rw [List.findSome?_eq_some_iff.mpr ⟨before, o, after, hops, ho, hb⟩] at he
      cases he
      exact hr
  · refine ⟨⟨fun _ => hn, fun _ => ⟨_, _, hr⟩⟩, fun _ => ⟨n, hr, hx⟩, ?_⟩
    intro before o after e hops _ ho
    rw [List.findSome?_eq_none_iff] at hn
    rw [hn o (hops ▸ List.mem_append_right _ List.mem_cons_self)] at ho
    cases ho

namespace Sample

/-- The body of a function in which `x` is minus one. -/
def minusOne : Frame := ⟨⟨0⟩, "m", .function (Bindings.empty.insert "x" (.int (-1)))⟩

/-- `-7 / 2 * 2 + -7 % 2` -/
def division : Arith :=
  .binary .add
    (.binary .mul (.binary .div (.minus (.number 7 .dummy) .dummy) (.number 2 .dummy) .dummy)
      (.number 2 .dummy) .dummy)
    (.binary .mod (.minus (.number 7 .dummy) .dummy) (.number 2 .dummy) .dummy) .dummy

/-- `(x * 9223372036854775807 - 1) % x + 1 / 0` -/
def least : Arith :=
  .binary .add
    (.binary .mod
      (.binary .sub (.binary .mul (.name "x" .dummy) (.number Int64.maxValue .dummy) .dummy)
        (.number 1 .dummy) .dummy)
      (.name "x" .dummy) .dummy)
    (.binary .div (.number 1 .dummy) (.number 0 .dummy) .dummy) .dummy

end Sample

theorem eval_exact_division_least :
    (∃ n : Int64, Sample.division.expr.eval (fun _ _ => throw .divergence) Sample.minusOne ⟨.empty, 0⟩ =
        .ok (.int n) ⟨.empty, 0⟩ ∧ n.toInt = -7) ∧
      Sample.least.expr.eval (fun _ _ => throw .divergence) Sample.minusOne ⟨.empty, 0⟩ =
        .error (.failure (.integerOverflow "%")) ⟨.empty, 0⟩ := by
  refine ⟨(eval_exact Sample.division _ Sample.minusOne ⟨.empty, 0⟩ (fun _ => -1) (by decide)).2.1
    (by decide), ?_⟩
  have hx : ∀ x ∈ Sample.least.names, Sample.minusOne.lookup? Heap.empty x = some (.int (-1)) := by decide
  refine (eval_exact Sample.least _ Sample.minusOne ⟨.empty, 0⟩ (fun _ => -1) hx).2.2
    [.binary .mul (-1) (2 ^ 63 - 1), .binary .sub (-2 ^ 63 + 1) 1] (.binary .mod (-2 ^ 63) (-1))
    [.binary .div 1 0, .binary .add 0 0] _ ?_ ?_ ?_ <;> decide

end Arith

end LivePatch
