/-
Operators on values. Arithmetic is exact: a result that does not fit in 64 bits with a sign is an
overflow. A quotient is cut off toward zero, and a remainder has the sign of the dividend. Equality
is equality of scalars and identity of objects.
-/
import LivePatch.Machine

namespace LivePatch

namespace Operator

/-- The values that 64 bits with a sign hold. -/
def fits (n : Int) : Bool := Int64.minValue.toInt ≤ n && n ≤ Int64.maxValue.toInt

/-- A result as a value, when it fits. -/
def exact (op : String) (n : Int) : Except RunError Value :=
  if fits n then .ok (.int (Int64.ofInt n)) else .error (.integerOverflow op)

/-- An operator on two integers; none when it is not one of integers. -/
def onInts? (op : BinaryOp) (a b : Int) : Option (Except RunError Value) :=
  match op with
  | .add => some (exact op.symbol (a + b))
  | .sub => some (exact op.symbol (a - b))
  | .mul => some (exact op.symbol (a * b))
  | .div => some (if b = 0 then .error .divisionByZero else exact op.symbol (a.tdiv b))
  | .mod =>
    -- the quotient has to fit as well as the remainder
    some (if b = 0 then .error .divisionByZero
      else if fits (a.tdiv b) then exact op.symbol (a.tmod b)
      else .error (.integerOverflow op.symbol))
  | .less => some (.ok (.bool (a < b)))
  | .lessEqual => some (.ok (.bool (a ≤ b)))
  | .greater => some (.ok (.bool (b < a)))
  | .greaterEqual => some (.ok (.bool (b ≤ a)))
  | .equal | .notEqual | .and | .or => none

/-- An operator on two texts; none when it is not one of texts. Texts are ordered by the code points
of their characters. -/
def onTexts? (op : BinaryOp) (a b : String) : Option Value :=
  match op with
  | .add => some (.str (a ++ b))
  | .less => some (.bool (a < b))
  | .lessEqual => some (.bool (!(b < a)))
  | .greater => some (.bool (b < a))
  | .greaterEqual => some (.bool (!(a < b)))
  | .sub | .mul | .div | .mod | .equal | .notEqual | .and | .or => none

/-- Two operands that an operator does not take. -/
def mismatch (op : String) (left right : Value) (h : Heap) : RunError :=
  .typeMismatch op (h.typeName left) (h.typeName right)

def binary (op : BinaryOp) (left right : Value) (h : Heap) : Except RunError Value :=
  match op with
  | .equal => .ok (.bool (left = right))
  | .notEqual => .ok (.bool (left ≠ right))
  | _ =>
    match left, right with
    | .int a, .int b => (onInts? op a.toInt b.toInt).getD (.error (mismatch op.symbol left right h))
    | .str a, .str b =>
      match onTexts? op a b with
      | some v => .ok v
      | none => .error (mismatch op.symbol left right h)
    | _, _ => .error (mismatch op.symbol left right h)

def unary (op : UnaryOp) (operand : Value) (h : Heap) : Except RunError Value :=
  match op with
  | .not => .ok (.bool (!operand.isTruthy))
  | .neg =>
    match operand with
    | .int n => exact op.symbol (-n.toInt)
    | v => .error (mismatch op.symbol v v h)

end Operator

end LivePatch
