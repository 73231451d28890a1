import ReactiveScript.Value.Equality

/-
  Arithmetic and order.

  Integers of 64 bits are computed exactly and then must fit; otherwise the result is an overflow.
  A remainder is defined where the quotient is. Where one operand is a real, both are read as reals.
  Numbers compare with numbers, strings with strings by code points, booleans with booleans.
-/

namespace ReactiveScript.Operator

/-- An exact integer as a value, if it fits in 64 bits. -/
def exact (n : Int) : Except EvalError Value :=
  match Decimal.int64? n with
  | some n => .ok (.int n)
  | none => .error .integerOverflow

/-- The quotient toward zero. -/
def quotient (x y : Int64) : Except EvalError Value :=
  if y = 0 then .error .divisionByZero else exact (x.toInt.tdiv y.toInt)

/-- The remainder of the quotient toward zero, where that quotient fits. -/
def remainder (x y : Int64) : Except EvalError Value :=
  if y = 0 then .error .divisionByZero
  else match Decimal.int64? (x.toInt.tdiv y.toInt) with
    | some _ => exact (x.toInt.tmod y.toInt)
    | none => .error .integerOverflow

/-- A natural power. From the square of a power of 2 on nothing fits but powers of -1, 0 and 1. -/
def naturalPower (x : Int) (n : Nat) : Int :=
  if x.natAbs ≤ 1 then x.pow (if n = 0 then 0 else 2 - n % 2) else x.pow (min n 64)

/-- The power with an exponent that is not negative and has at most 32 bits, below `2^32`. -/
def power (x y : Int64) : Except EvalError Value :=
  if y.toInt < 4294967296 then exact (naturalPower x.toInt y.toInt.toNat)
  else .error .integerOverflow

/-- The failure of an operator on operands it does not take. -/
def cannotApply (op : String) (a b : Value) : EvalError :=
  .invalidOperands op a.typeName b.typeName

/-- Both operands as reals, if both are numbers. -/
def reals (op : String) (a b : Value) : Except EvalError (Float × Float) :=
  if a.isNumeric && b.isNumeric then do return (← a.toReal, ← b.toReal)
  else .error (cannotApply op a b)

/-- An operation on two integers or two reals. -/
def numeric (op : String) (onInts : Int64 → Int64 → Except EvalError Value)
    (onReals : Float → Float → Except EvalError Value) (a b : Value) : Except EvalError Value :=
  match a, b with
  | .int x, .int y => onInts x y
  | a, b => do
    let (x, y) ← reals op a b
    onReals x y

/-- An operation on reals that a zero divisor makes fail. -/
def nonzeroDivisor (f : Float → Float → Except EvalError Value) (x y : Float) :
    Except EvalError Value :=
  if y == 0.0 then .error .divisionByZero else f x y

/-- Subtraction. -/
def sub : Value → Value → Except EvalError Value :=
  numeric "-" (fun x y => exact (x.toInt - y.toInt)) fun x y => .ok (.real (x - y))

/-- Multiplication. -/
def mul : Value → Value → Except EvalError Value :=
  numeric "*" (fun x y => exact (x.toInt * y.toInt)) fun x y => .ok (.real (x * y))

/-- Division of reals. -/
def fdiv (a b : Value) : Except EvalError Value := do
  let (x, y) ← reals "/" a b
  nonzeroDivisor (fun x y => .ok (.real (x / y))) x y

/-- Division with an integer result. -/
def div : Value → Value → Except EvalError Value :=
  numeric "div" quotient (nonzeroDivisor fun x y => (integerOfReal (x / y)).map .int)

/-- The remainder of division. -/
def mod : Value → Value → Except EvalError Value :=
  numeric "mod" remainder (nonzeroDivisor fun x y => .ok (.real (Real.remainder x y)))

/-- Exponentiation; a negative integer exponent makes it one of reals. -/
def pow (a b : Value) : Except EvalError Value :=
  match a, b with
  | .int x, .int y =>
    if 0 ≤ y then power x y else .ok (.real (x.toFloat.pow y.toFloat))
  | a, b => do
    let (x, y) ← reals "^" a b
    return .real (x.pow y)

/-- The order of two reals, unless one is not a number. -/
def compareReals (x y : Float) : Option Ordering :=
  if x < y then some .lt else if x == y then some .eq else if y < x then some .gt else none

/-- The order of two values of comparable types. -/
def order? (a b : Value) : Except EvalError (Option Ordering) :=
  match a, b with
  | .int x, .int y => .ok (some (compare x.toInt y.toInt))
  | .string x, .string y => .ok (some (compare x y))
  | .bool x, .bool y => .ok (some (compare x.toNat y.toNat))
  | a, b =>
    if a.isNumeric && b.isNumeric then do return compareReals (← a.toReal) (← b.toReal)
    else .ok none

/-- The order of two values, or the failure of `op` on them. -/
def order (op : BinaryOp) (a b : Value) : Except EvalError Ordering := do
  Value.orFail (← order? a b) (cannotApply (Family.mnemonic op) a b)

end ReactiveScript.Operator
