import ReactiveScript.Operator.Arithmetic
import ReactiveScript.Store
import ReactiveScript.Value.Member

/-
  Operators.

  An operator never stops an evaluation: what goes wrong is delayed in the value it gives, and a
  delayed error among the operands of a unary or binary operator is the result, the left one first.
  Only OR_ELSE looks at errors: it replaces an erroneous left operand by the right one.
-/

namespace ReactiveScript.Operator

/-- The result of negation or boolean negation. -/
def negateOrNot (op : UnaryOp) (a : Value) : Except EvalError Value :=
  match op with
  | .negate =>
    match a with
    | .int n => exact (-n.toInt)
    | .real x => .ok (.real (-x))
    | a => .error (a.cannotConvert "number")
  | _ => do return .bool (!(← a.toBool))

/-- Apply a unary operator. -/
def unary (op : UnaryOp) (a : Value) : StateM Store Value :=
  match a with
  | .error e => return .error e
  | a =>
    match op with
    | .iteratorC => a.toIterator
    | op => return .ofExcept (negateOrNot op a)

/-- Text concatenation of two values of which one is a string. -/
def addTexts (a b : Value) : Except EvalError Value :=
  match a.toText, b.toText with
  | .ok x, .ok y => .ok (.string (x ++ y))
  | _, _ => .error (cannotApply "+" a b)

/-- Addition of numbers. -/
def addNumbers : Value → Value → Except EvalError Value :=
  numeric "+" (fun x y => exact (x.toInt + y.toInt)) fun x y => .ok (.real (x + y))

/-- Addition: nil adds nothing, functions compose, collections and texts are joined. -/
def add (a b : Value) : StateM Store Value :=
  match a, b with
  | .nil, b => return b
  | a, .nil => return a
  | a, b =>
    if a.isCallable && b.isCallable then do return .composition (← Store.fresh) a b
    else match a, b with
      | .collection _ x, .collection _ y => Store.newCollection (x.concat y)
      | .string _, b => return .ofExcept (addTexts a b)
      | a, .string _ => return .ofExcept (addTexts a b)
      | a, b => return .ofExcept (addNumbers a b)

/-- An end of a range. -/
def rangeEnd : Value → Except EvalError Int64
  | .int n => .ok n
  | v => .error (v.cannotConvert "integer")

/-- The iterator over the integers from `a` to `b`. -/
def range (a b : Value) : StateM Store Value :=
  match rangeEnd a, rangeEnd b with
  | .ok first, .ok last => Store.newIterator (.between first last)
  | .error e, _ => return .error e
  | _, .error e => return .error e

/-- A connective that needs its right operand only if the left one is `needs`. -/
def connective (needs : Bool) (a b : Value) : Except EvalError Value := do
  if (← a.toBool) == needs then return .bool (← b.toBool) else return .bool !needs

/-- The binary operators that give a plain value. -/
def plain (op : BinaryOp) (a b : Value) : Except EvalError Value :=
  match op with
  | .sub => sub a b
  | .mul => mul a b
  | .fdiv => fdiv a b
  | .div => div a b
  | .mod => mod a b
  | .pow => pow a b
  | .and => connective true a b
  | .or => connective false a b
  | .xor => do
    let x ← a.toBool
    return .bool (x != (← b.toBool))
  | .eq => .ok (.bool (a.looselyEqual b))
  | .neq => .ok (.bool !(a.looselyEqual b))
  | .lt => do return .bool ((← order op a b) == .lt)
  | .gt => do return .bool ((← order op a b) == .gt)
  | .le => do return .bool ((← order op a b) != .gt)
  | .ge => do return .bool ((← order op a b) != .lt)
  | .min => do return if (← order op a b) == .gt then b else a
  | .max => do return if (← order op a b) == .lt then b else a
  | .member => .ok (a.member b)
  | _ => .ok a

/-- Apply a binary operator to operands that are no errors. -/
def binarySound (op : BinaryOp) (a b : Value) : StateM Store Value :=
  match op with
  | .add => add a b
  | .iteratorR => range a b
  | op => return .ofExcept (plain op a b)

/-- Apply a binary operator. -/
def binary (op : BinaryOp) (a b : Value) : StateM Store Value :=
  match op with
  | .orElse => return if a.isError then b else a
  | op =>
    match a, b with
    | .error e, _ => return .error e
    | _, .error e => return .error e
    | a, b => binarySound op a b

/-- A channel of a color. -/
def channel (v : Value) : Except EvalError UInt8 := do
  return UInt8.ofNat (min (← v.toInt).toInt.toNat 255)

/-- Apply a ternary operator. -/
def ternary (op : TernaryOp) (a b c : Value) : Value :=
  match op with
  | .rgb => .ofExcept do return .color ⟨← channel a, ← channel b, ← channel c, 255⟩

/-- Apply a quaternary operator. -/
def quaternary (op : QuaternaryOp) (a b c d : Value) : Value :=
  match op with
  | .rgba => .ofExcept do
    return .color ⟨← channel a, ← channel b, ← channel c, ← channel d⟩

end ReactiveScript.Operator
