import ReactiveScript.Decimal.Numeral
import ReactiveScript.Value.Text

/-
  Conversions.

  A conversion of a delayed error raises that error, all other failures name both types. Numbers
  read from strings may stand between blanks; a real becomes an integer by dropping its fraction,
  unless what remains does not fit.
-/

namespace ReactiveScript

/-- The integer part of a real, if it fits. -/
def integerOfReal (x : Float) : Except EvalError Int64 :=
  match (Real.integerPart? x).bind Decimal.int64? with
  | some n => .ok n
  | none => .error .integerOverflow

namespace Value

/-- The failure to convert a value of another type. -/
def cannotConvert (v : Value) (target : String) : EvalError := .conversion v.typeName target

/-- A result that may be missing, or a failure. -/
def orFail {α : Type} (result : Option α) (error : EvalError) : Except EvalError α :=
  match result with
  | some a => .ok a
  | none => .error error

/-- As an integer. -/
def toInt : Value → Except EvalError Int64
  | .int n => .ok n
  | .real x => if Real.isFinite x then integerOfReal x else .error (.conversion "real" "integer")
  | .bool b => .ok (if b then 1 else 0)
  | .string s => orFail (Decimal.integer? s) (.conversion "string" "integer")
  | .error e => .error e
  | v => .error (v.cannotConvert "integer")

/-- As a real. -/
def toReal : Value → Except EvalError Float
  | .int n => .ok n.toFloat
  | .real x => .ok x
  | .bool b => .ok (if b then 1.0 else 0.0)
  | .string s => orFail (Decimal.real? s) (.conversion "string" "real")
  | .error e => .error e
  | v => .error (v.cannotConvert "real")

/-- As a condition. -/
def toBool : Value → Except EvalError Bool
  | .bool b => .ok b
  | .nil => .ok false
  | .int n => .ok (n != 0)
  | .real x => .ok (x != 0.0)
  | .string s =>
    if s = "true" || s = "yes" then .ok true
    else if s = "false" || s = "no" || s = "" then .ok false
    else .error (.conversion "string" "boolean")
  | .error e => .error e
  | v => .error (v.cannotConvert "boolean")

/-- As text; nil is the empty text. -/
def toText : Value → Except EvalError String
  | .nil => .ok ""
  | .string s => .ok s
  | .error e => .error e
  | .bool b => .ok (Value.bool b).display
  | .int n => .ok (Value.int n).display
  | .real x => .ok (Value.real x).display
  | .color c => .ok (Value.color c).display
  | v => .error (v.cannotConvert "string")

/-- As a color. -/
def toColor : Value → Except EvalError Color
  | .color c => .ok c
  | .error e => .error e
  | v => .error (v.cannotConvert "color")

/-- The number of entries or characters. -/
def length : Value → Except EvalError Nat
  | .collection _ items => .ok items.length
  | .string s => .ok s.length
  | .nil => .ok 0
  | .error e => .error e
  | v => .error (v.cannotConvert "collection")

end Value

end ReactiveScript
