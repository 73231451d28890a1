import ReactiveScript.Decimal.Layout
import ReactiveScript.Text.Quoted
import ReactiveScript.Value.Basic

/-
  Values as text.

  `inspect` is how a value looks inside other values and in listings: strings are quoted, reals show
  that they are reals, and functions and objects stand in angle brackets. `display` is how a value
  looks on its own: strings and reals plainly, opaque colors without their alpha.
-/

namespace ReactiveScript.Value

mutual

/-- A value as it looks inside other values. -/
def inspect : Value → String
  | .nil => "nil"
  | .bool b => if b then "true" else "false"
  | .int n => toString n.toInt
  | .real x => Decimal.Layout.explicit.write x
  | .string s => Text.quoted s
  | .color c => s!"rgba({c.r.toNat}, {c.g.toNat}, {c.b.toNat}, {c.a.toNat})"
  | .collection _ ⟨entries, isList⟩ =>
    "[" ++ ", ".intercalate (inspectEntries isList entries) ++ "]"
  | .object _ body => "<" ++ body.typeName ++ ">"
  | .iterator _ => "<iterator>"
  | .script _ => "<script>"
  | .builtin _ function => "<builtin " ++ function.name ++ ">"
  | .closure _ function _ => "<closure of " ++ function.inspect ++ ">"
  | .composition _ first second => "<" ++ first.inspect ++ " + " ++ second.inspect ++ ">"
  | .error e => "<error: " ++ e.message ++ ">"
termination_by structural v => v

/-- Entries with their keys, or without them in a list. -/
def inspectEntries (isList : Bool) : List (String × Value) → List String
  | [] => []
  | (key, v) :: rest =>
    (if isList then v.inspect else key ++ ": " ++ v.inspect) :: inspectEntries isList rest
termination_by structural entries => entries

end

/-- A value as it looks on its own. -/
def display : Value → String
  | .string s => s
  | .real x => Decimal.Layout.plain.write x
  | .color c =>
    if c.a = 255 then s!"rgb({c.r.toNat}, {c.g.toNat}, {c.b.toNat})" else (Value.color c).inspect
  | v => v.inspect

end ReactiveScript.Value
