import ReactiveScript.Card.Computed

/-
  The types of host values.

  A host type names one of the types that a script's result converts to, so that a computed value
  can be kept without fixing its type.
-/

namespace ReactiveScript

/-- The types that results convert to. -/
inductive HostType
  | value | int | real | bool | string | color
  deriving DecidableEq, Repr, Inhabited

namespace HostType

/-- The host values of a type. -/
abbrev Carrier : HostType → Type
  | value => Value
  | int => Int64
  | real => Float
  | bool => Bool
  | string => String
  | color => Color

instance (t : HostType) : HostValue t.Carrier :=
  match t with
  | value => inferInstanceAs (HostValue Value)
  | int => inferInstanceAs (HostValue Int64)
  | real => inferInstanceAs (HostValue Float)
  | bool => inferInstanceAs (HostValue Bool)
  | string => inferInstanceAs (HostValue String)
  | color => inferInstanceAs (HostValue Color)

/-- The type of a name. -/
def ofName? : String → Option HostType
  | "value" => some value
  | "int" => some int
  | "real" => some real
  | "bool" => some bool
  | "string" => some string
  | "color" => some color
  | _ => none

/-- A result converted to a type, as scripts see it. -/
def convert (t : HostType) (v : Value) : Except EvalError Value := do
  let host : t.Carrier ← HostValue.ofValue v
  return HostValue.toValue host

end HostType

/-- A value of some type that a script may compute. -/
structure AnyComputed where
  type : HostType
  computed : Computed type.Carrier

end ReactiveScript
