import ReactiveScript.Value.Conversion

/-
  Members.

  A collection is read by position or by key, and by the decimal text of a position where no key has
  that text. Objects answer to names, colors to their channels, strings to their length. A delayed
  error on either side is the answer; of two, the one on the left.
-/

namespace ReactiveScript

/-- The entry of a collection under a text: a key first, then a position. -/
def Collection.lookup? {α : Type} (c : Collection α) (name : String) : Option α :=
  match c.get? name with
  | some v => some v
  | none => (Decimal.index? name).bind c.nth?

/-- The member of an object in normal evaluation. Stand-ins have none. -/
def ObjectBody.member? {α : Type} (body : ObjectBody α) (name : String) : Option α :=
  match body with
  | .host object => Assoc.find? name object.members
  | .placeholder _ => none
  | .union _ _ => none

/-- A channel of a color by its letter or its name. -/
def Color.channel? (c : Color) (name : String) : Option UInt8 :=
  if name = "r" || name = "red" then some c.r
  else if name = "g" || name = "green" then some c.g
  else if name = "b" || name = "blue" then some c.b
  else if name = "a" || name = "alpha" then some c.a
  else none

namespace Value

/-- The position an integer stands for. -/
def position? (n : Int64) : Option Nat := n.toInt.toNat?

/-- The member of a value, if it has it; neither side is an error. -/
def member? (object key : Value) : Option Value :=
  match object, key with
  | .collection _ items, .int n => (position? n).bind items.nth?
  | .collection _ items, .string name => items.lookup? name
  | .object _ body, key =>
    match key.toText with
    | .ok name => body.member? name
    | .error _ => none
  | .color c, .string name => (c.channel? name).map fun x => .int (Int64.ofNat x.toNat)
  | .string s, .string name => if name = "length" then some (.int (Int64.ofNat s.length)) else none
  | _, _ => none

/-- The member of a value. What is missing comes back as a delayed error. -/
def member (object key : Value) : Value :=
  match object, key with
  | .error e, _ => .error e
  | _, .error e => .error e
  | _, _ => (object.member? key).getD (.error (.noMember object.typeName key.display))

end Value

end ReactiveScript
