import ReactiveScript.Value.Conversion

/-
  Equality.

  `equal` compares values: numbers with numbers up to rounding noise, collections entry by entry in
  order, and what has an identity by that. `looselyEqual` is what the operator EQ computes: also, a
  string equals a number or boolean that has this text.
-/

namespace ReactiveScript

/-- Two reals that differ by rounding noise only. -/
def nearlyEqual (x y : Float) : Bool :=
  let larger := if x.abs < y.abs then y.abs else x.abs
  x == y || (x - y).abs ≤ 1e-14 * (if larger < 1.0 then 1.0 else larger)

namespace Value

mutual

/-- Equality of values. -/
def equal : Value → Value → Bool
  | .nil, .nil => true
  | .bool a, .bool b => a == b
  | .int a, .int b => a == b
  | .real a, .real b => nearlyEqual a b
  | .int a, .real b => nearlyEqual a.toFloat b
  | .real a, .int b => nearlyEqual b.toFloat a
  | .string a, .string b => a == b
  | .color a, .color b => a == b
  | .collection i ⟨xs, _⟩, .collection j ⟨ys, _⟩ => i == j || equalEntries xs ys
  | .object i _, .object j _ => i == j
  | .iterator i, .iterator j => i == j
  | .script a, .script b => a.id == b.id
  | .builtin i _, .builtin j _ => i == j
  | .closure i _ _, .closure j _ _ => i == j
  | .composition i _ _, .composition j _ _ => i == j
  | .error a, .error b => a == b
  | _, _ => false
termination_by structural v => v

/-- Equal keys and values at every position. -/
def equalEntries : List (String × Value) → List (String × Value) → Bool
  | [], [] => true
  | (k, v) :: xs, (l, w) :: ys => k == l && v.equal w && equalEntries xs ys
  | _, _ => false
termination_by structural entries => entries

end

/-- Whether a scalar that is no string has this text. -/
def hasText (v : Value) (s : String) : Bool :=
  match v with
  | .int _ | .real _ | .bool _ => v.display == s
  | _ => false

/-- Equality as scripts see it. -/
def looselyEqual (a b : Value) : Bool :=
  match a, b with
  | .string s, .int _ => b.hasText s
  | .string s, .real _ => b.hasText s
  | .string s, .bool _ => b.hasText s
  | .int _, .string s => a.hasText s
  | .real _, .string s => a.hasText s
  | .bool _, .string s => a.hasText s
  | _, _ => a.equal b

end Value

end ReactiveScript
