import ReactiveScript.Real.Binary

/-
  Shortest decimals.

  Every real `m · 2^q` is the nearest real to all numbers of an interval around it, and the ends
  belong to the interval if and only if `m` is even. `shortest` picks the decimal `c · 10^e` of
  that interval with the fewest digits, of those the one next to the value, and of two equally near
  ones the larger.
-/

namespace ReactiveScript.Decimal

/-- The value `mid / den` with the ends `low / den` and `high / den` of its interval. -/
structure Interval where
  low : Nat
  mid : Nat
  high : Nat
  den : Nat
  /-- Whether the ends belong to the interval. -/
  closed : Bool

/-- The numbers whose nearest real is `m · 2^q`. Below a power of two reals lie twice as dense. -/
def Interval.around (m : Nat) (q : Int) : Interval :=
  let scale := if 2 ≤ q then 1 <<< (q - 2).toNat else 1
  let den := if 2 ≤ q then 1 else 1 <<< (2 - q).toNat
  let below := if m = Real.leadingBit && q ≠ -1074 then 4 * m - 1 else 4 * m - 2
  ⟨below * scale, 4 * m * scale, (4 * m + 2) * scale, den, m % 2 == 0⟩

/-- The interval in units of `10^e`. -/
def Interval.inUnits (i : Interval) (e : Int) : Interval :=
  if 0 ≤ e then { i with den := i.den * Nat.pow 10 e.toNat }
  else
    let scale := Nat.pow 10 (-e).toNat
    { i with low := i.low * scale, mid := i.mid * scale, high := i.high * scale }

/-- Whether the whole number `c` lies in the interval. -/
def Interval.holds (i : Interval) (c : Nat) : Bool :=
  if i.closed then i.low ≤ c * i.den && c * i.den ≤ i.high
  else i.low < c * i.den && c * i.den < i.high

/-- The whole number of the interval next to its value, if the interval holds one. -/
def Interval.whole? (i : Interval) : Option Nat :=
  let c := i.mid / i.den
  match i.holds c, i.holds (c + 1) with
  | true, true => some (if 2 * (i.mid % i.den) ≥ i.den then c + 1 else c)
  | true, false => some c
  | false, true => some (c + 1)
  | false, false => none

/-- An exponent of ten that is at least that of the leading digit of `m · 2^q`. -/
def leadingExponent (m : Nat) (q : Int) : Int :=
  ((m.log2 : Int) + q + 1) * 30103 / 100000 + 1

/-- Look for a whole number on ever finer grids `10^e`. -/
def Interval.search (i : Interval) : Nat → Int → Nat × Int
  | 0, e => ((i.inUnits e).mid / (i.inUnits e).den, e)
  | tries + 1, e =>
    match (i.inUnits e).whole? with
    | some c => (c, e)
    | none => i.search tries (e - 1)

/-- Coefficient and exponent of the shortest decimal that reads back as `m · 2^q`. Nineteen grids
hold the leading one, one more for its estimate, and the seventeen digits that always suffice. -/
def shortest (m : Nat) (q : Int) : Nat × Int :=
  (Interval.around m q).search 19 (leadingExponent m q)

end ReactiveScript.Decimal
