/-
  Reals as exact binary numbers.

  A finite real is `±m · 2^q` with a natural number `m` and an integer `q`. `Binary.ofReal` reads
  the two off the 64 bits, `nearest` goes back from any fraction of natural numbers: it gives the
  real next to the fraction, and of two equally near ones the one with the even significand.
  Truncation and remainder are computed on this form, so both are exact.
-/

namespace ReactiveScript.Real

/-- What the 64 bits of a real stand for. -/
inductive Binary
  /-- The number `m · 2^q`, negated if `negative`. -/
  | finite (negative : Bool) (m : Nat) (q : Int)
  | infinite (negative : Bool)
  | nan
  deriving DecidableEq, Repr

/-- The weight `2^52` of the leading significand bit, which the bits of a real leave out. -/
abbrev leadingBit : Nat := 4503599627370496

/-- The weight `2^63` of the sign. -/
abbrev signBit : Nat := 9223372036854775808

/-- Sign, exponent field and fraction field of the 64 bits. -/
def Binary.ofBits (bits : Nat) : Binary :=
  let negative := bits / signBit == 1
  let field : Nat := bits / leadingBit % 2048
  let fraction : Nat := bits % leadingBit
  if field = 2047 then
    if fraction = 0 then .infinite negative else .nan
  else if field = 0 then .finite negative fraction (-1074)
  else .finite negative (leadingBit + fraction) ((field : Int) - 1075)

/-- The exact value of a real. -/
def Binary.ofReal (x : Float) : Binary := .ofBits x.toBits.toNat

/-- Neither infinite nor not a number. -/
def isFinite (x : Float) : Bool :=
  match Binary.ofReal x with
  | .finite .. => true
  | _ => false

/-- The real with the given sign and the given other 63 bits. -/
def withSign (negative : Bool) (bits : Nat) : Float :=
  Float.ofBits (UInt64.ofNat (if negative then signBit + bits else bits))

/-- The bits of positive infinity. -/
def infinityBits : Nat := 2047 * leadingBit

/-- Positive infinity. -/
def infinity : Float := withSign false infinityBits

/-- Not a number. -/
def nan : Float := withSign false (infinityBits + leadingBit / 2)

/-- `num / den` as a fraction of the unit `2^q`. -/
def inUnits (num den : Nat) (q : Int) : Nat × Nat :=
  if 0 ≤ q then (num, den <<< q.toNat) else (num <<< (-q).toNat, den)

/-- The whole number next to `num / den`, a half going to the even neighbour. -/
def roundHalfEven (num den : Nat) : Nat :=
  let whole := num / den
  let rest := num % den
  if 2 * rest > den || (2 * rest == den && whole % 2 == 1) then whole + 1 else whole

/-- The exponent of the unit in which `num / den` has a significand of 53 bits, or the least
exponent a real can have if that is larger. -/
def unitExponent (num den : Nat) : Int :=
  let q : Int := (num.log2 : Int) - den.log2 - 53
  let (n, d) := inUnits num den q
  max (if n / d ≥ 2 * leadingBit then q + 1 else q) (-1074)

/-- The real next to `±num / den`, of two equally near ones the even one. -/
def nearest (negative : Bool) (num den : Nat) : Float :=
  if num = 0 then withSign negative 0
  else
    let q := unitExponent num den
    let (n, d) := inUnits num den q
    let bits := (q + 1074).toNat * leadingBit + roundHalfEven n d
    withSign negative (min bits infinityBits)

/-- The integer part of a finite real, rounding toward zero. -/
def integerPart? (x : Float) : Option Int :=
  match Binary.ofReal x with
  | .finite negative m q =>
    let size := if 0 ≤ q then m <<< q.toNat else m >>> (-q).toNat
    some (if negative then -(size : Int) else size)
  | _ => none

/-- The remainder of dividing `x` by `y` toward zero: exact, with the sign of `x`. -/
def remainder (x y : Float) : Float :=
  match Binary.ofReal x, Binary.ofReal y with
  | .finite negative m q, .finite _ n r =>
    if n = 0 then nan
    else
      let unit := min q r
      let size := (m <<< (q - unit).toNat) % (n <<< (r - unit).toNat)
      let (num, den) := if 0 ≤ unit then (size <<< unit.toNat, 1) else (size, 1 <<< (-unit).toNat)
      nearest negative num den
  | .finite .., .infinite _ => x
  | _, _ => nan

end ReactiveScript.Real
