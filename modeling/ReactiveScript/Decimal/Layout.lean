import ReactiveScript.Decimal.Shortest

/-
  How reals are written.

  A layout fixes what is left open by the digits: which exponents are written out by position and
  whether a whole number shows its fraction. Values shown to users use `plain`; values shown inside
  other values use `explicit`.
-/

namespace ReactiveScript.Decimal

/-- The decisions in writing a real. -/
structure Layout where
  /-- Whether a leading digit of weight `10^e` is written by its position. -/
  positional : Int → Bool
  /-- What follows a whole number. -/
  wholeMark : String

/-- Always by position, whole numbers without a point. -/
def Layout.plain : Layout := ⟨fun _ => true, ""⟩

/-- By position from `10^-4` to below `10^16`, whole numbers with `.0`. -/
def Layout.explicit : Layout := ⟨fun e => -4 ≤ e && e ≤ 15, ".0"⟩

/-- `count` zeros. -/
def zeros (count : Nat) : String := String.ofList (List.replicate count '0')

/-- `digits · 10^e` by position. -/
def Layout.byPosition (layout : Layout) (digits : List Char) (e : Int) : String :=
  let point := (digits.length : Int) + e
  if 0 ≤ e then String.ofList digits ++ zeros e.toNat ++ layout.wholeMark
  else if 0 < point then
    String.ofList (digits.take point.toNat) ++ "." ++ String.ofList (digits.drop point.toNat)
  else "0." ++ zeros (-point).toNat ++ String.ofList digits

/-- `digits · 10^e` with one digit before the point and the power of ten after it. -/
def byExponent (digits : List Char) (e : Int) : String :=
  let lead := (digits.length : Int) - 1 + e
  let fraction := digits.drop 1
  String.ofList (digits.take 1) ++ (if fraction.isEmpty then "" else "." ++ String.ofList fraction)
    ++ "e" ++ toString lead

/-- The digits of a positive real by position or with a power of ten. -/
def Layout.magnitude (layout : Layout) (m : Nat) (q : Int) : String :=
  let (c, e) := shortest m q
  let digits := Nat.toDigits 10 c
  if layout.positional ((digits.length : Int) - 1 + e) then layout.byPosition digits e
  else byExponent digits e

/-- A real in the given layout. Zero keeps its sign. -/
def Layout.write (layout : Layout) (x : Float) : String :=
  match Real.Binary.ofReal x with
  | .nan => "NaN"
  | .infinite negative => if negative then "-inf" else "inf"
  | .finite negative m q =>
    let size := if m = 0 then "0" ++ layout.wholeMark else layout.magnitude m q
    if negative then "-" ++ size else size

end ReactiveScript.Decimal
