import ReactiveScript.Real.Binary

/-
  Reals as the hexadecimal digits of their bits.

  Sixteen digits give the bits of a real, so reading and writing lose nothing. All values that are
  not a number have one text, since no operation tells them apart.
-/

namespace ReactiveScript.Real

/-- The text of every value that is not a number. -/
def nanText : String := "nan"

/-- The digits of the bits. -/
def bitsText (x : Float) : String :=
  if x.isNaN then nanText
  else String.ofList ((Nat.toDigits 16 x.toBits.toNat).leftpad 16 '0')

/-- The value of a hexadecimal digit. -/
def hexDigit (c : Char) : Nat := if c.isDigit then c.toNat - 48 else c.toLower.toNat - 87

/-- The real with the given digits. -/
def ofBitsText (text : String) : Float :=
  if text == nanText then nan
  else .ofBits (UInt64.ofNat (text.foldl (fun n c => 16 * n + hexDigit c) 0))

end ReactiveScript.Real
