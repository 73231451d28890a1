import ReactiveScript.Text.Blank
import ReactiveScript.Text.Extending
import ReactiveScript.Text.Hidden

/-
  Quoted text.

  A quoted text stands between double quotes. Quotes and backslashes get a backslash, newline,
  carriage return, tab and NUL their letter. Characters that do not show, or that extend the one
  before them, are written as their code point in lower-case hexadecimal between braces. All other
  characters stand for themselves.
-/

namespace ReactiveScript.Text

/-- A printable character of ASCII. -/
def isPlain (c : Char) : Bool := 0x20 ≤ c.toNat && c.toNat < 0x7F

/-- Whether a character is written by its code point inside quotes. -/
def isEscaped (c : Char) : Bool :=
  !isPlain c && (inRanges hiddenRanges c.toNat || inRanges extendingRanges c.toNat)

/-- The code point in lower-case hexadecimal, without leading zeros. -/
def codePoint (c : Char) : List Char := Nat.toDigits 16 c.toNat

/-- One character as it is written inside quotes. -/
def escape (c : Char) : List Char :=
  if c = '"' then ['\\', '"']
  else if c = '\\' then ['\\', '\\']
  else if c = '\n' then ['\\', 'n']
  else if c = '\r' then ['\\', 'r']
  else if c = '\t' then ['\\', 't']
  else if c.toNat = 0 then ['\\', '0']
  else if isEscaped c then ['\\', 'u', '\x7b'] ++ codePoint c ++ ['\x7d']
  else [c]

/-- A text between double quotes. -/
def quoted (s : String) : String :=
  String.ofList ('"' :: s.toList.flatMap escape ++ ['"'])

end ReactiveScript.Text
