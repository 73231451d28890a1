import ReactiveScript.Real.Binary
import ReactiveScript.Text.Blank

/-
  Reading numbers.

  Only ASCII digits count. An integer is a sign and digits, and must fit in 64 bits; an index is
  digits after at most a plus sign. A real is a sign and one of the words for infinity and not a
  number, or digits with at most one point and at most one exponent; it is rounded once, from the
  exact decimal.
-/

namespace ReactiveScript.Decimal

/-- The number written by digits, most significant first. -/
def ofDigits (digits : List Char) : Nat :=
  digits.foldl (fun n c => 10 * n + (c.toNat - '0'.toNat)) 0

/-- A nonempty text of digits only. -/
def natural? (cs : List Char) : Option Nat :=
  if !cs.isEmpty && cs.all Char.isDigit then some (ofDigits cs) else none

/-- Split off a leading sign; `true` for a minus. -/
def splitSign : List Char → Bool × List Char
  | '-' :: rest => (true, rest)
  | '+' :: rest => (false, rest)
  | cs => (false, cs)

/-- A position in a collection. -/
def index? (s : String) : Option Nat :=
  match s.toList with
  | '+' :: rest => natural? rest
  | cs => natural? cs

/-- The digits of a number are digits. -/
theorem isDigit_of_mem_toDigits {n : Nat} {c : Char} (hc : c ∈ Nat.toDigits 10 n) :
    c.isDigit = true := Nat.isDigit_of_mem_toDigits (by decide) (by decide) hc

/-- A natural number is read back from its digits. -/
theorem natural?_toDigits (n : Nat) : natural? (Nat.toDigits 10 n) = some n := by
  have hdigits : (Nat.toDigits 10 n).all Char.isDigit = true :=
    List.all_eq_true.2 fun c hc => isDigit_of_mem_toDigits hc
  have hvalue : ofDigits (Nat.toDigits 10 n) = n := by
    have hread : Nat.ofDigitChars 10 (Nat.toDigits 10 n) 0 = n :=
      Nat.ofDigitChars_toDigits (by decide) (by decide)
    exact hread
  simp [natural?, hdigits, hvalue, Nat.toDigits_ne_nil]

theorem toList_toString (n : Nat) : (toString n).toList = Nat.toDigits 10 n := by
  rw [Nat.toString_eq_repr, Nat.toList_repr]

/-- A position is read back from its text. -/
theorem index?_toString (n : Nat) : index? (toString n) = some n := by
  unfold index?
  rw [toList_toString]
  split
  · next rest hplus =>
    exact absurd (isDigit_of_mem_toDigits (hplus ▸ List.mem_cons_self)) (by decide)
  · exact natural?_toDigits n

theorem toString_inj {m n : Nat} : toString m = toString n ↔ m = n := by
  refine ⟨fun h => ?_, fun h => by rw [h]⟩
  have hread := congrArg index? h
  rwa [index?_toString, index?_toString, Option.some.injEq] at hread

/-- The 64-bit integer of that value, if there is one: from `-2^63` to `2^63 - 1`. -/
def int64? (n : Int) : Option Int64 :=
  if -9223372036854775808 ≤ n ∧ n ≤ 9223372036854775807 then some (Int64.ofInt n) else none

/-- A 64-bit integer between blanks. -/
def integer? (s : String) : Option Int64 :=
  let (negative, rest) := splitSign (Text.trim s.toList)
  (natural? rest).bind fun n => int64? (if negative then -(n : Int) else n)

theorem toList_toString_negSucc (n : Nat) :
    (toString (Int.negSucc n)).toList = '-' :: Nat.toDigits 10 (n + 1) := by
  change ("-" ++ toString (n + 1)).toList = _
  rw [String.toList_append, toList_toString]
  rfl

theorem splitSign_toDigits (n : Nat) :
    splitSign (Nat.toDigits 10 n) = (false, Nat.toDigits 10 n) := by
  unfold splitSign
  split
  · next h => exact absurd (isDigit_of_mem_toDigits (h ▸ List.mem_cons_self)) (by decide)
  · next h => exact absurd (isDigit_of_mem_toDigits (h ▸ List.mem_cons_self)) (by decide)
  · rfl

/-- A 64-bit integer is read back from its text. -/
theorem integer?_toString (n : Int64) : integer? (toString n.toInt) = some n := by
  have hfits : int64? n.toInt = some n := by
    unfold int64?
    rw [if_pos ⟨Int64.le_toInt n, Int64.toInt_le n⟩, Int64.ofInt_toInt]
  have hblank : ∀ m, ∀ c ∈ Nat.toDigits 10 m, Text.isBlank c = false := fun m c hc =>
    Text.not_isBlank_of_isDigit (isDigit_of_mem_toDigits hc)
  unfold integer?
  cases hn : n.toInt with
  | ofNat m =>
    have htext : (toString (Int.ofNat m)).toList = Nat.toDigits 10 m := toList_toString m
    rw [htext, Text.trim_of_not_isBlank (hblank m), splitSign_toDigits]
    show (natural? (Nat.toDigits 10 m)).bind (fun k => int64? k) = some n
    rw [natural?_toDigits, Option.bind_some, ← hfits, hn]
    rfl
  | negSucc m =>
    have htrim : Text.trim ('-' :: Nat.toDigits 10 (m + 1)) = '-' :: Nat.toDigits 10 (m + 1) :=
      Text.trim_of_not_isBlank (List.forall_mem_cons.2 ⟨by decide, hblank (m + 1)⟩)
    rw [toList_toString_negSucc, htrim]
    show (natural? (Nat.toDigits 10 (m + 1))).bind (fun k => int64? (-(k : Int))) = some n
    rw [natural?_toDigits, Option.bind_some, ← hfits, hn]
    rfl

/-- The parts of a decimal: `coefficient · 10^exponent`. -/
structure Scientific where
  coefficient : Nat
  exponent : Int

/-- The power of ten after the mark `e`, or none if there is no mark. -/
def exponent? : List Char → Option Int
  | [] => some 0
  | mark :: rest =>
    if mark = 'e' || mark = 'E' then
      let (negative, digits) := splitSign rest
      (natural? digits).map fun n => if negative then -(n : Int) else n
    else none

/-- Digits around at most one point, with a digit somewhere, and an exponent. -/
def scientific? (cs : List Char) : Option Scientific :=
  let whole := cs.takeWhile Char.isDigit
  let afterWhole := cs.dropWhile Char.isDigit
  let (fraction, rest) := match afterWhole with
    | '.' :: tail => (tail.takeWhile Char.isDigit, tail.dropWhile Char.isDigit)
    | tail => ([], tail)
  if whole.isEmpty && fraction.isEmpty then none
  else (exponent? rest).map fun e => ⟨ofDigits (whole ++ fraction), e - fraction.length⟩

/-- The nearest real. Powers of ten that are out of reach for the digit count need no arithmetic:
every positive real lies between `10^-400` and `10^400`. -/
def Scientific.toReal (negative : Bool) (d : Scientific) : Float :=
  let lead : Int := (Nat.toDigits 10 d.coefficient).length + d.exponent
  if d.coefficient = 0 || lead < -400 then Real.withSign negative 0
  else if lead > 400 then Real.withSign negative Real.infinityBits
  else if 0 ≤ d.exponent then Real.nearest negative (d.coefficient * Nat.pow 10 d.exponent.toNat) 1
  else Real.nearest negative d.coefficient (Nat.pow 10 (-d.exponent).toNat)

/-- A real between blanks. -/
def real? (s : String) : Option Float :=
  let (negative, rest) := splitSign (Text.trim s.toList)
  let word := String.ofList (rest.map Char.toLower)
  if word = "inf" || word = "infinity" then some (Real.withSign negative Real.infinityBits)
  else if word = "nan" then some Real.nan
  else (scientific? rest).map (Scientific.toReal negative)

end ReactiveScript.Decimal
