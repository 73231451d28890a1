import Mathlib.Algebra.Ring.Int.Parity
import ReactiveScript.Proofs.Entries

/-
  Exact arithmetic on integers.

  An operation on two integers has an exact result (`exactResult?`), which is given if it fits in
  64 bits and is an overflow otherwise (`ExactOrOverflow`). There are two exceptions, both with a
  result that fits (`Missed`): the remainder of the smallest integer by -1, where the quotient does
  not fit, and a power of -1, 0 or 1 with an exponent of more than 32 bits.
-/

namespace ReactiveScript

namespace Operator

/-! ## Integers that fit -/

/-- The integer fits in 64 bits. -/
def Fits (n : Int) : Prop := -9223372036854775808 ≤ n ∧ n ≤ 9223372036854775807

/-- The value is the integer if it fits in 64 bits, and otherwise says that it does not. -/
def ExactOrOverflow (n : Int) (v : Value) : Prop :=
  (Fits n ∧ ∃ m : Int64, m.toInt = n ∧ v = .int m) ∨ (¬ Fits n ∧ v = .error .integerOverflow)

theorem fits_toInt (x : Int64) : Fits x.toInt := ⟨x.le_toInt, Int.le_of_lt_add_one x.toInt_lt⟩

theorem int64?_of_fits {n : Int} (h : Fits n) : ∃ m, Decimal.int64? n = some m ∧ m.toInt = n := by
  rcases Iteration.int64?_cases n h.1 with ⟨-, m, hm, hvalue⟩ | ⟨hlarge, -⟩
  · exact ⟨m, hm, hvalue⟩
  · exact absurd h.2 (Int.not_le.2 hlarge)

theorem int64?_of_not_fits {n : Int} (h : ¬ Fits n) : Decimal.int64? n = none := if_neg h

theorem exact_of_fits {n : Int} (h : Fits n) : ∃ m, exact n = .ok (.int m) ∧ m.toInt = n := by
  obtain ⟨m, hm, hvalue⟩ := int64?_of_fits h
  refine ⟨m, ?_, hvalue⟩
  rw [exact, hm]

theorem exact_of_not_fits {n : Int} (h : ¬ Fits n) : exact n = .error .integerOverflow := by
  rw [exact, int64?_of_not_fits h]

theorem exactOrOverflow_exact (n : Int) : ExactOrOverflow n (.ofExcept (exact n)) := by
  by_cases h : Fits n
  · obtain ⟨m, hm, hvalue⟩ := exact_of_fits h
    exact .inl ⟨h, m, hvalue, by rw [hm]; rfl⟩
  · exact .inr ⟨h, by rw [exact_of_not_fits h]; rfl⟩

/-- An overflow where the exact result fits is neither. -/
theorem not_exactOrOverflow {n : Int} (h : Fits n) :
    ¬ ExactOrOverflow n (.error .integerOverflow) := by
  rintro (⟨-, m, -, hv⟩ | ⟨hnot, -⟩)
  · cases hv
  · exact hnot h

/-! ## Quotients and remainders -/

/-- Only one quotient does not fit: that of the smallest integer by -1. -/
theorem not_fits_tdiv_iff (x y : Int64) :
    ¬ Fits (x.toInt.tdiv y.toInt) ↔ x = Int64.minValue ∧ y = -1 := by
  obtain ⟨hlow, hhigh⟩ := fits_toInt x
  have hsmallest : x = Int64.minValue ↔ x.toInt = -9223372036854775808 := Int64.toInt_inj.symm
  have hminus : y = -1 ↔ y.toInt = -1 := Int64.toInt_inj.symm
  rw [hsmallest, hminus]
  by_cases hneg : y.toInt = -1
  · rw [hneg, Int.tdiv_neg, Int.tdiv_one, Fits]
    omega
  · refine iff_of_false (not_not.2 ?_) fun h => hneg h.2
    by_cases hone : y.toInt = 1
    · rw [hone, Int.tdiv_one]
      exact fits_toInt x
    · -- by anything else a quotient is at most half as large
      have hsize : (x.toInt.tdiv y.toInt).natAbs ≤ x.toInt.natAbs / 2 := by
        rw [Int.natAbs_tdiv]
        by_cases hzero : y.toInt = 0
        · rw [hzero, Int.natAbs_zero]
          exact Nat.le_trans (Nat.le_of_eq (Nat.div_zero _)) (Nat.zero_le _)
        · exact Nat.div_le_div_left (by omega) (by decide)
      unfold Fits
      omega

/-- A remainder always fits. -/
theorem fits_tmod (x y : Int64) : Fits (x.toInt.tmod y.toInt) := by
  by_cases hzero : y.toInt = 0
  · rw [hzero, Int.tmod_zero]
    exact fits_toInt x
  · obtain ⟨hlow, hhigh⟩ := fits_toInt y
    have hsize : (x.toInt.tmod y.toInt).natAbs < y.toInt.natAbs := by
      rw [Int.natAbs_tmod]
      exact Nat.mod_lt _ (Int.natAbs_pos.2 hzero)
    unfold Fits
    omega

theorem quotient_of_ne_zero {y : Int64} (hy : y ≠ 0) (x : Int64) :
    quotient x y = exact (x.toInt.tdiv y.toInt) := if_neg hy

theorem remainder_of_fits {x y : Int64} (hy : y ≠ 0) (h : Fits (x.toInt.tdiv y.toInt)) :
    remainder x y = exact (x.toInt.tmod y.toInt) := by
  obtain ⟨m, hm, -⟩ := int64?_of_fits h
  rw [remainder, if_neg hy, hm]

theorem remainder_of_not_fits {x y : Int64} (hy : y ≠ 0) (h : ¬ Fits (x.toInt.tdiv y.toInt)) :
    remainder x y = .error .integerOverflow := by
  rw [remainder, if_neg hy, int64?_of_not_fits h]

/-! ## Powers -/

theorem naturalPower_of_small {x : Int} (hx : x.natAbs ≤ 1) (n : Nat) :
    naturalPower x n = x ^ n := by
  have hreduced : naturalPower x n = x ^ (if n = 0 then 0 else 2 - n % 2) := if_pos hx
  rw [hreduced]
  by_cases hn : n = 0
  · rw [if_pos hn, hn]
  · rw [if_neg hn]
    obtain rfl | rfl | rfl : x = 0 ∨ x = 1 ∨ x = -1 := by omega
    · rw [zero_pow hn, zero_pow (by omega)]
    · rw [one_pow, one_pow]
    · rcases Nat.even_or_odd n with heven | hodd
      · rw [Nat.even_iff.1 heven, heven.neg_one_pow]
        rfl
      · rw [Nat.odd_iff.1 hodd, hodd.neg_one_pow]
        rfl

/-- A power of anything else from the 64th on does not fit. -/
theorem not_fits_pow {x : Int} (hx : 1 < x.natAbs) {n : Nat} (hn : 64 ≤ n) : ¬ Fits (x ^ n) := by
  have hsize : 2 ^ 64 ≤ (x ^ n).natAbs := by
    rw [Int.natAbs_pow]
    calc 2 ^ 64 ≤ x.natAbs ^ 64 := Nat.pow_le_pow_left hx 64
      _ ≤ x.natAbs ^ n := Nat.pow_le_pow_right (Nat.lt_of_succ_lt hx) hn
  rintro ⟨hlow, hhigh⟩
  omega

/-- Cutting off the exponent makes no difference. -/
theorem exact_naturalPower (x : Int) (n : Nat) : exact (naturalPower x n) = exact (x ^ n) := by
  by_cases hx : x.natAbs ≤ 1
  · rw [naturalPower_of_small hx]
  · have hpower : naturalPower x n = x ^ min n 64 := if_neg hx
    rw [hpower]
    by_cases hn : n ≤ 64
    · rw [Nat.min_eq_left hn]
    · have hlarge : 1 < x.natAbs := Nat.not_le.1 hx
      rw [Nat.min_eq_right (Nat.le_of_not_le hn), exact_of_not_fits (not_fits_pow hlarge le_rfl),
        exact_of_not_fits (not_fits_pow hlarge (Nat.le_of_not_le hn))]

/-- Powers of -1, 0 and 1 always fit. -/
theorem fits_pow_of_small {x : Int} (hx : x.natAbs ≤ 1) (n : Nat) : Fits (x ^ n) := by
  have hsize : (x ^ n).natAbs ≤ 1 := by
    rw [Int.natAbs_pow]
    calc x.natAbs ^ n ≤ 1 ^ n := Nat.pow_le_pow_left hx n
      _ = 1 := one_pow n
  unfold Fits
  omega

/-! ## All operations -/

/-- The exact result of an operation on two integers, where it has one: quotients are toward zero,
divisors are not zero, and exponents not negative. -/
def exactResult? : BinaryOp → Int → Int → Option Int
  | .add, x, y => some (x + y)
  | .sub, x, y => some (x - y)
  | .mul, x, y => some (x * y)
  | .div, x, y => if y = 0 then none else some (x.tdiv y)
  | .mod, x, y => if y = 0 then none else some (x.tmod y)
  | .pow, x, y => if 0 ≤ y then some (x ^ y.toNat) else none
  | _, _, _ => none

/-- The operations that say of a result that fits that it does not. -/
def Missed (op : BinaryOp) (x y : Int64) : Prop :=
  (op = .mod ∧ x = Int64.minValue ∧ y = -1) ∨
    (op = .pow ∧ 4294967296 ≤ y.toInt ∧ x.toInt.natAbs ≤ 1)

theorem missed_mod_iff {x y : Int64} : Missed .mod x y ↔ x = Int64.minValue ∧ y = -1 := by
  simp [Missed]

theorem missed_pow_iff {x y : Int64} :
    Missed .pow x y ↔ 4294967296 ≤ y.toInt ∧ x.toInt.natAbs ≤ 1 := by
  simp [Missed]

theorem not_missed {op : BinaryOp} (hmod : op ≠ .mod) (hpow : op ≠ .pow) (x y : Int64) :
    ¬ Missed op x y := by
  simp [Missed, hmod, hpow]

theorem exactResult?_div {x y : Int} (hy : y ≠ 0) : exactResult? .div x y = some (x.tdiv y) :=
  if_neg hy

theorem exactResult?_mod {x y : Int} (hy : y ≠ 0) : exactResult? .mod x y = some (x.tmod y) :=
  if_neg hy

variable (x y : Int64) (st : Store)

theorem binary_div : binary .div (.int x) (.int y) st = (.ofExcept (quotient x y), st) := rfl

theorem binary_mod : binary .mod (.int x) (.int y) st = (.ofExcept (remainder x y), st) := rfl

theorem binary_pow {y : Int64} (hy : 0 ≤ y.toInt) :
    binary .pow (.int x) (.int y) st = (.ofExcept (power x y), st) := by
  have hle : 0 ≤ y := Int64.le_iff_toInt_le.2 hy
  show (Value.ofExcept (if 0 ≤ y then power x y else _), st) = _
  rw [if_pos hle]

/-- An operation on two integers gives the exact result, or misses one that fits. -/
theorem exact_or_missed {op : BinaryOp} {n : Int} (h : exactResult? op x.toInt y.toInt = some n) :
    ∃ v, binary op (.int x) (.int y) st = (v, st) ∧
      ((¬ Missed op x y ∧ ExactOrOverflow n v) ∨
        (Missed op x y ∧ Fits n ∧ v = .error .integerOverflow)) := by
  have hzero : y = 0 ↔ y.toInt = 0 := Int64.toInt_inj.symm
  cases op
  case add | sub | mul =>
    obtain rfl := Option.some.inj h
    exact ⟨_, rfl, .inl ⟨not_missed (by decide) (by decide) x y, exactOrOverflow_exact _⟩⟩
  case div =>
    obtain ⟨hy, hn⟩ := Option.ite_none_left_eq_some.1 h
    obtain rfl := Option.some.inj hn
    rw [binary_div, quotient_of_ne_zero (mt hzero.1 hy)]
    exact ⟨_, rfl, .inl ⟨not_missed (by decide) (by decide) x y, exactOrOverflow_exact _⟩⟩
  case mod =>
    obtain ⟨hy, hn⟩ := Option.ite_none_left_eq_some.1 h
    obtain rfl := Option.some.inj hn
    rw [binary_mod, missed_mod_iff, ← not_fits_tdiv_iff]
    by_cases hfits : Fits (x.toInt.tdiv y.toInt)
    · rw [remainder_of_fits (mt hzero.1 hy) hfits]
      exact ⟨_, rfl, .inl ⟨not_not.2 hfits, exactOrOverflow_exact _⟩⟩
    · rw [remainder_of_not_fits (mt hzero.1 hy) hfits]
      exact ⟨_, rfl, .inr ⟨hfits, fits_tmod x y, rfl⟩⟩
  case pow =>
    obtain ⟨hy, hn⟩ := Option.ite_none_right_eq_some.1 h
    obtain rfl := Option.some.inj hn
    rw [binary_pow x st hy, missed_pow_iff, power]
    by_cases hshort : y.toInt < 4294967296
    · rw [if_pos hshort, exact_naturalPower]
      exact ⟨_, rfl, .inl ⟨by omega, exactOrOverflow_exact _⟩⟩
    · rw [if_neg hshort]
      refine ⟨_, rfl, ?_⟩
      by_cases hsmall : x.toInt.natAbs ≤ 1
      · exact .inr ⟨⟨Int.not_lt.1 hshort, hsmall⟩, fits_pow_of_small hsmall _, rfl⟩
      · have hlarge : ¬ Fits (x.toInt ^ y.toInt.toNat) :=
          not_fits_pow (Nat.not_le.1 hsmall) (by omega)
        exact .inl ⟨fun hmissed => hsmall hmissed.2, .inr ⟨hlarge, rfl⟩⟩
  all_goals cases h

theorem ofExcept_exact_ne (n : Int) : Value.ofExcept (exact n) ≠ .error .divisionByZero := by
  rcases exactOrOverflow_exact n with ⟨-, m, -, hv⟩ | ⟨-, hv⟩ <;> rw [hv] <;> simp

theorem divisionByZero_iff {op : BinaryOp} (hop : op = .div ∨ op = .mod) :
    binary op (.int x) (.int y) st = (.error .divisionByZero, st) ↔ y = 0 := by
  by_cases hy : y = 0
  · refine iff_of_true ?_ hy
    subst hy
    rcases hop with rfl | rfl <;> rfl
  · refine iff_of_false (fun h => ?_) hy
    have hv := congrArg Prod.fst h
    rcases hop with rfl | rfl
    · rw [binary_div, quotient_of_ne_zero hy] at hv
      exact ofExcept_exact_ne _ hv
    · rw [binary_mod] at hv
      by_cases hfits : Fits (x.toInt.tdiv y.toInt)
      · rw [remainder_of_fits hy hfits] at hv
        exact ofExcept_exact_ne _ hv
      · rw [remainder_of_not_fits hy hfits] at hv
        cases hv

theorem eq_of_exactOrOverflow {n : Int} {m : Int64} (h : ExactOrOverflow n (.int m)) :
    m.toInt = n := by
  rcases h with ⟨-, k, hk, hv⟩ | ⟨-, hv⟩
  · cases hv
    exact hk
  · cases hv

/-- An integer that an operation gives is the exact result. -/
theorem exact_of_gives {op : BinaryOp} {n : Int} {x y m : Int64} {st : Store}
    (hn : exactResult? op x.toInt y.toInt = some n)
    (h : binary op (.int x) (.int y) st = (.int m, st)) : m.toInt = n := by
  obtain ⟨v, hv, hright⟩ := exact_or_missed x y st hn
  obtain rfl : Value.int m = v := congrArg Prod.fst (h.symm.trans hv)
  rcases hright with ⟨-, hexact⟩ | ⟨-, -, hv⟩
  · exact eq_of_exactOrOverflow hexact
  · cases hv

/-- Quotient and remainder fit together. -/
theorem quotient_mul_add_remainder {x y q r : Int64} {st : Store}
    (hq : binary .div (.int x) (.int y) st = (.int q, st))
    (hr : binary .mod (.int x) (.int y) st = (.int r, st)) :
    x.toInt = q.toInt * y.toInt + r.toInt ∧ r.toInt.natAbs < y.toInt.natAbs := by
  have hy : y.toInt ≠ 0 := by
    intro hzero
    have hdivision := (divisionByZero_iff x y st (.inl rfl)).2 (Int64.toInt_inj.1 hzero)
    rw [hq] at hdivision
    cases hdivision
  have hquotient : q.toInt = x.toInt.tdiv y.toInt := exact_of_gives (exactResult?_div hy) hq
  have hremainder : r.toInt = x.toInt.tmod y.toInt := exact_of_gives (exactResult?_mod hy) hr
  rw [hquotient, hremainder]
  refine ⟨(Int.tdiv_mul_add_tmod _ _).symm, ?_⟩
  rw [Int.natAbs_tmod]
  exact Nat.mod_lt _ (Int.natAbs_pos.2 hy)

/-- Arithmetic on integers leaves the store alone. Where there is an exact result it is given if it
fits in 64 bits and is an overflow otherwise, for all operations but those that are missed: these
say that a result overflows that fits. Quotient and remainder divide by zero exactly if the divisor
is 0, and fit together where both are given. -/
theorem integer_arithmetic :
    (∀ op n, exactResult? op x.toInt y.toInt = some n →
      ∃ v, binary op (.int x) (.int y) st = (v, st) ∧
        (ExactOrOverflow n v ↔ ¬ Missed op x y) ∧
        (Missed op x y → Fits n ∧ v = .error .integerOverflow)) ∧
    (∃ v, unary .negate (.int x) st = (v, st) ∧ ExactOrOverflow (-x.toInt) v) ∧
    (∀ op, op = .div ∨ op = .mod →
      (binary op (.int x) (.int y) st = (.error .divisionByZero, st) ↔ y = 0)) ∧
    ∀ q r, binary .div (.int x) (.int y) st = (.int q, st) →
      binary .mod (.int x) (.int y) st = (.int r, st) →
      x.toInt = q.toInt * y.toInt + r.toInt ∧ r.toInt.natAbs < y.toInt.natAbs := by
  refine ⟨fun op n hn => ?results, ⟨_, rfl, exactOrOverflow_exact _⟩,
    fun op hop => divisionByZero_iff x y st hop, fun q r => quotient_mul_add_remainder⟩
  case results =>
    obtain ⟨v, hv, hright⟩ := exact_or_missed x y st hn
    refine ⟨v, hv, ?_⟩
    rcases hright with ⟨hright, hexact⟩ | ⟨hmissed, hfits, rfl⟩
    · exact ⟨iff_of_true hexact hright, fun hmissed => absurd hmissed hright⟩
    · exact ⟨iff_of_false (not_exactOrOverflow hfits) (not_not.2 hmissed), fun _ => ⟨hfits, rfl⟩⟩

/-- 1 to the power of 4294967295 is 1, and to the power of 4294967296 an overflow. -/
theorem integer_arithmetic_longExponent :
    (∃ v, binary .pow (.int 1) (.int 4294967295) .empty = (v, .empty) ∧ ExactOrOverflow 1 v) ∧
    ∃ v, binary .pow (.int 1) (.int 4294967296) .empty = (v, .empty) ∧ ¬ ExactOrOverflow 1 v := by
  constructor
  · obtain ⟨v, hv, hexact, -⟩ := (integer_arithmetic 1 4294967295 .empty).1 .pow 1 (by
      show some ((1 : Int) ^ (4294967295 : Nat)) = some 1
      rw [one_pow])
    exact ⟨v, hv, hexact.2 fun hmissed => absurd (missed_pow_iff.1 hmissed).1 (by decide)⟩
  · obtain ⟨v, hv, hexact, -⟩ := (integer_arithmetic 1 4294967296 .empty).1 .pow 1 (by
      show some ((1 : Int) ^ (4294967296 : Nat)) = some 1
      rw [one_pow])
    exact ⟨v, hv, fun h => hexact.1 h (missed_pow_iff.2 (by decide))⟩

end Operator

end ReactiveScript
