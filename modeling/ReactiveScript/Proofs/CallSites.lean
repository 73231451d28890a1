import ReactiveScript.Proofs.StackEffect

/-
  Where the arguments of a call begin.

  `argumentsStart` goes backward and adds up what instructions take and leave; going forward, the
  height must never fall below where it began. In code without jumps both are the same
  (`argumentsStart_eq_some`, `argumentsStart_eq_none`): no instruction leaves more than one value, so
  going backward the sum comes to the number of values exactly before it exceeds it, and as it was
  less everywhere behind, the height is positive behind every instruction (`heightAlong_of_less`).
  The code of expressions next to each other adds one value for each of them and never as many before
  its end, so the search comes to where they begin, and the function of a call is what stands before
  its arguments (`functionNameAt_of_expressions`).
-/

namespace ReactiveScript

/-! ## Sums of effects -/

/-- How much higher a frame is after an instruction. -/
def Instruction.growth (i : Instruction) : Int := i.popsAndPushes.2 - i.popsAndPushes.1

/-- How much higher a frame is after some instructions. -/
def growth : List Instruction → Int
  | [] => 0
  | i :: rest => i.growth + growth rest

@[simp] theorem growth_nil : growth [] = 0 := rfl

theorem growth_append (code code' : List Instruction) :
    growth (code ++ code') = growth code + growth code' := by
  induction code with
  | nil => exact (Int.zero_add _).symm
  | cons i rest ih =>
    show i.growth + growth (rest ++ code') = i.growth + growth rest + growth code'
    rw [ih, Int.add_assoc]

theorem Instruction.pushes_le_one {i : Instruction} (h : i.opcode.isStraight = true) :
    i.popsAndPushes.2 ≤ 1 := by
  obtain ⟨op, n, hn⟩ := i
  cases op <;> first | exact Nat.le_refl 1 | exact Nat.zero_le 1 | cases h

theorem Instruction.growth_le_one {i : Instruction} (h : i.opcode.isStraight = true) :
    i.growth ≤ 1 := by
  have := i.pushes_le_one h
  unfold growth
  omega

theorem growth_le_length {code : List Instruction} (h : ∀ i ∈ code, i.opcode.isStraight = true) :
    growth code ≤ code.length := by
  induction code with
  | nil => exact Int.le_refl 0
  | cons i rest ih =>
    obtain ⟨hi, hrest⟩ := List.forall_mem_cons.1 h
    have hone := i.growth_le_one hi
    have hle := ih hrest
    show i.growth + growth rest ≤ ((rest.length + 1 : Nat) : Int)
    omega

/-- A height that stays above the floor grows by the sum of the effects. -/
theorem eq_growth_of_heightAlong {code : List Instruction} {height height' : Nat}
    (h : heightAlong code height = some height') : (height' : Int) = height + growth code := by
  induction code generalizing height with
  | nil =>
    cases h
    exact (Int.add_zero _).symm
  | cons i rest ih =>
    obtain ⟨mid, hmid, hrest⟩ := Option.bind_eq_some_iff.1 h
    have hle := ih hrest
    unfold Instruction.heightAfter at hmid
    split at hmid
    · cases hmid
      show (height' : Int) = height + (i.growth + growth rest)
      unfold Instruction.growth
      omega
    · cases hmid

/-- If the part from any later instruction on adds less than is there in the end, then something is
left behind every instruction. None of them leaves more than one value, so none took one from below
the floor. -/
theorem heightAlong_of_less {code : List Instruction} {height values : Nat}
    (hstraight : ∀ i ∈ code, i.opcode.isStraight = true)
    (hless : ∀ rest, rest <:+ code → rest ≠ code → growth rest < values)
    (hvalues : height + growth code = values) : heightAlong code height = some values := by
  induction code generalizing height with
  | nil =>
    rw [growth_nil] at hvalues
    show some height = some values
    congr 1
    omega
  | cons i rest ih =>
    obtain ⟨hi, hrest⟩ := List.forall_mem_cons.1 hstraight
    have hone := i.pushes_le_one hi
    have hsum : growth (i :: rest) = i.growth + growth rest := rfl
    have hlater : growth rest < values :=
      hless rest (List.suffix_cons i rest) fun h => absurd (congrArg List.length h) (by simp)
    unfold Instruction.growth at hsum
    obtain ⟨mid, hmid⟩ : ∃ mid : Nat, (mid : Int) + growth rest = values :=
      ⟨(values - growth rest).toNat, by omega⟩
    show (i.heightAfter height).bind _ = _
    rw [Instruction.heightAfter_eq mid (by omega) (by omega)]
    refine ih hrest (fun later hsuffix hne => ?_) hmid
    refine hless later (hsuffix.trans (List.suffix_cons i rest)) fun h => ?_
    subst h
    have := hsuffix.length_le
    rw [List.length_cons] at this
    omega

namespace Script

/-! ## Code that leaves values -/

/-- Running from a position up to another one leaves some more values and takes none of those that
were there. -/
def Leaves {α : Type} (s : Script α) (start stop values : Nat) : Prop :=
  start ≤ stop ∧ heightAlong (s.between start stop) 0 = some values

/-- It is the last position for which this is so. -/
def LastToLeave {α : Type} (s : Script α) (start stop values : Nat) : Prop :=
  s.Leaves start stop values ∧ ∀ other, s.Leaves other stop values → other ≤ start

variable {α : Type} {s : Script α} {start stop pos values : Nat}

theorem IsStraight.between (hs : s.IsStraight) :
    ∀ i ∈ s.between start stop, i.opcode.isStraight = true := by
  intro i hi
  obtain ⟨k, -, -, hk⟩ := mem_between hi
  exact hs.get hk

theorem length_between_le (s : Script α) (start stop : Nat) :
    (s.between start stop).length ≤ stop - start :=
  List.length_take_le _ _

theorem length_between (hstop : stop ≤ s.length) :
    (s.between start stop).length = stop - start := by
  have hlen : s.code.toList.length = s.length := Array.length_toList
  unfold Script.between
  rw [List.length_take, List.length_drop, hlen]
  omega

theorem growth_between_le (h : ∀ i ∈ s.between start stop, i.opcode.isStraight = true) :
    growth (s.between start stop) ≤ (stop - start : Nat) := by
  have hle := growth_le_length h
  have hlen := s.length_between_le start stop
  omega

variable (s) in
theorem growth_between_self (pos : Nat) : growth (s.between pos pos) = 0 := by
  rw [between_self, growth_nil]

/-- A part at the end of a piece begins at a later position. -/
theorem exists_of_suffix_between {rest : List Instruction} (hle : start ≤ stop)
    (h : rest <:+ s.between start stop) (hne : rest ≠ s.between start stop) :
    ∃ later, start < later ∧ later ≤ stop ∧ rest = s.between later stop := by
  obtain ⟨front, hfront⟩ := h
  have hpos : 0 < front.length := by
    apply List.length_pos_iff.2
    rintro rfl
    exact hne hfront
  have hlen := s.length_between_le start stop
  rw [← hfront, List.length_append] at hlen
  refine ⟨start + front.length, by omega, by omega, ?_⟩
  have hdrop : (s.between start stop).drop front.length = rest := by
    rw [← hfront, List.drop_left]
  rw [← hdrop]
  unfold Script.between
  rw [List.drop_take, List.drop_drop, Nat.sub_sub]

/-- What the code from a position on adds, by its first instruction. -/
theorem growth_between_cons {i : Instruction} (hi : s.code[pos]? = some i) (hlt : pos < stop) :
    growth (s.between pos stop) = i.growth + growth (s.between (pos + 1) stop) := by
  rw [between_cons hi hlt]
  rfl

variable (s) in
theorem exists_instr (h : pos < s.length) : ∃ i, s.code[pos]? = some i :=
  ⟨_, Array.getElem?_eq_getElem h⟩

/-- The values are left by the code from where they are first added up, going backward. -/
theorem leaves_of_less (hs : s.IsStraight) (hle : start ≤ stop)
    (hvalues : growth (s.between start stop) = values)
    (hless : ∀ later, start < later → later ≤ stop → growth (s.between later stop) < values) :
    s.Leaves start stop values := by
  refine ⟨hle, heightAlong_of_less hs.between (fun rest hsuffix hne => ?_) ?_⟩
  · obtain ⟨later, hlt, hle, rfl⟩ := exists_of_suffix_between hle hsuffix hne
    exact hless later hlt hle
  · rw [hvalues]
    exact Int.zero_add _

theorem Leaves.growth_eq (h : s.Leaves start stop values) :
    growth (s.between start stop) = values := by
  have := eq_growth_of_heightAlong h.2
  omega

/-- Going backward, the sum is less than the number of values up to a position, or it has come to
that number exactly at a later one. -/
theorem less_or_exists (hs : s.IsStraight) (hstop : stop ≤ s.length) (hvalues : 0 < values)
    (hpos : pos ≤ stop) :
    (∀ later, pos ≤ later → later ≤ stop → growth (s.between later stop) < values) ∨
      ∃ start, pos ≤ start ∧ start < stop ∧ growth (s.between start stop) = values ∧
        ∀ later, start < later → later ≤ stop → growth (s.between later stop) < values := by
  obtain ⟨back, hback⟩ := Nat.exists_eq_add_of_le hpos
  induction back generalizing pos with
  | zero =>
    refine .inl fun later hle hle' => ?_
    obtain rfl : later = stop := by omega
    rw [growth_between_self]
    omega
  | succ back ih =>
    have hlater : pos + 1 ≤ stop := by omega
    rcases ih hlater (by omega) with hless | ⟨start, hle, hstart⟩
    · obtain ⟨i, hi⟩ := s.exists_instr (by omega : pos < s.length)
      have hone := i.growth_le_one (hs.get hi)
      have hsum := growth_between_cons hi hlater
      have hnext := hless (pos + 1) (Nat.le_refl _) (by omega)
      by_cases hlt : growth (s.between pos stop) < values
      · refine .inl fun later hle hle' => ?_
        rcases Nat.eq_or_lt_of_le hle with rfl | hlater
        · exact hlt
        · exact hless later hlater hle'
      · exact .inr ⟨pos, Nat.le_refl _, by omega, by omega, fun later hlt' => hless later hlt'⟩
    · exact .inr ⟨start, by omega, hstart⟩

/-- There is a last position from which on the values are left, or there is none. -/
theorem exists_lastToLeave (hs : s.IsStraight) (hstop : stop ≤ s.length) (hvalues : 0 < values) :
    (∃ start, s.LastToLeave start stop values) ∨ ∀ start, ¬ s.Leaves start stop values := by
  rcases less_or_exists hs hstop hvalues (Nat.zero_le stop) with
    hless | ⟨start, -, hlt, hsum, hless⟩
  · refine .inr fun start h => ?_
    have hlt := hless start (Nat.zero_le start) h.1
    have hsum := h.growth_eq
    omega
  · refine .inl ⟨start, leaves_of_less hs (Nat.le_of_lt hlt) hsum hless, fun other h => ?_⟩
    have hother := h.growth_eq
    by_cases hle : other ≤ start
    · exact hle
    · have := hless other (by omega) h.1
      omega

/-- The counts of missing values fit in a signed number, so are below 2^63, wherever the search gets
to. -/
def CountsFit {α : Type} (s : Script α) (stop values : Nat) : Prop :=
  ∀ start, start ≤ stop → values - growth (s.between start stop) < 9223372036854775808

/-! ## The search -/

/-- Counts that fit are not wrapped around. -/
theorem missingCount_eq {n : Int} (h : 0 ≤ n) (hfits : n < 9223372036854775808) :
    missingCount n = n := by
  unfold missingCount
  exact Int.bmod_eq_of_le (by omega) (by omega)

theorem argumentsStartBefore_of_instr {i : Instruction} (hi : s.code[pos]? = some i) (need : Int) :
    argumentsStartBefore s.code (pos + 1) need =
      let need := missingCount (need - i.popsAndPushes.2 + i.popsAndPushes.1)
      if need ≤ 0 then some pos else argumentsStartBefore s.code pos need := by
  rw [argumentsStartBefore, hi]

/-- One round of the search, as long as the count fits. -/
theorem argumentsStartBefore_succ {i : Instruction} (hi : s.code[pos]? = some i) (hlt : pos < stop)
    (hless : growth (s.between pos stop) ≤ values)
    (hfits : values - growth (s.between pos stop) < 9223372036854775808) :
    argumentsStartBefore s.code (pos + 1) (values - growth (s.between (pos + 1) stop)) =
      if growth (s.between pos stop) = values then some pos
      else argumentsStartBefore s.code pos (values - growth (s.between pos stop)) := by
  have hneed : missingCount (values - growth (s.between (pos + 1) stop) - i.popsAndPushes.2 +
      i.popsAndPushes.1) = values - growth (s.between pos stop) := by
    have hsum := growth_between_cons hi hlt
    unfold Instruction.growth at hsum
    rw [← missingCount_eq (by omega) hfits]
    congr 1
    omega
  rw [argumentsStartBefore_of_instr hi, hneed]
  dsimp only
  by_cases heq : growth (s.between pos stop) = values
  · rw [if_pos heq, if_pos (by omega)]
  · rw [if_neg heq, if_neg (by omega)]

/-- The search stops where the values are first added up. The counts on its way fit, because they are
no larger than the code is long. -/
theorem argumentsStartBefore_eq_some (hsize : s.length < 9223372036854775808)
    (hstop : stop ≤ s.length)
    (hstraight : ∀ i ∈ s.between start stop, i.opcode.isStraight = true)
    (hvalues : growth (s.between start stop) = values)
    (hless : ∀ later, start < later → later ≤ stop → growth (s.between later stop) < values)
    (hstart : start < pos) (hpos : pos ≤ stop) :
    argumentsStartBefore s.code pos (values - growth (s.between pos stop)) = some start := by
  induction pos with
  | zero => omega
  | succ pos ih =>
    obtain ⟨i, hi⟩ := s.exists_instr (by omega : pos < s.length)
    have hsplit : s.between start stop = s.between start pos ++ s.between pos stop :=
      between_append (by omega) (by omega)
    have hparts : growth (s.between start stop) =
        growth (s.between start pos) + growth (s.between pos stop) := by
      rw [hsplit, growth_append]
    have hsmall : growth (s.between start pos) ≤ (pos - start : Nat) :=
      growth_between_le fun i hi => hstraight i (hsplit ▸ List.mem_append_left _ hi)
    rcases Nat.eq_or_lt_of_le (Nat.le_of_lt_succ hstart) with rfl | hlt
    · rw [argumentsStartBefore_succ hi (by omega) (by omega) (by omega), if_pos hvalues]
    · have hlater := hless pos hlt (by omega)
      rw [argumentsStartBefore_succ hi (by omega) (by omega) (by omega), if_neg (by omega)]
      exact ih hlt (by omega)

/-- The search finds nothing where the values are never added up. -/
theorem argumentsStartBefore_eq_none (hstop : stop ≤ s.length) (hpos : pos ≤ stop)
    (hless : ∀ start, start ≤ stop → growth (s.between start stop) < values)
    (hfits : s.CountsFit stop values) :
    argumentsStartBefore s.code pos (values - growth (s.between pos stop)) = none := by
  induction pos with
  | zero => rfl
  | succ pos ih =>
    obtain ⟨i, hi⟩ := s.exists_instr (by omega : pos < s.length)
    have hlt := hless pos (by omega)
    rw [argumentsStartBefore_succ hi (by omega) (by omega) (hfits pos (by omega)),
      if_neg (by omega)]
    exact ih (by omega)

theorem argumentsStart_eq_before (hstop : stop ≤ s.length) (hvalues : 0 < values)
    (hfits : values < 9223372036854775808) : s.argumentsStart stop values =
      argumentsStartBefore s.code stop (values - growth (s.between stop stop)) := by
  have hmin : min stop s.code.size = stop := Nat.min_eq_left hstop
  unfold argumentsStart
  rw [if_neg (by omega), hmin, missingCount_eq (by omega) (by omega), growth_between_self,
    Int.sub_zero]

/-- The answer of the search is where the values are first added up, going backward. -/
theorem argumentsStart_of_less (hsize : s.length < 9223372036854775808) (hle : start ≤ stop)
    (hstop : stop ≤ s.length)
    (hstraight : ∀ i ∈ s.between start stop, i.opcode.isStraight = true)
    (hvalues : growth (s.between start stop) = values)
    (hless : ∀ later, start < later → later ≤ stop → growth (s.between later stop) < values) :
    s.argumentsStart stop values = some start := by
  have hsmall := growth_between_le hstraight
  rcases Nat.eq_or_lt_of_le hle with rfl | hlt
  · rw [growth_between_self] at hvalues
    obtain rfl : values = 0 := by omega
    exact if_pos rfl
  · have hpositive := hless stop hlt (Nat.le_refl stop)
    rw [growth_between_self] at hpositive
    rw [argumentsStart_eq_before hstop (by omega) (by omega)]
    exact argumentsStartBefore_eq_some hsize hstop hstraight hvalues hless hlt (Nat.le_refl stop)

/-- Where code without jumps begins to leave the values is found. -/
theorem argumentsStart_eq_some (hs : s.IsStraight) (hsize : s.length < 9223372036854775808)
    (hstop : stop ≤ s.length) (hvalues : 0 < values) (h : s.LastToLeave start stop values) :
    s.argumentsStart stop values = some start := by
  refine argumentsStart_of_less hsize h.1.1 hstop hs.between h.1.growth_eq ?_
  intro later hlt hle
  rcases less_or_exists hs hstop hvalues hle with hless | ⟨other, hother, hlt', hgrowth, hless⟩
  · exact hless later (Nat.le_refl later) hle
  · have hleaves := leaves_of_less hs (Nat.le_of_lt hlt') hgrowth hless
    have := h.2 other hleaves
    omega

/-- Nothing is found if the code without jumps leaves the values from nowhere on, as long as the
counts on the way fit. -/
theorem argumentsStart_eq_none (hs : s.IsStraight) (hstop : stop ≤ s.length) (hvalues : 0 < values)
    (h : ∀ start, ¬ s.Leaves start stop values) (hfits : s.CountsFit stop values) :
    s.argumentsStart stop values = none := by
  have hvaluesFit := hfits stop (Nat.le_refl stop)
  rw [growth_between_self] at hvaluesFit
  rw [argumentsStart_eq_before hstop hvalues (by omega)]
  refine argumentsStartBefore_eq_none hstop (Nat.le_refl stop) ?_ hfits
  rcases less_or_exists hs hstop hvalues (Nat.zero_le stop) with
    hless | ⟨start, -, hlt, hsum, hless⟩
  · exact fun start hle => hless start (Nat.zero_le start) hle
  · exact absurd (leaves_of_less hs (Nat.le_of_lt hlt) hsum hless) (h start)

/-- A count that a signed number takes for a negative one ends the search at the last instruction, if
that takes no more values than it leaves. -/
theorem argumentsStart_of_large {i : Instruction} (hi : s.code[pos]? = some i)
    (htakes : i.popsAndPushes.1 ≤ i.popsAndPushes.2) (hleaves : i.popsAndPushes.2 ≤ 1)
    (hlarge : 9223372036854775808 < values) (hlt : values < 18446744073709551616) :
    s.argumentsStart (pos + 1) values = some pos := by
  obtain ⟨hpos, -⟩ := Array.getElem?_eq_some_iff.1 hi
  have hmin : min (pos + 1) s.code.size = pos + 1 := Nat.min_eq_left hpos
  have hwrapped : missingCount values = values - 18446744073709551616 := by
    unfold missingCount
    rw [Int.bmod_def]
    omega
  have hround :
      missingCount ((values - 18446744073709551616 : Int) - i.popsAndPushes.2 +
        i.popsAndPushes.1) ≤ 0 := by
    unfold missingCount
    rw [Int.bmod_eq_of_le (by omega) (by omega)]
    omega
  unfold argumentsStart
  rw [if_neg (by omega), hmin, hwrapped, argumentsStartBefore_of_instr hi]
  exact if_pos hround

end Script

/-! ## Expressions -/

/-- The number of expressions that an instruction makes one of, if it does that: an operator its
operands, an object its keys and values, a call the function and its arguments. -/
def Instruction.partCount? (i : Instruction) : Option Nat :=
  match i.opcode with
  | .pushConst | .getVar | .dup => some 0
  | .memberC | .setVar | .unary => some 1
  | .binary => some 2
  | .ternary => some 3
  | .quaternary => some 4
  | .makeObject => some (2 * i.operand)
  | .call | .closure | .tailCall => some (i.operand + 1)
  | _ => none

/-- The number of records of argument names behind an instruction. -/
def Instruction.recordCount (i : Instruction) : Nat :=
  match i.opcode with
  | .call | .closure | .tailCall => i.operand
  | _ => 0

mutual

/-- Code of an expression without jumps: that of its parts, the instruction that makes one value of
theirs, and the records of argument names that belong to it. -/
inductive IsExpression : List Instruction → Prop
  | of {i : Instruction} {n : Nat} {parts records : List Instruction} : i.partCount? = some n →
    AreExpressions n parts → records.length = i.recordCount →
    (∀ r ∈ records, r.opcode = .setVar) → IsExpression (parts ++ i :: records)

/-- Code of some expressions next to each other. -/
inductive AreExpressions : Nat → List Instruction → Prop
  | none : AreExpressions 0 []
  | more {n : Nat} {code code' : List Instruction} : AreExpressions n code → IsExpression code' →
    AreExpressions (n + 1) (code ++ code')

end

/-- An expression that is no call. -/
theorem IsExpression.plain {i : Instruction} {n : Nat} {parts : List Instruction}
    (hcount : i.partCount? = some n) (hrecords : i.recordCount = 0)
    (hparts : AreExpressions n parts) : IsExpression (parts ++ [i]) :=
  .of hcount hparts hrecords.symm fun r hr => by cases hr

theorem Instruction.isStraight_of_partCount? {i : Instruction} {n : Nat}
    (h : i.partCount? = some n) : i.opcode.isStraight = true := by
  obtain ⟨op, k, hk⟩ := i
  cases op <;> first | rfl | cases h

theorem Instruction.growth_of_partCount? {i : Instruction} {n : Nat} (h : i.partCount? = some n) :
    i.growth = 1 - n := by
  obtain ⟨op, k, hk⟩ := i
  cases op with
  | pushConst | getVar | dup | memberC | setVar | unary | binary | ternary | quaternary | makeObject
  | call | closure | tailCall =>
    cases h
    rfl
  | nop | pop | jump | jumpIfNot | jumpScAnd | jumpScOr | loop | loopWithKey | ret => cases h

/-- Code without jumps that leaves some values, and fewer of them from any later instruction on. -/
structure Contributes (n : Nat) (code : List Instruction) : Prop where
  straight : ∀ i ∈ code, i.opcode.isStraight = true
  total : growth code = n
  less : ∀ rest, rest <:+ code → rest ≠ code → growth rest < n

namespace Contributes

variable {n k : Nat} {code code' : List Instruction}

theorem nil : Contributes 0 [] where
  straight i hi := by cases hi
  total := rfl
  less rest h hne := absurd (List.suffix_nil.1 h) hne

theorem pos_of_ne_nil (h : Contributes n code) (hne : code ≠ []) : 0 < n := by
  have hless := h.less [] List.nil_suffix (Ne.symm hne)
  rw [growth_nil] at hless
  omega

/-- A part at the end of two pieces begins in one of them. -/
theorem growth_lt_of_suffix (h : Contributes n code) {rest : List Instruction}
    (hsuffix : rest <:+ code ++ code') (hne : rest ≠ code ++ code') :
    growth rest < n + growth code' ∨ rest <:+ code' ∧ (rest = code' → 0 < n) := by
  obtain ⟨front, hfront⟩ := hsuffix
  rcases List.append_eq_append_iff.1 hfront with ⟨later, hcode, rfl⟩ | ⟨back, hcode, hback⟩
  · have hless := h.less later ⟨front, hcode.symm⟩ fun heq => hne (by rw [heq])
    rw [growth_append]
    exact .inl (by omega)
  · refine .inr ⟨⟨back, hback.symm⟩, fun heq => h.pos_of_ne_nil fun hnil => hne ?_⟩
    rw [heq, hnil, List.nil_append]

theorem append (h : Contributes n code) (h' : Contributes k code') :
    Contributes (n + k) (code ++ code') where
  straight := List.forall_mem_append.2 ⟨h.straight, h'.straight⟩
  total := by
    rw [growth_append, h.total, h'.total]
    exact (Int.natCast_add n k).symm
  less rest hsuffix hne := by
    have htotal := h'.total
    rcases h.growth_lt_of_suffix hsuffix hne with hlt | ⟨hsuffix', hpos⟩
    · omega
    · by_cases heq : rest = code'
      · have := hpos heq
        rw [heq]
        omega
      · have := h'.less rest hsuffix' heq
        omega

/-- An instruction that makes one value of those that were left. -/
theorem apply {i : Instruction} {records : List Instruction} (h : Contributes n code)
    (hi : i.partCount? = some n) (hrecords : ∀ r ∈ records, r.opcode = .setVar) :
    Contributes 1 (code ++ i :: records) := by
  have hnone : ∀ rest, rest <:+ records → growth rest = 0 := by
    intro rest hrest
    have hheight := heightAlong_records (fun r hr => hrecords r (hrest.subset hr)) 0
    have := eq_growth_of_heightAlong hheight
    omega
  have hgrowth : growth (i :: records) = 1 - n := by
    show i.growth + growth records = _
    rw [hnone records (List.suffix_refl records), i.growth_of_partCount? hi, Int.add_zero]
  refine ⟨?_, ?_, fun rest hsuffix hne => ?_⟩
  · refine List.forall_mem_append.2 ⟨h.straight, List.forall_mem_cons.2
      ⟨i.isStraight_of_partCount? hi, fun r hr => ?_⟩⟩
    rw [hrecords r hr]
    rfl
  · rw [growth_append, h.total, hgrowth]
    omega
  · rcases h.growth_lt_of_suffix hsuffix hne with hlt | ⟨hsuffix', hpos⟩
    · omega
    · rcases List.suffix_cons_iff.1 hsuffix' with rfl | hlater
      · have := hpos rfl
        omega
      · rw [hnone rest hlater]
        omega

end Contributes

mutual

/-- An expression leaves its value. -/
theorem IsExpression.contributes {code : List Instruction} :
    IsExpression code → Contributes 1 code
  | .of hcount hparts _ hrecords => hparts.contributes.apply hcount hrecords

/-- Expressions next to each other leave a value each. -/
theorem AreExpressions.contributes {n : Nat} {code : List Instruction} :
    AreExpressions n code → Contributes n code
  | .none => .nil
  | .more hcode hlast => hcode.contributes.append hlast.contributes

end

namespace Script

variable {s : Script Value} {names : Names} {start stop pos callPos n : Nat} {i c : Instruction}

/-- The search comes to where expressions next to each other begin. -/
theorem argumentsStart_of_expressions (hsize : s.length < 9223372036854775808) (hle : start ≤ stop)
    (hstop : stop ≤ s.length) (h : AreExpressions n (s.between start stop)) :
    s.argumentsStart stop n = some start := by
  have hcontributes := h.contributes
  refine argumentsStart_of_less hsize hle hstop hcontributes.straight hcontributes.total ?_
  intro later hlt hle'
  refine hcontributes.less _ ?_ fun heq => ?_
  · rw [between_append (Nat.le_of_lt hlt) hle']
    exact List.suffix_append _ _
  · have hlength := congrArg List.length heq
    rw [length_between hstop, length_between hstop] at hlength
    omega

/-- The function of a call is what stands before its arguments. -/
theorem functionNameAt_of_expressions (names : Names) (hsize : s.length < 9223372036854775808)
    (hfunction : s.code[pos]? = some i) (hcall : s.code[callPos]? = some c) (hlt : pos < callPos)
    (h : AreExpressions c.operand (s.between (pos + 1) callPos)) :
    s.functionNameAt names callPos = s.pushedName names i := by
  obtain ⟨hcallPos, -⟩ := Array.getElem?_eq_some_iff.1 hcall
  have hstart := argumentsStart_of_expressions hsize hlt (Nat.le_of_lt hcallPos) h
  unfold functionNameAt
  rw [hcall, Option.bind_eq_bind, Option.bind_some, hstart, Option.bind_eq_bind, Option.bind_some]
  dsimp only
  rw [hfunction]
  rfl

/-- **The search for the arguments of a call is exact in code without jumps.** It finds the last
position from which on the code leaves the wanted number of values without taking one that was there
before, and nothing if there is none, as long as the counts of missing values fit in a signed number,
as the length of any code in memory does; the heights that it goes by are those of the frame when the
code is run. So the name of a call whose arguments are expressions without jumps is that of the
variable or the member before them. -/
theorem backtrace_exact (budget : Nat) (names : Names) (s : Script Value)
    (hsize : s.length < 9223372036854775808) :
    (s.IsStraight → ∀ stop values : Nat, stop ≤ s.length → 0 < values →
      (∀ start, s.LastToLeave start stop values → s.argumentsStart stop values = some start) ∧
      (s.CountsFit stop values →
        (∀ start, s.argumentsStart stop values = some start ↔ s.LastToLeave start stop values) ∧
        (s.argumentsStart stop values = none ↔ ∀ start, ¬ s.Leaves start stop values))) ∧
    (∀ (base pos next : Nat) (m m' : Machine) (i : Instruction),
      s.code[pos]? = some i → i.opcode.isStraight = true → base ≤ m.context.stack.length →
        Run.step (Run.callFor budget) s base pos m = (.ok (.goto next), m') →
          pos < next ∧ base ≤ m'.context.stack.length ∧
            heightAlong (s.between pos next) (m.context.stack.length - base) =
              some (m'.context.stack.length - base)) ∧
    (s.IsStraight → ∀ (base steps start stop : Nat) (m m' : Machine),
      base ≤ m.context.stack.length →
        Run.Arrives (Run.callFor budget) s base steps start m stop m' →
          start ≤ stop ∧ base ≤ m'.context.stack.length ∧
            heightAlong (s.between start stop) (m.context.stack.length - base) =
              some (m'.context.stack.length - base)) ∧
    (∀ (pos callPos : Nat) (i c : Instruction),
      s.code[pos]? = some i → s.code[callPos]? = some c → pos < callPos →
        AreExpressions c.operand (s.between (pos + 1) callPos) →
          (i.opcode = .getVar →
            s.functionNameAt names callPos = some (names.nameOf ⟨i.operand⟩)) ∧
          (∀ v, i.opcode = .memberC → s.constant? i.operand = some v →
            s.functionNameAt names callPos = some v.display)) := by
  refine ⟨?_, ?_, ?_, ?_⟩
  · intro hs stop values hstop hvalues
    refine ⟨fun start h => argumentsStart_eq_some hs hsize hstop hvalues h, fun hfits => ?_⟩
    rcases exists_lastToLeave hs hstop hvalues with ⟨last, hlast⟩ | hnone
    · have hfound := argumentsStart_eq_some hs hsize hstop hvalues hlast
      refine ⟨fun start => ⟨fun h => ?_, argumentsStart_eq_some hs hsize hstop hvalues⟩,
        fun h => ?_, fun h => absurd hlast.1 (h last)⟩
      · rw [hfound] at h
        exact Option.some.inj h ▸ hlast
      · rw [hfound] at h
        cases h
    · have hmissing := argumentsStart_eq_none hs hstop hvalues hnone hfits
      refine ⟨fun start => ⟨fun h => ?_, fun h => absurd h.1 (hnone start)⟩, fun _ => hnone,
        fun _ => hmissing⟩
      rw [hmissing] at h
      cases h
  · intro base pos next m m' i hi hstraight hbase h
    exact Run.step_height (Run.callFor_neutral budget) hi hstraight hbase h
  · intro hs base steps start stop m m' hbase h
    exact h.height (Run.callFor_neutral budget) hs hbase
  · intro pos callPos i c hfunction hcall hlt h
    rw [functionNameAt_of_expressions names hsize hfunction hcall hlt h]
    unfold pushedName
    refine ⟨fun hget => ?_, fun v hmember hv => ?_⟩
    · rw [hget]
    · rw [hmember, hv]
      rfl

/-- The call of a function on a sum, `f(a + 1)`. -/
def callOnSum : Script Value :=
  ⟨0, #[.of .getVar 0, .of .getVar 1, .of .pushConst 0, .of .binary 2, .of .call 1, .of .setVar 2],
    #[.int 1]⟩

theorem backtrace_exact_callOnSum :
    callOnSum.length < 9223372036854775808 ∧
      callOnSum.argumentsStart 4 1 = some 1 ∧ callOnSum.argumentsStart 4 3 = none ∧
      heightAlong (callOnSum.between 0 1) 0 = some 1 ∧
      callOnSum.functionNameAt ⟨#["f", "a", "x"]⟩ 4 = some "f" := by
  have hsize : callOnSum.length < 9223372036854775808 := by decide
  obtain ⟨hsearch, -, harrives, hname⟩ := backtrace_exact 8 ⟨#["f", "a", "x"]⟩ callOnSum hsize
  have hs : callOnSum.IsStraight := by
    unfold IsStraight
    decide
  have hlast : callOnSum.LastToLeave 1 4 1 := by
    refine ⟨⟨by decide, by decide⟩, fun other h => ?_⟩
    obtain ⟨hle, hheight⟩ := h
    by_cases hother : other ≤ 1
    · exact hother
    · obtain rfl | rfl | rfl : other = 2 ∨ other = 3 ∨ other = 4 := by omega
      · cases hheight
      · cases hheight
      · cases hheight
  have hnone : ∀ start, ¬ callOnSum.Leaves start 4 3 := by
    rintro start ⟨hle, hheight⟩
    obtain rfl | rfl | rfl | rfl | rfl :
      start = 0 ∨ start = 1 ∨ start = 2 ∨ start = 3 ∨ start = 4 := by omega
    all_goals cases hheight
  have hfits : callOnSum.CountsFit 4 3 := by
    intro start hle
    obtain rfl | rfl | rfl | rfl | rfl :
      start = 0 ∨ start = 1 ∨ start = 2 ∨ start = 3 ∨ start = 4 := by omega
    all_goals decide
  have hfound := (hsearch hs 4 1 (by decide) (by decide)).1 1 hlast
  have hmissing := (((hsearch hs 4 3 (by decide) (by decide)).2 hfits).2).2 hnone
  -- The argument is the sum of a variable and a constant.
  have hsum : AreExpressions 1 (callOnSum.between 1 4) :=
    .more .none (.plain (i := .of .binary 2) rfl rfl
      (.more (.more .none (.plain (i := .of .getVar 1) rfl rfl .none))
        (.plain (i := .of .pushConst 0) rfl rfl .none)))
  have hnamed := (hname 0 4 (.of .getVar 0) (.of .call 1) rfl rfl (by decide) hsum).1 rfl
  have hheight := (harrives hs 0 1 0 1 Run.machineInScope _ (Nat.zero_le _)
    (.step rfl (.here 1 _))).2.2
  exact ⟨hsize, hfound, hmissing, hheight, hnamed⟩

end Script

end ReactiveScript
