import ReactiveScript.Script.Builder

/-
  Assembled code.

  `Adds` says what a builder has collected since another one: as long as no operand overflows, code
  with its constants. Jumps are pointed ahead once it is known where they land (`Adds.jumpOver`,
  `Adds.choice`). `HasCode` finds the pieces of the code in the script that is built.
-/

namespace ReactiveScript

/-! ## What a builder has collected -/

namespace Builder

/-- The instructions as opcodes with their operands. -/
def ops (b : Builder) : List (Opcode × Nat) := b.code.toList.map fun i => (i.opcode, i.operand)

theorem length_ops (b : Builder) : b.ops.length = b.position := by
  unfold ops position
  rw [List.length_map, Array.length_toList]

/-- Unless an operand overflows, `b'` has collected what `b` had, and more. -/
structure Adds (b b' : Builder) (code : List (Opcode × Nat)) (constants : List Value) : Prop where
  position_eq : b'.position = b.position + code.length
  constants_eq : b'.constants.toList = b.constants.toList ++ constants
  ops_eq : b'.error = none → b.error = none ∧ b'.ops = b.ops ++ code

variable {b b' b'' : Builder} {code code' : List (Opcode × Nat)} {list list' : List Value}

theorem Adds.trans (h : Adds b b' code list) (h' : Adds b' b'' code' list') :
    Adds b b'' (code ++ code') (list ++ list') := by
  refine ⟨?_, ?_, fun he => ?_⟩
  · rw [h'.position_eq, h.position_eq, List.length_append, Nat.add_assoc]
  · rw [h'.constants_eq, h.constants_eq, List.append_assoc]
  · obtain ⟨he', ho'⟩ := h'.ops_eq he
    obtain ⟨he, ho⟩ := h.ops_eq he'
    exact ⟨he, by rw [ho', ho, List.append_assoc]⟩

theorem Adds.size_constants (h : Adds b b' code list) :
    b'.constants.size = b.constants.size + list.length := by
  rw [← Array.length_toList, h.constants_eq, List.length_append, Array.length_toList]

/-- The error of an operand, if it does not fit. -/
def misfit (n : Nat) : Option EncodeError :=
  if n < operandBound then none else some (.operandOverflow n)

theorem lt_of_misfit {n : Nat} (h : misfit n = none) : n < operandBound := by
  unfold misfit at h
  split at h
  · assumption
  · cases h

/-- Whatever the operand, one instruction is appended. -/
theorem append_cases (b : Builder) (op : Opcode) (n : Nat) :
    (b.append op n).ops = b.ops ++ [if n < operandBound then (op, n) else (.nop, 0)] ∧
      (b.append op n).constants = b.constants ∧
      (b.append op n).error = b.error.or (misfit n) := by
  unfold append Instruction.make misfit
  by_cases h : n < operandBound
  · simp only [dif_pos h, if_pos h, Option.or_none]
    refine ⟨?_, trivial, trivial⟩
    simp [ops]
  · simp only [dif_neg h, if_neg h]
    refine ⟨?_, rfl, rfl⟩
    simp [ops, Instruction.nop]

theorem adds_append (b : Builder) (op : Opcode) (n : Nat) : Adds b (b.append op n) [(op, n)] [] := by
  obtain ⟨hops, hconstants, herror⟩ := append_cases b op n
  refine ⟨?_, ?_, fun he => ?_⟩
  · rw [← length_ops, ← length_ops, hops, List.length_append]
    rfl
  · rw [hconstants, List.append_nil]
  · rw [herror] at he
    obtain ⟨hb, hfits⟩ := Option.or_eq_none_iff.1 he
    rw [hops, if_pos (lt_of_misfit hfits)]
    exact ⟨hb, rfl⟩

theorem position_append (b : Builder) (op : Opcode) (n : Nat) :
    (b.append op n).position = b.position + 1 := (adds_append b op n).position_eq

theorem size_constants_append (b : Builder) (op : Opcode) (n : Nat) :
    (b.append op n).constants.size = b.constants.size := (adds_append b op n).size_constants

theorem adds_onConstant (b : Builder) (op : Opcode) (v : Value) :
    Adds b (b.onConstant op v) [(op, b.constants.size)] [v] := by
  have h := adds_append (b.addConstant v) op b.constants.size
  refine ⟨h.position_eq, ?_, h.ops_eq⟩
  rw [onConstant, h.constants_eq, List.append_nil]
  exact Array.toList_push

theorem getElem?_ops (b : Builder) (p : Nat) :
    b.ops[p]? = (b.code[p]?).map fun i => (i.opcode, i.operand) := by
  unfold ops
  rw [List.getElem?_map, Array.getElem?_toList]

/-- A jump that is pointed to the next instruction keeps its opcode, and its operand too if the
target does not fit. -/
theorem landHere_at {label : Label} {op : Opcode} {target : Nat}
    (hop : b.ops[label.position]? = some (op, target)) :
    (b.landHere label).ops =
        (if b.position < operandBound then b.ops.set label.position (op, b.position) else b.ops) ∧
      (b.landHere label).constants = b.constants ∧
      (b.landHere label).error = b.error.or (misfit b.position) := by
  rw [getElem?_ops] at hop
  obtain ⟨i, hi, hop⟩ := Option.map_eq_some_iff.1 hop
  cases hop
  unfold landHere misfit
  rw [hi]
  dsimp only
  unfold Instruction.setOperand Instruction.make
  by_cases h : b.position < operandBound
  · simp only [dif_pos h, if_pos h, Option.or_none]
    refine ⟨?_, trivial, trivial⟩
    simp only [ops, Array.toList_setIfInBounds, List.map_set]
  · simp only [dif_neg h, if_neg h]
    exact ⟨rfl, rfl, rfl⟩

/-- Pointing a jump to the next instruction changes its operand, unless that overflows. -/
theorem landHere_cases (b : Builder) (label : Label) :
    (b.landHere label).position = b.position ∧ (b.landHere label).constants = b.constants ∧
      ((b.landHere label).error = none → b.error = none ∧ ∀ op n,
        b.ops[label.position]? = some (op, n) →
        (b.landHere label).ops = b.ops.set label.position (op, b.position)) := by
  cases hop : b.ops[label.position]? with
  | none =>
    have hnothing : b.landHere label = b := by
      rw [getElem?_ops] at hop
      unfold landHere
      rw [Option.map_eq_none_iff.1 hop]
    rw [hnothing]
    exact ⟨rfl, rfl, fun he => ⟨he, fun op n h => by cases h⟩⟩
  | some entry =>
    obtain ⟨hops, hconstants, herror⟩ := landHere_at hop
    refine ⟨?_, hconstants, fun he => ?_⟩
    · rw [← length_ops, ← length_ops, hops]
      split
      · exact List.length_set
      · rfl
    · rw [herror] at he
      obtain ⟨hb, hfits⟩ := Option.or_eq_none_iff.1 he
      refine ⟨hb, fun op n h => ?_⟩
      cases h
      rw [hops, if_pos (lt_of_misfit hfits)]

theorem Adds.landHere {before after : List (Opcode × Nat)} {op : Opcode} {n : Nat} {label : Label}
    (h : Adds b b' (before ++ (op, n) :: after) list)
    (hlabel : label.position = b.position + before.length) :
    Adds b (b'.landHere label) (before ++ (op, b'.position) :: after) list := by
  obtain ⟨hposition, hconstants, hops⟩ := landHere_cases b' label
  refine ⟨?_, hconstants ▸ h.constants_eq, fun he => ?_⟩
  · rw [hposition, h.position_eq, List.length_append, List.length_append]
    rfl
  · obtain ⟨he', hset⟩ := hops he
    obtain ⟨hb, ho⟩ := h.ops_eq he'
    have hlen : label.position = (b.ops ++ before).length := by
      rw [hlabel, List.length_append, length_ops]
    rw [← List.append_assoc] at ho
    have hget : b'.ops[label.position]? = some (op, n) := by
      rw [ho, hlen, List.getElem?_append_right (Nat.le_refl _), Nat.sub_self]
      rfl
    refine ⟨hb, ?_⟩
    rw [hset op n hget, ho, hlen, List.set_append_right _ _ (Nat.le_refl _), Nat.sub_self,
      List.set_cons_zero, List.append_assoc]

/-- Code with a jump over what follows. -/
theorem Adds.jumpOver (h : Adds b b' code list) (op : Opcode)
    (h' : Adds (b'.append op 0) b'' code' list') :
    Adds b (b''.landHere ⟨b'.position⟩) (code ++ (op, b''.position) :: code') (list ++ list') := by
  have hall := (h.trans (adds_append b' op 0)).trans h'
  rw [List.append_nil, List.append_assoc] at hall
  exact Adds.landHere hall h.position_eq

/-- A piece of code behind what there is. -/
theorem Adds.followedBy {g : Builder → Builder} {codeG : Nat → Nat → List (Opcode × Nat)}
    {listG : List Value} (h : Adds b b' code list)
    (hg : ∀ b : Builder, Adds b (g b) (codeG b.position b.constants.size) listG) :
    Adds b (g b') (code ++ codeG (b.position + code.length) (b.constants.size + list.length))
      (list ++ listG) := by
  have hall := h.trans (hg b')
  rw [h.position_eq, h.size_constants] at hall
  exact hall

/-- A piece of code with a jump over it. -/
theorem Adds.skipping {g : Builder → Builder} {codeG : Nat → Nat → List (Opcode × Nat)} {sizeG : Nat}
    {listG : List Value} (h : Adds b b' code list) (op : Opcode)
    (hg : ∀ b : Builder, Adds b (g b) (codeG b.position b.constants.size) listG)
    (hsize : ∀ pos n, (codeG pos n).length = sizeG) :
    let start := b.position + code.length + 1
    Adds b ((g (b'.append op 0)).landHere ⟨b'.position⟩)
      (code ++ (op, start + sizeG) :: codeG start (b.constants.size + list.length))
      (list ++ listG) := by
  have hposition : (b'.append op 0).position = b.position + code.length + 1 := by
    rw [position_append, h.position_eq]
  have hconstants : (b'.append op 0).constants.size = b.constants.size + list.length := by
    rw [size_constants_append, h.size_constants]
  have hend : (g (b'.append op 0)).position = b.position + code.length + 1 + sizeG := by
    rw [(hg _).position_eq, hsize, hposition]
  have hall := h.jumpOver op (hg (b'.append op 0))
  rw [hend, hposition, hconstants] at hall
  exact hall

/-- Two pieces of code of which one runs. The first jump lands behind the second one, and that behind
everything. -/
theorem Adds.choice {f g : Builder → Builder} {codeT codeE : Nat → Nat → List (Opcode × Nat)}
    {sizeT sizeE : Nat} {listT listE : List Value} (h : Adds b b' code list)
    (ht : ∀ b : Builder, Adds b (f b) (codeT b.position b.constants.size) listT)
    (he : ∀ b : Builder, Adds b (g b) (codeE b.position b.constants.size) listE)
    (hsizeT : ∀ pos n, (codeT pos n).length = sizeT)
    (hsizeE : ∀ pos n, (codeE pos n).length = sizeE) :
    let whenTrue := b.position + code.length + 1
    let whenFalse := whenTrue + sizeT + 1
    let n := b.constants.size + list.length
    Adds b ((g (((f (b'.append .jumpIfNot 0)).append .jump 0).landHere ⟨b'.position⟩)).landHere
        ⟨(f (b'.append .jumpIfNot 0)).position⟩)
      (code ++ (.jumpIfNot, whenFalse) :: (codeT whenTrue n ++
        (.jump, whenFalse + sizeE) :: codeE whenFalse (n + listT.length)))
      (list ++ listT ++ listE) := by
  let b₁ := b'.append .jumpIfNot 0
  let b₂ := (f b₁).append .jump 0
  let b₃ := b₂.landHere ⟨b'.position⟩
  have hp₁ : b₁.position = b.position + code.length + 1 := by
    rw [position_append, h.position_eq]
  have hk₁ : b₁.constants.size = b.constants.size + list.length := by
    rw [size_constants_append, h.size_constants]
  have hpt : (f b₁).position = b₁.position + sizeT := by
    rw [(ht b₁).position_eq, hsizeT]
  have hp₂ : b₂.position = b₁.position + sizeT + 1 := by
    rw [position_append, hpt]
  have hk₂ : b₂.constants.size = b₁.constants.size + listT.length := by
    rw [size_constants_append, (ht b₁).size_constants]
  obtain ⟨hp₃, hk₃, -⟩ := b₂.landHere_cases ⟨b'.position⟩
  have hend : (g b₃).position = b₂.position + sizeE := by
    rw [(he b₃).position_eq, hsizeE, hp₃]
  have hall := (h.jumpOver .jumpIfNot ((ht b₁).trans (adds_append _ .jump 0))).trans (he b₃)
  rw [List.append_nil, List.append_assoc, List.cons_append, List.append_assoc, ← List.cons_append,
    ← List.append_assoc, List.cons_append, List.nil_append] at hall
  let done : Label := ⟨(f b₁).position⟩
  have hlabel : done.position = b.position +
      (code ++ (.jumpIfNot, b₂.position) :: codeT b₁.position b₁.constants.size).length := by
    show (f b₁).position = _
    rw [List.length_append, List.length_cons, hsizeT, hpt, hp₁]
    omega
  have hdone := Adds.landHere hall hlabel
  rw [hend, hp₃, hk₃, hk₂, hp₂, hk₁, hp₁, List.append_assoc, List.cons_append] at hdone
  exact hdone

/-- What is built has the code and the constants that were added to nothing. -/
theorem Adds.built (h : Adds .empty b code list) {st st' : Store} {rest : Builder} {s : Script Value}
    (hbuild : b.build st = ((.ok s, rest), st')) :
    (s.code.toList.map fun i => (i.opcode, i.operand)) = code ∧ s.constants.toList = list := by
  unfold build at hbuild
  cases herror : b.error with
  | some error =>
    rw [herror] at hbuild
    cases hbuild
  | none =>
    rw [herror] at hbuild
    cases hbuild
    exact ⟨(h.ops_eq herror).2, h.constants_eq⟩

end Builder

/-! ## Code and constants in a script -/

/-- `P` holds of the entries of a list at the positions from `pos` on. -/
def EachAt {α : Type} (P : Nat → α → Prop) : Nat → List α → Prop
  | _, [] => True
  | pos, a :: rest => P pos a ∧ EachAt P (pos + 1) rest

theorem eachAt_append {α : Type} {P : Nat → α → Prop} {pos : Nat} {as bs : List α} :
    EachAt P pos (as ++ bs) ↔ EachAt P pos as ∧ EachAt P (pos + as.length) bs := by
  induction as generalizing pos with
  | nil => exact (iff_of_eq (true_and _)).symm
  | cons a rest ih =>
    show P pos a ∧ EachAt P (pos + 1) (rest ++ bs) ↔
      (P pos a ∧ EachAt P (pos + 1) rest) ∧ EachAt P (pos + (rest.length + 1)) bs
    rw [ih, and_assoc, Nat.add_assoc, Nat.add_comm 1]

theorem eachAt_of_getElem? {α : Type} {P : Nat → α → Prop} {pos : Nat} {list : List α}
    (h : ∀ k a, list[k]? = some a → P (pos + k) a) : EachAt P pos list := by
  induction list generalizing pos with
  | nil => trivial
  | cons a rest ih =>
    refine ⟨h 0 a rfl, ih fun k b hb => ?_⟩
    have := h (k + 1) b hb
    rwa [Nat.add_comm k, ← Nat.add_assoc] at this

namespace Script

/-- The instruction at a position. -/
def HasInstr (s : Script Value) (pos : Nat) (i : Opcode × Nat) : Prop :=
  ∃ h, s.code[pos]? = some ⟨i.1, i.2, h⟩

/-- The instructions from a position on. -/
def HasCode (s : Script Value) (pos : Nat) (code : List (Opcode × Nat)) : Prop :=
  EachAt s.HasInstr pos code

/-- The constants from an index on. -/
def HasConstants (s : Script Value) (n : Nat) (list : List Value) : Prop :=
  EachAt (fun index v => s.constants[index]? = some v) n list

variable {s : Script Value}

theorem HasInstr.lt {pos : Nat} {i : Opcode × Nat} (h : s.HasInstr pos i) : pos < s.length := by
  obtain ⟨_, h⟩ := h
  exact (Array.getElem?_eq_some_iff.1 h).1

/-- Code that is there ends within the script. -/
theorem HasCode.end_le {pos : Nat} {code : List (Opcode × Nat)} (h : s.HasCode pos code)
    (hne : code ≠ []) : pos + code.length ≤ s.length := by
  induction code generalizing pos with
  | nil => exact absurd rfl hne
  | cons i rest ih =>
    have hlt := h.1.lt
    cases rest with
    | nil => exact hlt
    | cons j rest =>
      have hend := ih h.2 (List.cons_ne_nil j rest)
      simp only [List.length_cons] at hend ⊢
      omega

theorem hasCode_of_ops {code : List (Opcode × Nat)}
    (h : (s.code.toList.map fun i => (i.opcode, i.operand)) = code) : s.HasCode 0 code := by
  refine eachAt_of_getElem? fun k i hi => ?_
  rw [← h, List.getElem?_map, Array.getElem?_toList] at hi
  obtain ⟨instr, hinstr, rfl⟩ := Option.map_eq_some_iff.1 hi
  rw [Nat.zero_add]
  exact ⟨instr.operand_lt, hinstr⟩

theorem hasConstants_of_toList {list : List Value} (h : s.constants.toList = list) :
    s.HasConstants 0 list := by
  refine eachAt_of_getElem? fun k v hv => ?_
  rw [Nat.zero_add, ← Array.getElem?_toList, h]
  exact hv

end Script

end ReactiveScript
