import Mathlib.Algebra.Group.Nat.Defs
import ReactiveScript.Instruction.Basic

/-
  Instruction words, bit by bit.

  The six high bits of a word number an opcode and the 26 low bits are the operand, so a shift and a
  mask read back what was put in (`shiftRight_toWord`, `and_toWord`). Reading a word is the inverse
  of writing one on both sides (`ofWord_toWord`, `toWord_of_ofWord`). What does not fit is refused,
  operands from `2^26` on and words whose high bits number no opcode (`words_exact`).
-/

namespace ReactiveScript

/-- The 26 low bits of a word. -/
abbrev operandMask : UInt32 := 67108863

/-! ## Numbers of opcodes -/

namespace Opcode

theorem nodup_all : (Family.all : List Opcode).Nodup := by decide

theorem code_lt_length (op : Opcode) : Family.code op < (Family.all : List Opcode).length := by
  cases op <;> decide

/-- A number is the number of the opcode that is found under it. -/
theorem code_of_find? {code : Nat} {op : Opcode} (h : Family.find? code = some op) :
    Family.code op = code :=
  (List.getElem?_inj (code_lt_length op) nodup_all).1 ((find?_code op).trans h.symm)

/-- A number is found exactly if it is the number of an opcode. -/
theorem find?_eq_some_iff {code : Nat} {op : Opcode} :
    Family.find? code = some op ↔ Family.code op = code :=
  ⟨code_of_find?, fun h => h ▸ find?_code op⟩

end Opcode

/-! ## Bits of a word -/

theorem toNat_shiftRight_word (word : UInt32) :
    (word >>> 26).toNat = word.toNat / operandBound := by
  rw [UInt32.toNat_shiftRight]
  exact Nat.shiftRight_eq_div_pow _ 26

theorem toNat_and_mask (word : UInt32) :
    (word &&& operandMask).toNat = word.toNat % operandBound := by
  rw [UInt32.toNat_and]
  exact Nat.and_two_pow_sub_one_eq_mod _ 26

namespace Instruction

/-- Nothing is lost when the number of the opcode is put above the operand. -/
theorem toNat_toWord (instr : Instruction) :
    instr.toWord.toNat = Family.code instr.opcode * operandBound + instr.operand := by
  have hcode : Family.code instr.opcode < 22 := Opcode.code_lt_length instr.opcode
  have hoperand : instr.operand < operandBound := instr.operand_lt
  have hfits : Family.code instr.opcode * operandBound + instr.operand < 2 ^ 32 := by
    unfold operandBound at *
    omega
  exact UInt32.toNat_ofNat_of_lt' hfits

/-- The high bits of an instruction's word are the number of its opcode. -/
theorem shiftRight_toWord (instr : Instruction) :
    (instr.toWord >>> 26).toNat = Family.code instr.opcode := by
  have hoperand : instr.operand < operandBound := instr.operand_lt
  rw [toNat_shiftRight_word, toNat_toWord]
  unfold operandBound at *
  omega

/-- The low bits of an instruction's word are its operand. -/
theorem and_toWord (instr : Instruction) :
    (instr.toWord &&& operandMask).toNat = instr.operand := by
  have hoperand : instr.operand < operandBound := instr.operand_lt
  rw [toNat_and_mask, toNat_toWord]
  unfold operandBound at *
  omega

/-! ## Reading and writing -/

theorem ext {a b : Instruction} (hopcode : a.opcode = b.opcode) (hoperand : a.operand = b.operand) :
    a = b := by
  cases a
  cases b
  congr

theorem make_of_lt (opcode : Opcode) {operand : Nat} (h : operand < operandBound) :
    make opcode operand = .ok ⟨opcode, operand, h⟩ := by
  unfold make
  rw [dif_pos h]

theorem make_of_le (opcode : Opcode) {operand : Nat} (h : operandBound ≤ operand) :
    make opcode operand = .error (.operandOverflow operand) := by
  unfold make
  rw [dif_neg (Nat.not_lt.2 h)]

/-- What is made has the opcode and the operand that were given. -/
theorem make_eq_ok_iff {opcode : Opcode} {operand : Nat} {instr : Instruction} :
    make opcode operand = .ok instr ↔ instr.opcode = opcode ∧ instr.operand = operand := by
  constructor
  · intro h
    by_cases hfits : operand < operandBound
    · rw [make_of_lt opcode hfits] at h
      cases h
      exact ⟨rfl, rfl⟩
    · rw [make_of_le opcode (Nat.not_lt.1 hfits)] at h
      cases h
  · rintro ⟨rfl, rfl⟩
    exact make_of_lt instr.opcode instr.operand_lt

theorem exists_make_iff (opcode : Opcode) (operand : Nat) :
    (∃ instr, make opcode operand = .ok instr) ↔ operand < operandBound := by
  constructor
  · rintro ⟨instr, h⟩
    obtain ⟨-, rfl⟩ := make_eq_ok_iff.1 h
    exact instr.operand_lt
  · intro h
    exact ⟨_, make_of_lt opcode h⟩

theorem ofWord_of_find? {word : UInt32} {opcode : Opcode}
    (h : Family.find? (word >>> 26).toNat = some opcode) :
    ofWord word = .ok ⟨opcode, word.toNat % operandBound, Nat.mod_lt _ (by decide)⟩ := by
  rw [toNat_shiftRight_word] at h
  unfold ofWord
  rw [h]

theorem ofWord_of_find?_eq_none {word : UInt32}
    (h : (Family.find? (word >>> 26).toNat : Option Opcode) = none) :
    ofWord word = .error (.unknownOpcode (word >>> 26).toNat) := by
  rw [toNat_shiftRight_word] at h ⊢
  unfold ofWord
  rw [h]

theorem ofWord_toWord (instr : Instruction) : ofWord instr.toWord = .ok instr := by
  have hopcode : Family.find? (instr.toWord >>> 26).toNat = some instr.opcode := by
    rw [shiftRight_toWord, Opcode.find?_code]
  rw [ofWord_of_find? hopcode]
  congr 1
  refine ext rfl ?_
  show instr.toWord.toNat % operandBound = instr.operand
  rw [← toNat_and_mask, and_toWord]

/-- What is read from a word has that word. -/
theorem toWord_of_ofWord {word : UInt32} {instr : Instruction} (h : ofWord word = .ok instr) :
    instr.toWord = word := by
  cases hfind : (Family.find? (word >>> 26).toNat : Option Opcode) with
  | none =>
    rw [ofWord_of_find?_eq_none hfind] at h
    cases h
  | some opcode =>
    rw [ofWord_of_find? hfind] at h
    cases h
    apply UInt32.toNat_inj.1
    rw [toNat_toWord]
    show Family.code opcode * operandBound + word.toNat % operandBound = word.toNat
    rw [Opcode.code_of_find? hfind, toNat_shiftRight_word]
    exact Nat.div_add_mod' _ _

theorem exists_ofWord_iff (word : UInt32) :
    (∃ instr, ofWord word = .ok instr) ↔ ∃ op : Opcode, Family.code op = (word >>> 26).toNat := by
  constructor
  · rintro ⟨instr, h⟩
    obtain rfl := toWord_of_ofWord h
    exact ⟨instr.opcode, (shiftRight_toWord instr).symm⟩
  · rintro ⟨op, hop⟩
    exact ⟨_, ofWord_of_find? (Opcode.find?_eq_some_iff.2 hop)⟩

/-- Words and instructions are the same thing in two forms. An instruction is made exactly if the
operand is below `2^26`; its word has the number of the opcode given in the six high bits and the
operand given in the others, and is read back as the same instruction. A word is read exactly if its
six high bits number an opcode; what is read has this opcode and the low bits for its operand, and
making it again from these gives the word. Another operand is put in exactly if it fits; the opcode
stays. -/
theorem words_exact :
    (∀ op n, ((∃ instr, make op n = .ok instr) ↔ n < 2 ^ 26) ∧
      ∀ instr, make op n = .ok instr →
        instr.opcode = op ∧ instr.operand = n ∧
        Family.find? (instr.toWord >>> 26).toNat = some op ∧
        (instr.toWord &&& operandMask).toNat = n ∧ ofWord instr.toWord = .ok instr) ∧
    (∀ word, ((∃ instr, ofWord word = .ok instr) ↔
        ∃ op : Opcode, Family.code op = (word >>> 26).toNat) ∧
      ∀ instr, ofWord word = .ok instr →
        Family.find? (word >>> 26).toNat = some instr.opcode ∧
        (word &&& operandMask).toNat = instr.operand ∧
        (make instr.opcode instr.operand).map toWord = .ok word) ∧
    ∀ (instr : Instruction) (n : Nat),
      ((∃ changed, instr.setOperand n = .ok changed) ↔ n < 2 ^ 26) ∧
      ∀ changed, instr.setOperand n = .ok changed →
        changed.operand = n ∧ changed.opcode = instr.opcode := by
  have hread : ∀ instr : Instruction,
      Family.find? (instr.toWord >>> 26).toNat = some instr.opcode := fun instr => by
    rw [shiftRight_toWord, Opcode.find?_code]
  refine ⟨fun op n => ⟨exists_make_iff op n, fun instr h => ?made⟩,
    fun word => ⟨exists_ofWord_iff word, fun instr h => ?read⟩,
    fun instr n => ⟨exists_make_iff instr.opcode n, fun changed h => ?changed⟩⟩
  case made =>
    obtain ⟨rfl, rfl⟩ := make_eq_ok_iff.1 h
    exact ⟨rfl, rfl, hread instr, and_toWord instr, ofWord_toWord instr⟩
  case read =>
    obtain rfl := toWord_of_ofWord h
    have hmade : make instr.opcode instr.operand = .ok instr := make_eq_ok_iff.2 ⟨rfl, rfl⟩
    refine ⟨hread instr, and_toWord instr, ?_⟩
    rw [hmade]
    rfl
  case changed =>
    obtain ⟨hopcode, hoperand⟩ := make_eq_ok_iff.1 h
    exact ⟨hoperand, hopcode⟩

/-- The last opcode with the largest operand: it is read back from its word, and made again from
what is read. The next operand is refused. -/
theorem words_exact_largest :
    let last : Instruction := ⟨.dup, 2 ^ 26 - 1, by decide⟩
    make .dup (2 ^ 26 - 1) = .ok last ∧ last.toWord = 0x57ffffff ∧ ofWord 0x57ffffff = .ok last ∧
      (make .dup (2 ^ 26 - 1)).map toWord = .ok 0x57ffffff ∧
      ¬ ∃ changed, last.setOperand (2 ^ 26) = .ok changed := by
  intro last
  have hmade : make .dup (2 ^ 26 - 1) = .ok last := by rfl
  have hword : last.toWord = 0x57ffffff := by
    show UInt32.ofNat (Family.code Opcode.dup * operandBound + (2 ^ 26 - 1)) = 0x57ffffff
    decide
  obtain ⟨-, -, -, -, hread⟩ := (words_exact.1 .dup (2 ^ 26 - 1)).2 last hmade
  rw [hword] at hread
  obtain ⟨-, -, hagain⟩ := (words_exact.2.1 0x57ffffff).2 last hread
  have hrefused : ¬ (2 ^ 26 : Nat) < 2 ^ 26 := Nat.lt_irrefl _
  exact ⟨hmade, hword, hread, hagain, fun hchanged =>
    hrefused ((words_exact.2.2 last (2 ^ 26)).1.1 hchanged)⟩

end Instruction

end ReactiveScript
