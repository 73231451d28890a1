import ReactiveScript.Instruction.Opcode
import ReactiveScript.Name

/-
  Instructions and their words.

  An instruction is an opcode with an operand of 26 bits. Its word holds the number of the opcode in
  the six high bits and the operand in the others. `ofWord` accepts exactly the words whose high
  bits name an opcode, and `toWord` gives the word back.
-/

namespace ReactiveScript

/-- The number of operands an instruction can tell apart, `2^26`. -/
abbrev operandBound : Nat := 67108864

/-- An opcode with its operand: a constant's index, a variable's number, a jump target, an argument
count or an operator's number. -/
structure Instruction where
  opcode : Opcode
  operand : Nat
  operand_lt : operand < operandBound
  deriving DecidableEq

namespace Instruction

/-- The instruction that does nothing. -/
def nop : Instruction := ⟨.nop, 0, by decide⟩

/-- The instruction for an operand, of which only the bits that fit are kept. -/
def of (opcode : Opcode) (operand : Nat) : Instruction :=
  ⟨opcode, operand % operandBound, Nat.mod_lt _ (by decide)⟩

instance : Inhabited Instruction := ⟨nop⟩

/-- An instruction, if the operand fits. -/
def make (opcode : Opcode) (operand : Nat) : Except EncodeError Instruction :=
  if h : operand < operandBound then .ok ⟨opcode, operand, h⟩ else .error (.operandOverflow operand)

/-- The same opcode with another operand, if that fits. -/
def setOperand (instr : Instruction) (operand : Nat) : Except EncodeError Instruction :=
  make instr.opcode operand

/-- The word of an instruction. -/
def toWord (instr : Instruction) : UInt32 :=
  UInt32.ofNat (Family.code instr.opcode * operandBound + instr.operand)

/-- The instruction of a word. -/
def ofWord (word : UInt32) : Except EncodeError Instruction :=
  match Family.find? (word.toNat / operandBound) with
  | some opcode => .ok ⟨opcode, word.toNat % operandBound, Nat.mod_lt _ (by decide)⟩
  | none => .error (.unknownOpcode (word.toNat / operandBound))

/-- How many values an instruction takes from the stack and how many it leaves. A jump that only
sometimes takes one counts as taking none. -/
def popsAndPushes (instr : Instruction) : Nat × Nat :=
  let n := instr.operand
  match instr.opcode with
  | .nop | .jump | .setVar | .jumpScAnd | .jumpScOr => (0, 0)
  | .pushConst | .getVar | .dup => (0, 1)
  | .pop | .jumpIfNot | .ret => (1, 0)
  | .memberC | .unary => (1, 1)
  | .loop => (0, 1)
  | .loopWithKey => (0, 2)
  | .makeObject => (2 * n, 1)
  | .call | .closure | .tailCall => (n + 1, 1)
  | .binary => (2, 1)
  | .ternary => (3, 1)
  | .quaternary => (4, 1)

/-- The operand as an operator's mnemonic, or after a question mark if it names none. -/
def operatorText (α : Type) [Family α] (operand : Nat) : String :=
  match (Family.find? operand : Option α) with
  | some op => Family.mnemonic op
  | none => "?" ++ toString operand

/-- An instruction in a listing. -/
def text (names : Names) (instr : Instruction) : String :=
  let op := Family.mnemonic instr.opcode
  let n := instr.operand
  match instr.opcode with
  | .nop | .pop | .ret => op
  | .getVar | .setVar => op ++ " " ++ names.nameOf ⟨n⟩
  | .unary => op ++ " " ++ operatorText UnaryOp n
  | .binary => op ++ " " ++ operatorText BinaryOp n
  | .ternary => op ++ " " ++ operatorText TernaryOp n
  | .quaternary => op ++ " " ++ operatorText QuaternaryOp n
  | _ => op ++ " " ++ toString n

end Instruction

end ReactiveScript
