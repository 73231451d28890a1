import ReactiveScript.Failure

/-
  Operation codes.

  The opcodes and the four families of operators. Each operation has a number, its position in the
  list of its family, and a mnemonic. Looking up the number of an operation gives that operation.
-/

namespace ReactiveScript

/-- What an instruction does. -/
inductive Opcode
  | nop | pushConst | pop | jump | jumpIfNot | jumpScAnd | jumpScOr | getVar | setVar | memberC
  | loop | loopWithKey | makeObject | call | closure | tailCall | ret | unary | binary | ternary
  | quaternary | dup
  deriving DecidableEq, Repr, Inhabited

/-- Operators on one value. -/
inductive UnaryOp
  | iteratorC | negate | not
  deriving DecidableEq, Repr, Inhabited

/-- Operators on two values. -/
inductive BinaryOp
  | iteratorR | member | add | sub | mul | fdiv | div | mod | pow | and | or | xor | eq | neq
  | lt | gt | le | ge | min | max | orElse
  deriving DecidableEq, Repr, Inhabited

/-- Operators on three values. -/
inductive TernaryOp
  | rgb
  deriving DecidableEq, Repr, Inhabited

/-- Operators on four values. -/
inductive QuaternaryOp
  | rgba
  deriving DecidableEq, Repr, Inhabited

/-- A family of numbered operations with mnemonics. -/
class Family (α : Type) where
  /-- The family's name in messages. -/
  title : String
  /-- The operations in the order of their numbers. -/
  all : List α
  /-- The number of an operation. -/
  code : α → Nat
  /-- The text of an operation in listings. -/
  mnemonic : α → String

namespace Family

variable {α : Type} [Family α]

/-- The operation with a number. -/
def find? (code : Nat) : Option α := (all : List α)[code]?

/-- The operation with a number, or the error naming the family and the number. -/
def ofCode (code : Nat) : Except EncodeError α :=
  match find? code with
  | some op => .ok op
  | none => .error (.unknownOperator (title α) code)

/-- The operation with a mnemonic. -/
def ofMnemonic? (text : String) : Option α := (all : List α).find? fun op => mnemonic op == text

end Family

instance : Family Opcode where
  title := "opcode"
  all := [.nop, .pushConst, .pop, .jump, .jumpIfNot, .jumpScAnd, .jumpScOr, .getVar, .setVar,
    .memberC, .loop, .loopWithKey, .makeObject, .call, .closure, .tailCall, .ret, .unary, .binary,
    .ternary, .quaternary, .dup]
  code := Opcode.ctorIdx
  mnemonic
    | .nop => "NOP" | .pushConst => "PUSH_CONST" | .pop => "POP" | .jump => "JUMP"
    | .jumpIfNot => "JUMP_IF_NOT" | .jumpScAnd => "JUMP_SC_AND" | .jumpScOr => "JUMP_SC_OR"
    | .getVar => "GET_VAR" | .setVar => "SET_VAR" | .memberC => "MEMBER_C" | .loop => "LOOP"
    | .loopWithKey => "LOOP_WITH_KEY" | .makeObject => "MAKE_OBJECT" | .call => "CALL"
    | .closure => "CLOSURE" | .tailCall => "TAILCALL" | .ret => "RET" | .unary => "UNARY"
    | .binary => "BINARY" | .ternary => "TERNARY" | .quaternary => "QUATERNARY" | .dup => "DUP"

instance : Family UnaryOp where
  title := "unary"
  all := [.iteratorC, .negate, .not]
  code := UnaryOp.ctorIdx
  mnemonic
    | .iteratorC => "ITERATOR_C" | .negate => "NEGATE" | .not => "NOT"

instance : Family BinaryOp where
  title := "binary"
  all := [.iteratorR, .member, .add, .sub, .mul, .fdiv, .div, .mod, .pow, .and, .or, .xor, .eq,
    .neq, .lt, .gt, .le, .ge, .min, .max, .orElse]
  code := BinaryOp.ctorIdx
  mnemonic
    | .iteratorR => "ITERATOR_R" | .member => "MEMBER" | .add => "ADD" | .sub => "SUB"
    | .mul => "MUL" | .fdiv => "FDIV" | .div => "DIV" | .mod => "MOD" | .pow => "POW"
    | .and => "AND" | .or => "OR" | .xor => "XOR" | .eq => "EQ" | .neq => "NEQ" | .lt => "LT"
    | .gt => "GT" | .le => "LE" | .ge => "GE" | .min => "MIN" | .max => "MAX"
    | .orElse => "OR_ELSE"

instance : Family TernaryOp where
  title := "ternary"
  all := [.rgb]
  code := TernaryOp.ctorIdx
  mnemonic
    | .rgb => "RGB"

instance : Family QuaternaryOp where
  title := "quaternary"
  all := [.rgba]
  code := QuaternaryOp.ctorIdx
  mnemonic
    | .rgba => "RGBA"

@[simp] theorem Opcode.find?_code (op : Opcode) : Family.find? (Family.code op) = some op := by
  cases op <;> rfl

@[simp] theorem UnaryOp.find?_code (op : UnaryOp) : Family.find? (Family.code op) = some op := by
  cases op <;> rfl

@[simp] theorem BinaryOp.find?_code (op : BinaryOp) : Family.find? (Family.code op) = some op := by
  cases op <;> rfl

@[simp] theorem TernaryOp.find?_code (op : TernaryOp) :
    Family.find? (Family.code op) = some op := by
  cases op; rfl

@[simp] theorem QuaternaryOp.find?_code (op : QuaternaryOp) :
    Family.find? (Family.code op) = some op := by
  cases op; rfl

end ReactiveScript
