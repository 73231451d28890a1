import ReactiveScript.Store

/-
  Assembling scripts.

  A builder collects instructions and constants. An operand that does not fit leaves an instruction
  that does nothing in its place, so positions never shift, and the first such error is what
  building reports; the error is then taken, so that building again gives what was collected.

  Positions, constant indices and numbers of arguments have no bound. Where they are cut down to 32
  bits before they become operands, that makes no difference for scripts with fewer than 2^32
  instructions, constants and arguments; operands must fit into fewer bits anyway.
-/

namespace ReactiveScript

/-- A script in the making. Positions and indices of constants have no bound. -/
structure Builder where
  code : Array Instruction
  constants : Array Value
  error : Option EncodeError
  deriving Inhabited

/-- The position of a jump whose target is set later. -/
structure Label where
  position : Nat
  deriving DecidableEq, Repr

namespace Builder

/-- Nothing collected yet. -/
def empty : Builder := ⟨#[], #[], none⟩

/-- Keep the first error. -/
def reject (b : Builder) (error : EncodeError) : Builder :=
  { b with error := b.error.or (some error) }

/-- Append an instruction. -/
def append (b : Builder) (opcode : Opcode) (operand : Nat) : Builder :=
  match Instruction.make opcode operand with
  | .ok i => { b with code := b.code.push i }
  | .error e => { b.reject e with code := b.code.push .nop }

/-- Append instructions in order. -/
def appendAll (b : Builder) (list : List (Opcode × Nat)) : Builder :=
  list.foldl (fun b entry => b.append entry.1 entry.2) b

/-- Add a constant; its index is the number of constants before it. -/
def addConstant (b : Builder) (v : Value) : Builder := { b with constants := b.constants.push v }

/-- Append an instruction on a constant of its own. -/
def onConstant (b : Builder) (opcode : Opcode) (v : Value) : Builder :=
  (b.addConstant v).append opcode b.constants.size

/-- Push a constant. -/
def pushConst (b : Builder) (v : Value) : Builder := b.onConstant .pushConst v

/-- Replace the top by its member under a constant key. -/
def memberConst (b : Builder) (key : Value) : Builder := b.onConstant .memberC key

/-- Append an operator. -/
def unary (b : Builder) (op : UnaryOp) : Builder := b.append .unary (Family.code op)

/-- Append an operator on two values. -/
def binary (b : Builder) (op : BinaryOp) : Builder := b.append .binary (Family.code op)

/-- Append an operator on three values. -/
def ternary (b : Builder) (op : TernaryOp) : Builder := b.append .ternary (Family.code op)

/-- Append an operator on four values. -/
def quaternary (b : Builder) (op : QuaternaryOp) : Builder := b.append .quaternary (Family.code op)

/-- Push a variable. -/
def getVar (b : Builder) (var : Variable) : Builder := b.append .getVar var.id

/-- Bind a variable to the top. -/
def setVar (b : Builder) (var : Variable) : Builder := b.append .setVar var.id

/-- Append a call-like instruction and the records that name its arguments. -/
def withArguments (b : Builder) (opcode : Opcode) (params : List Variable) : Builder :=
  (b.append opcode params.length).appendAll (params.map fun p => (.setVar, p.id))

/-- Call the function below the arguments. -/
def call (b : Builder) (params : List Variable) : Builder := b.withArguments .call params

/-- Call the function below the arguments in place of the running one. -/
def tailCall (b : Builder) (params : List Variable) : Builder := b.withArguments .tailCall params

/-- Bind arguments without calling. -/
def closure (b : Builder) (params : List Variable) : Builder := b.withArguments .closure params

/-- Build a collection from pairs of key and value. -/
def makeObject (b : Builder) (pairs : Nat) : Builder := b.append .makeObject pairs

/-- Return the top. -/
def ret (b : Builder) : Builder := b.append .ret 0

/-- Discard the top. -/
def pop (b : Builder) : Builder := b.append .pop 0

/-- Copy the value `depth` places below the top. -/
def dup (b : Builder) (depth : Nat) : Builder := b.append .dup depth

/-- The position of the next instruction. -/
def position (b : Builder) : Nat := b.code.size

/-- Append a jump whose target is set by `landHere`. -/
def jumpAhead (b : Builder) (opcode : Opcode) : Label × Builder :=
  (⟨b.position⟩, b.append opcode 0)

/-- Point a jump at the next instruction. -/
def landHere (b : Builder) (label : Label) : Builder :=
  match b.code[label.position]? with
  | none => b
  | some i =>
    match i.setOperand b.position with
    | .ok patched => { b with code := b.code.setIfInBounds label.position patched }
    | .error e => b.reject e

/-- Finish: the first error, or the script. Either way what it reports is taken from the builder. -/
def build (b : Builder) : StateM Store (Except EncodeError (Script Value) × Builder) :=
  match b.error with
  | some e => return (.error e, { b with error := none })
  | none => do return (.ok ⟨← Store.fresh, b.code, b.constants⟩, empty)

end Builder

end ReactiveScript
