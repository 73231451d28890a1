import ReactiveScript.Machine.State
import ReactiveScript.Operator.Basic
import ReactiveScript.Script.Listing

/-
  One instruction.

  `step` executes the instruction at a position on the frame above `base`. It needs to know how
  functions are called, which is a parameter, so that a step is the same at every depth of calls.
  The end of the code returns like RET.
-/

namespace ReactiveScript

/-- How a function value is called with arguments. -/
abbrev Caller := Value → Bindings → Run Value

/-- How a script left its frame. -/
inductive Exit
  | done (v : Value)
  /-- Another script takes the place of the running one. -/
  | tail (script : Script Value) (bindings : Bindings)

/-- What comes after an instruction. -/
inductive Next
  | goto (pos : Nat)
  | leave (exit : Exit)

/-- A constant of the script. -/
def Script.constantAt (s : Script Value) (pos index : Nat) : Except EvalError Value :=
  Value.orFail (s.constant? index) (.malformedScript pos "constant index out of range")

/-- The argument names recorded at `n` positions from `pos` on. -/
def Script.params (s : Script Value) : Nat → Nat → Except EvalError (List Variable)
  | _, 0 => .ok []
  | pos, n + 1 =>
    match s.code[pos]? with
    | some i =>
      if i.opcode = .setVar then (s.params (pos + 1) n).map (⟨i.operand⟩ :: ·)
      else .error (.malformedScript pos "expected argument name")
    | none => .error (.malformedScript pos "expected argument name")

/-- The key of a pair in a collection under construction: nil is no key. -/
def pairKey : Value → Except EvalError (Option String)
  | .nil => .ok none
  | key => key.toText.map some

/-- Add pairs of key and value, which alternate, to a collection. -/
def pushPairs (c : Collection Value) : List Value → Except EvalError (Collection Value)
  | key :: v :: rest =>
    match pairKey key with
    | .ok key => pushPairs (c.push key v) rest
    | .error e => .error e
  | _ => .ok c

/-- The collection of alternating keys and values; a key that is no text delays an error. -/
def makeObject (values : List Value) : StateM Store Value :=
  match pushPairs .empty values with
  | .ok c => Store.newCollection c
  | .error e => return .error e

/-- Bindings over which those of an outer closure win. -/
def overrideBindings (inner outer : Bindings) : Bindings :=
  outer.foldl (fun merged b => merged.filter (fun m => m.1 ≠ b.1) ++ [b]) inner

/-- A function with arguments bound to it. A closure of a closure is one closure. -/
def partialApply (function : Value) (bindings : Bindings) : StateM Store Value :=
  match function with
  | .error e => return .error e
  | .closure _ inner captured => do
    return .closure (← Store.fresh) inner (overrideBindings captured bindings)
  | function => do return .closure (← Store.fresh) function bindings

/-- The script that can take the place of the caller, with all its arguments. -/
def tailScript? (function : Value) (bindings : Bindings) : Option (Script Value × Bindings) :=
  match function with
  | .script s => some (s, bindings)
  | .closure _ (.script s) captured => some (s, captured ++ bindings)
  | _ => none

/-- An operator by its number, or the malformed instruction that names none. -/
def operatorAt (α : Type) [Family α] (pos code : Nat) : Except EvalError α :=
  match (Family.ofCode code : Except EncodeError α) with
  | .ok op => .ok op
  | .error e => .error (.malformedScript pos e.message)

namespace Run

/-- The result of a frame, which is dropped. -/
def frameResult (base pos : Nat) : Run Value := do
  let result ← pop base pos
  truncate base
  return result

/-- Where a jump goes. Going back is a chance to be interrupted. -/
def takeJump (s : Script Value) (pos target : Nat) : Run Next := do
  if target > s.length then failAt pos "jump target out of range"
  else
    if target ≤ pos then heedInterrupt
    return .goto target

/-- Draw from the iterator below the top; when there is nothing left, remove it and jump. -/
def stepLoop (s : Script Value) (base pos target : Nat) (withKey : Bool) : Run Next := do
  heedInterrupt
  match ← operands with
  | accumulator :: slot :: rest =>
    if rest.length < base then failAt pos "LOOP without iterator"
    else match slot with
      | .iterator handle =>
        match ← store (Store.drawEntry handle) with
        | some (key, v) =>
          if withKey then push key
          push v
          return .goto (pos + 1)
        | none =>
          setOperands (accumulator :: rest)
          takeJump s pos target
      | .error e => fail e
      | other => fail (.notIterator other.typeName)
  | _ => failAt pos "LOOP without iterator"

/-- The place of a call in a backtrace. -/
def callSite (s : Script Value) (pos : Nat) : StateM Store String := fun st =>
  ("in function " ++ (s.functionNameAt st.names pos).getD "<anonymous>", st)

/-- Call a function and push its result; an error notes the call it went through. -/
def stepPlainCall (call : Caller) (s : Script Value) (pos next : Nat) (function : Value)
    (bindings : Bindings) : Run Next := do
  match ← attempt (call function bindings) with
  | .ok v =>
    push v
    return .goto next
  | .error e =>
    noteFrame (← store (callSite s pos))
    fail e

/-- Call, tail call or partially apply the function below `n` arguments. A tail call leaves the
frame if nothing else stands in it and the function is a script. -/
def stepCall (call : Caller) (s : Script Value) (base pos n : Nat) (op : Opcode) : Run Next := do
  let params ← ofExcept (s.params (pos + 1) n)
  let next := pos + 1 + n
  let args ← popMany base pos n
  let function ← pop base pos
  let bindings := params.zip args
  if op = .closure then
    push (← store (partialApply function bindings))
    return .goto next
  else
    let target :=
      if op = .tailCall && (← height) == base then tailScript? function bindings else none
    match target with
    | some (script, bindings) => return .leave (.tail script bindings)
    | none => stepPlainCall call s pos next function bindings

/-- Execute an instruction. -/
def stepInstr (call : Caller) (s : Script Value) (base pos : Nat) (i : Instruction) :
    Run Next := do
  let n := i.operand
  let next := Next.goto (pos + 1)
  match i.opcode with
  | .nop => return next
  | .pushConst =>
    push (← ofExcept (s.constantAt pos n))
    return next
  | .pop =>
    let _ ← pop base pos
    return next
  | .dup =>
    let stack ← operands
    if n ≥ stack.length - base then failAt pos "DUP below frame"
    else
      push (stack[n]?.getD .nil)
      return next
  | .jump => takeJump s pos n
  | .jumpIfNot =>
    let condition ← pop base pos
    if ← ofExcept condition.toBool then return next else takeJump s pos n
  | .jumpScAnd =>
    if ← ofExcept (← top base pos).toBool then
      let _ ← pop base pos
      return next
    else takeJump s pos n
  | .jumpScOr =>
    if ← ofExcept (← top base pos).toBool then takeJump s pos n
    else
      let _ ← pop base pos
      return next
  | .loop => stepLoop s base pos n false
  | .loopWithKey => stepLoop s base pos n true
  | .ret => return .leave (.done (← frameResult base pos))
  | .getVar =>
    push (← readVariable ⟨n⟩)
    return next
  | .setVar =>
    bindVariable ⟨n⟩ (← top base pos)
    return next
  | .memberC =>
    let key ← ofExcept (s.constantAt pos n)
    let object ← pop base pos
    push (object.member key)
    return next
  | .makeObject =>
    let values ← popMany base pos (2 * n)
    push (← store (makeObject values))
    return next
  | .call => stepCall call s base pos n .call
  | .closure => stepCall call s base pos n .closure
  | .tailCall => stepCall call s base pos n .tailCall
  | .unary =>
    let op ← ofExcept (operatorAt UnaryOp pos n)
    let a ← pop base pos
    push (← store (Operator.unary op a))
    return next
  | .binary =>
    let op ← ofExcept (operatorAt BinaryOp pos n)
    let b ← pop base pos
    let a ← pop base pos
    push (← store (Operator.binary op a b))
    return next
  | .ternary =>
    let op ← ofExcept (operatorAt TernaryOp pos n)
    match ← popMany base pos 3 with
    | [a, b, c] =>
      push (Operator.ternary op a b c)
      return next
    | _ => return next
  | .quaternary =>
    let op ← ofExcept (operatorAt QuaternaryOp pos n)
    match ← popMany base pos 4 with
    | [a, b, c, d] =>
      push (Operator.quaternary op a b c d)
      return next
    | _ => return next

/-- Execute the instruction at a position, or return at the end of the code. -/
def step (call : Caller) (s : Script Value) (base pos : Nat) : Run Next :=
  match s.code[pos]? with
  | some i => stepInstr call s base pos i
  | none => do return .leave (.done (← frameResult base s.length))

end Run

end ReactiveScript
