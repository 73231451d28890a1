import ReactiveScript.Tracking.Node
import ReactiveScript.Environment

/-
  The machine.

  A context holds what one evaluation needs: variables, the operand stack, limits, the registry of
  owners, the calls an error went through and the scripts under analysis. A machine is a context
  with the store it shares with others. An evaluation is a state transformer on machines that gives
  a value or stops early, and keeps what was done to the machine in both cases.
-/

namespace ReactiveScript

/-- Limits of a context. -/
structure Settings where
  /-- How deep calls may nest. -/
  maxCallDepth : Nat
  /-- Whether executed instructions are traced. Tracing changes no answer. -/
  trace : Bool
  /-- The switch that stops evaluations. -/
  interrupt : Nat
  deriving Inhabited

/-- The call depth allowed unless set otherwise. -/
def defaultMaxCallDepth : Nat := 1000

/-- What one evaluation works on. -/
structure Context where
  env : Environment
  /-- The operand stack, its top first. -/
  stack : List Value
  settings : Settings
  callDepth : Nat
  registry : Registry
  /-- Whether error reports are kept. -/
  keepsReports : Bool
  /-- The calls the last error went through, innermost first. -/
  backtrace : List String
  /-- The scripts under analysis, the innermost last. -/
  analyzing : List Ident
  deriving Inhabited

/-- A context without variables. -/
def Context.ofSettings (settings : Settings) : Context :=
  ⟨.empty, [], settings, 0, .empty, false, [], []⟩

/-- A context with the store it shares. -/
structure Machine where
  context : Context
  store : Store
  deriving Inhabited

/-- Why an evaluation stopped early. -/
inductive Stop
  | error (e : EvalError)
  /-- A host function panicked. -/
  | panic (payload : PanicPayload)
  /-- A host function waits at a gate that is not open. -/
  | held (gate : String)
  /-- The step budget ran out. -/
  | exhausted
  deriving DecidableEq

/-- An evaluation. -/
abbrev Run := ExceptT Stop (StateM Machine)

namespace Run

/-- Stop with an error. -/
def fail {α : Type} (e : EvalError) : Run α := throw (.error e)

/-- Stop if the result is an error. -/
def ofExcept {α : Type} : Except EvalError α → Run α
  | .ok a => pure a
  | .error e => fail e

/-- Run to the end, giving an error as a result. What stops for another reason stays stopped. -/
def attempt {α : Type} (x : Run α) : Run (Except EvalError α) := fun m =>
  match x m with
  | (.ok a, m) => (.ok (.ok a), m)
  | (.error (.error e), m) => (.ok (.error e), m)
  | (.error stop, m) => (.error stop, m)

/-- The context. -/
def context : Run Context := fun m => (.ok m.context, m)

/-- Change the context. -/
def change (f : Context → Context) : Run Unit := fun m =>
  (.ok (), { m with context := f m.context })

/-- Do something on the store. -/
def store {α : Type} (x : StateM Store α) : Run α := fun m =>
  let (a, s) := x m.store
  (.ok a, { m with store := s })

/-- Change the settings that are given. -/
def configure (maxCallDepth : Option Nat) (trace : Option Bool) : Run Unit :=
  change fun c => { c with settings := { c.settings with
    maxCallDepth := maxCallDepth.getD c.settings.maxCallDepth
    trace := trace.getD c.settings.trace } }

/-! ## The registry -/

/-- Register a node. -/
def insertNode (node : Node) : Run Unit := do
  let registry ← store ((← context).registry.insert node)
  change fun c => { c with registry }

/-- Take a node out by its name; says whether there was one. -/
def removeNode (name : String) : Run Bool := do
  let (removed, registry) ← store ((← context).registry.remove name)
  change fun c => { c with registry }
  return removed

/-- Take out every node. -/
def clearRegistry : Run Unit := change fun c => { c with registry := .empty }

/-! ## Scopes -/

/-- Enter a scope. -/
def enterScope : Run Nat := fun m =>
  let (mark, env) := m.context.env.enterScope
  (.ok mark, { m with context := { m.context with env } })

/-- Leave a scope. -/
def leaveScope (mark : Nat) : Run Unit :=
  change fun c => { c with env := c.env.leaveScope mark }

/-- Bind variables in the current scope. -/
def bindAll (bindings : Bindings) : Run Unit :=
  change fun c => { c with env := c.env.setAll bindings }

/-- Bind a variable in the current scope. -/
def bindVariable (var : Variable) (v : Value) : Run Unit :=
  change fun c => { c with env := c.env.set var v }

/-- The value of a variable; it must have one. -/
def readVariable (var : Variable) : Run Value := do
  match (← context).env.get? var with
  | some v => return v
  | none => fail (.unboundVariable (← store (Store.nameOf var)))

/-- Run in a scope of its own, which is closed also after an error. -/
def inScope {α : Type} (x : Run α) : Run α := do
  let mark ← enterScope
  let result ← attempt x
  leaveScope mark
  ofExcept result

/-! ## Calls and interrupts -/

/-- Count a call, unless calls nest too deep. -/
def beginCall : Run Unit := do
  let c ← context
  if c.callDepth ≥ c.settings.maxCallDepth then
    fail (.stackOverflow c.callDepth c.settings.maxCallDepth)
  else change fun c => { c with callDepth := c.callDepth + 1 }

/-- The call is over. -/
def endCall : Run Unit := change fun c => { c with callDepth := c.callDepth - 1 }

/-- Stop if the context was interrupted. -/
def heedInterrupt : Run Unit := do
  if ← store (Store.isInterrupted (← context).settings.interrupt) then fail .interrupted

/-- Note a call that an error went through. -/
def noteFrame (frame : String) : Run Unit :=
  change fun c => { c with backtrace := c.backtrace ++ [frame] }

/-- Forget the calls noted so far. -/
def forgetFrames : Run Unit := change fun c => { c with backtrace := [] }

/-- The calls noted so far, which are then forgotten. -/
def takeFrames : Run (List String) := do
  let frames := (← context).backtrace
  forgetFrames
  return frames

/-! ## The operand stack

  A frame is what stands on the stack above the height at which its script was started. -/

/-- The number of operands. -/
def height : Run Nat := do return (← context).stack.length

/-- The operands, the top first. -/
def operands : Run (List Value) := do return (← context).stack

/-- Replace the operands. -/
def setOperands (stack : List Value) : Run Unit := change fun c => { c with stack }

/-- Push a value. -/
def push (v : Value) : Run Unit := change fun c => { c with stack := v :: c.stack }

/-- Stop at an instruction that can not be executed. -/
def failAt {α : Type} (pos : Nat) (message : String) : Run α :=
  fail (.malformedScript pos message)

/-- Take the top of the frame. -/
def pop (base pos : Nat) : Run Value := do
  match ← operands with
  | v :: rest =>
    if base ≤ rest.length then
      setOperands rest
      return v
    else failAt pos "stack underflow"
  | [] => failAt pos "stack underflow"

/-- Take `n` values of the frame, the lowest first. -/
def popMany (base pos n : Nat) : Run (List Value) := do
  let stack ← operands
  if stack.length < base + n then failAt pos "stack underflow"
  else
    setOperands (stack.drop n)
    return (stack.take n).reverse

/-- The top of the frame. -/
def top (base pos : Nat) : Run Value := do
  match ← operands with
  | v :: rest => if base ≤ rest.length then return v else failAt pos "stack underflow"
  | [] => failAt pos "stack underflow"

/-- Drop the frame. -/
def truncate (base : Nat) : Run Unit :=
  change fun c => { c with stack := c.stack.drop (c.stack.length - base) }

end Run

end ReactiveScript
