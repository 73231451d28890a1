import ReactiveScript.Machine.Call
import ReactiveScript.Tracking.Path

/-
  The dependency pass.

  A pass runs a script on stand-ins and follows every path. A conditional jump leaves a path that
  waits; when the current path ends, the waiting one with the lowest target is followed; a path that
  arrives where others wait is joined with them. A backward jump is taken once and a loop body runs
  once, with one element for all. Every owner that some execution could read gets the dependency.

  Calls are followed too, except into a script whose analysis is still running.
-/

namespace ReactiveScript

/-- How a function value is analysed with arguments. -/
abbrev Analyser := Value → Bindings → Run Value

/-- Where a pass stands. -/
structure Walk where
  pos : Nat
  /-- Whether a path is being followed. -/
  live : Bool
  pending : List WaitingPath
  /-- The positions of the backward jumps taken. -/
  backEdges : List Nat
  /-- The positions of the loops entered. -/
  enteredLoops : List Nat
  /-- What the script may return. -/
  result : Value

/-- The start of a script. -/
def Walk.start : Walk := ⟨0, true, [], [], [], .nil⟩

namespace Walk

/-- Go on at a position. -/
def goto (w : Walk) (pos : Nat) : Walk := { w with pos }

/-- Go on at the next position. -/
def next (w : Walk) : Walk := { w with pos := w.pos + 1 }

/-- The current path ends. -/
def stop (w : Walk) : Walk := { w with live := false }

/-- Leave a path for later. -/
def wait (w : Walk) (path : WaitingPath) : Walk := { w with pending := w.pending ++ [path] }

end Walk

/-- The target of a jump in a pass. -/
def Script.targetInPass (s : Script Value) (pos target : Nat) : Except EvalError Nat :=
  if target > s.length then .error (.malformedScript pos "jump target out of range")
  else .ok target

namespace Run

/-! ## Scheduling -/

/-- Follow a path if none is being followed; `none` when no path is left. -/
def resume (r : Region) (w : Walk) : Run (Option Walk) := do
  if w.live then return some w
  match earliest? w.pending with
  | none => return none
  | some index =>
    match w.pending[index]? with
    | none => return none
    | some path =>
      resumePath r path
      return some { w with pos := path.target, live := true, pending := swapRemove w.pending index }

/-- Join paths that wait at the current position, one after the other. -/
def mergeWaiting (r : Region) (w : Walk) : Nat → Run Walk
  | 0 => return w
  | tries + 1 =>
    match w.pending.findIdx? fun p => p.target == w.pos with
    | none => return w
    | some index =>
      match w.pending[index]? with
      | none => return w
      | some path => do
        mergePath r path
        mergeWaiting r { w with pending := swapRemove w.pending index } tries

/-- A value the script may return; the path ends. -/
def returnTop (r : Region) (w : Walk) : Run Walk := do
  let result ← store (either w.result (← peekOrNil r.base))
  return { w with result }.stop

/-! ## Instructions -/

/-- An unconditional jump. Forward, the path waits at the target; backward, it is taken once. -/
def walkJump (s : Script Value) (r : Region) (w : Walk) (n : Nat) : Run Walk := do
  let target ← ofExcept (s.targetInPass w.pos n)
  if target > w.pos then return (w.wait (← suspendPath r target)).stop
  else if w.backEdges.contains w.pos then return w.stop
  else
    heedInterrupt
    return { w with backEdges := w.pos :: w.backEdges }.goto target

/-- Leave the jumping path of a conditional jump for later, unless it goes back once more. -/
def walkBranch (r : Region) (w : Walk) (target : Nat) : Run Walk := do
  if target > w.pos then return w.wait (← suspendPath r target)
  else if w.backEdges.contains w.pos then return w
  else return { w with backEdges := w.pos :: w.backEdges }.wait (← suspendPath r target)

/-- Remove the value below the top of a frame. -/
def withoutSecond : List Value → List Value
  | a :: _ :: rest => a :: rest
  | frame => frame

/-- The element a loop body runs with. -/
def loopElement (frame : List Value) : Run Entry := do
  match frame with
  | _ :: .iterator handle :: _ => return (← store (Store.drawEntry handle)).getD (.nil, .nil)
  | _ => return (.nil, .nil)

/-- A loop. The first time its body runs on one element while the exit waits, then only the exit
is left. -/
def walkLoop (s : Script Value) (r : Region) (w : Walk) (n : Nat) (withKey : Bool) :
    Run Walk := do
  let target ← ofExcept (s.targetInPass w.pos n)
  let path ← suspendPath r target
  let exit := { path with frame := withoutSecond path.frame }
  if w.enteredLoops.contains w.pos then
    setFrame r.base exit.frame
    return (w.wait exit).stop
  else
    let (key, v) ← loopElement path.frame
    if withKey then push key
    push v
    return ({ w with enteredLoops := w.pos :: w.enteredLoops }.wait exit).next

/-- The value of a variable in a pass: the stand-in of what is registered, or what is bound. -/
def variableInPass (var : Variable) (dep : Dependency) : Run Value := do
  match (← context).registry.lookup? var with
  | some node => store do
    node.noteRead dep
    newPlaceholder node
  | none => return ((← context).env.get? var).getD .nil

/-- A call is analysed, a partial application is made. -/
def walkCall (analyse : Analyser) (s : Script Value) (r : Region) (w : Walk) (n : Nat)
    (op : Opcode) : Run Walk := do
  let params ← ofExcept (s.params (w.pos + 1) n)
  let args ← takeManyOrNil r.base n
  let function ← takeOrNil r.base
  let bindings := params.zip args
  push (← if op = .closure then store (partialApply function bindings)
    else analyse function bindings)
  return w.goto (w.pos + 1 + n)

/-- Follow the path over one instruction. -/
def walkInstr (analyse : Analyser) (dep : Dependency) (s : Script Value) (r : Region) (w : Walk)
    (i : Instruction) : Run Walk := do
  let n := i.operand
  match i.opcode with
  | .nop => return w.next
  | .pushConst =>
    push (← ofExcept (s.constantAt w.pos n))
    return w.next
  | .pop =>
    let _ ← takeOrNil r.base
    return w.next
  | .dup =>
    push ((← frame r.base)[n]?.getD .nil)
    return w.next
  | .jump => walkJump s r w n
  | .jumpIfNot =>
    let target ← ofExcept (s.targetInPass w.pos n)
    let _ ← takeOrNil r.base
    return (← walkBranch r w target).next
  | .jumpScAnd | .jumpScOr =>
    let target ← ofExcept (s.targetInPass w.pos n)
    let w ← walkBranch r w target
    let _ ← takeOrNil r.base
    return w.next
  | .loop => walkLoop s r w n false
  | .loopWithKey => walkLoop s r w n true
  | .ret => returnTop r w
  | .getVar =>
    push (← variableInPass ⟨n⟩ dep)
    return w.next
  | .setVar =>
    bindVariable ⟨n⟩ (← peekOrNil r.base)
    return w.next
  | .memberC =>
    let key ← ofExcept (s.constantAt w.pos n)
    let object ← takeOrNil r.base
    push (← store (object.memberInPassAt key dep))
    return w.next
  | .makeObject =>
    let values ← takeManyOrNil r.base (2 * n)
    push (← store (makeObject values))
    return w.next
  | .call => walkCall analyse s r w n .call
  | .closure => walkCall analyse s r w n .closure
  | .tailCall => walkCall analyse s r w n .tailCall
  | .unary =>
    let a ← takeOrNil r.base
    let op ← ofExcept (operatorAt UnaryOp w.pos n)
    push (← store (a.unaryInPass op dep))
    return w.next
  | .binary =>
    let op ← ofExcept (operatorAt BinaryOp w.pos n)
    let b ← takeOrNil r.base
    let a ← takeOrNil r.base
    push (← store (a.binaryInPass op b dep))
    return w.next
  | .ternary =>
    let _ ← takeManyOrNil r.base 3
    push .nil
    return w.next
  | .quaternary =>
    let _ ← takeManyOrNil r.base 4
    push .nil
    return w.next

/-- Choose the path, join what waits, and follow one instruction; `none` when all is followed. -/
def walkStep (analyse : Analyser) (dep : Dependency) (s : Script Value) (r : Region) (w : Walk) :
    Run (Option Walk) := do
  match ← resume r w with
  | none => return none
  | some w =>
    let w ← mergeWaiting r w w.pending.length
    match s.code[w.pos]? with
    | none => return some (← returnTop r w)
    | some i => return some (← walkInstr analyse dep s r w i)

/-- Follow all paths. -/
def walkFrom (analyse : Analyser) (dep : Dependency) (s : Script Value) (r : Region) :
    Nat → Walk → Run Value
  | 0, _ => throw .exhausted
  | budget + 1, w => do
    match ← walkStep analyse dep s r w with
    | none => return w.result
    | some w => walkFrom analyse dep s r budget w

/-! ## Passes and calls -/

/-- Analyse a script with arguments, in a scope and on a frame of its own. -/
def passWith (analyse : Analyser) (budget : Nat) (dep : Dependency) (s : Script Value)
    (args : Bindings) : Run Value := do
  change fun c => { c with analyzing := c.analyzing ++ [s.id] }
  let base ← height
  let mark ← enterScope
  bindAll args
  let result ← attempt (walkFrom analyse dep s ⟨base, mark⟩ budget .start)
  leaveScope mark
  truncate base
  change fun c => { c with analyzing := c.analyzing.filter (· ≠ s.id) }
  ofExcept result

/-- Perform one action of a dependency hook. -/
def performHook (analyse : Analyser) (pass : Script Value → Run Value) (dep : Dependency) :
    HookAction Value → Run Value
  | .give v => return v
  | .logVariable var => do
    logVariable var
    return .nil
  | .get var => readVariable var
  | .raise e => fail e
  | .eval s => pass s
  | .call function args => analyse function args
  | .read owner => do return .bool (← store (Store.addDependent owner dep))
  | .markContent => do
    store Store.markContent
    return .nil

/-- Perform the actions of a dependency hook; the result is that of the last one. -/
def performHooks (analyse : Analyser) (pass : Script Value → Run Value) (dep : Dependency) :
    Value → List (HookAction Value) → Run Value
  | last, [] => return last
  | _, action :: rest => do
    performHooks analyse pass dep (← performHook analyse pass dep action) rest

/-- What calling an object touches: its own owners, or what calling either side of a union does. -/
def trackObject (analyse : Analyser) (dep : Dependency) (body : ObjectBody Value) :
    Run Value :=
  match body with
  | .host object =>
    match object.owners with
    | some _ => do
      store (object.noteRead "()" dep)
      let var ← store (Store.intern "input")
      return ((← context).env.get? var).getD .nil
    | none => return .nil
  | .placeholder _ => return .nil
  | .union a b => do
    let x ← analyse a []
    let y ← analyse b []
    store (either x y)

/-- Analyse a script that is called, unless its analysis is still running. -/
def analyseScript (analyse : Analyser) (budget : Nat) (dep : Dependency) (s : Script Value)
    (args : Bindings) : Run Value := do
  if (← context).analyzing.contains s.id then return .nil
  beginCall
  let result ← attempt (passWith analyse budget dep s args)
  endCall
  ofExcept result

/-- Analyse the call of a value, given how the calls nested in it are analysed. -/
def analyseWith (analyse : Analyser) (budget : Nat) (dep : Dependency) (function : Value)
    (args : Bindings) : Run Value :=
  match function with
  | .script s => analyseScript analyse budget dep s args
  | .builtin _ f =>
    match f.hook with
    | some actions => inScope do
      bindAll args
      performHooks analyse (fun s => passWith analyse budget dep s []) dep .nil actions
    | none => return .nil
  | .closure _ inner captured => analyse inner (captured ++ args)
  | .composition _ first second => do
    let intermediate ← analyse first args
    analyse second [(← store (Store.intern "input"), intermediate)]
  | .object _ body => inScope do
    bindAll args
    trackObject analyse dep body
  | _ => return .nil

/-- Analyse the call of a value within a budget of steps and nested calls. -/
def analyseFor (dep : Dependency) : Nat → Analyser
  | 0 => fun _ _ => throw .exhausted
  | budget + 1 => analyseWith (analyseFor dep budget) budget dep

/-- Register a dependency with every owner that a script might read, within a budget. -/
def trackReads (budget : Nat) (dep : Dependency) (s : Script Value) : Run Value :=
  passWith (analyseFor dep budget) budget dep s []

/-- Run a pass and tell whether its dependency reads measured content. -/
def trackingContent {α : Type} (x : Run α) : Run (α × Bool) := do
  store Store.clearContentMark
  let a ← x
  return (a, ← store Store.isContentMarked)

end Run

end ReactiveScript
