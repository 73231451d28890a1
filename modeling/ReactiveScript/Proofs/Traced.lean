import Mathlib.Data.List.ModifyLast
import ReactiveScript.Proofs.CallSwap

/-
  Evaluations that list what they raise and what they look up.

  The evaluator once more, over a monad in which an evaluation also tells which errors it raises, in
  order, and through which call sites each of them unwinds, and which variables it looks up. It gives
  the same results on the same machines (`run_eval`): the lists are only looked at from outside. An
  error is raised where it comes up (`once`, `host`); passing it on, and giving up on it, raises
  nothing (`quiet`). A variable is looked up to push it, to give it to a host function, and to log
  whether it is bound (`lookingUp`).
-/

namespace ReactiveScript

/-- An error that was raised, and the call sites it has unwound through, innermost first. -/
structure Raise where
  error : EvalError
  sites : List String
  deriving DecidableEq, Repr

/-- The error has unwound through one more call site. -/
def Raise.through (site : String) (raise : Raise) : Raise :=
  { raise with sites := raise.sites ++ [site] }

/-- A variable that is looked up, and the level of the scope in which it is found bound. -/
structure Lookup where
  var : Variable
  level : Option Nat
  deriving DecidableEq, Repr

/-- Looking up a variable. -/
def Environment.lookup (env : Environment) (var : Variable) : Lookup :=
  ⟨var, (env.slot? var).map Slot.level⟩

/-- An evaluation, and what it raises and looks up when it starts on a machine. -/
structure Traced (α : Type) where
  run : Run α
  raises : Machine → List Raise
  lookups : Machine → List Lookup

namespace Traced

open Run (HostResult hostResult)

variable {α β : Type}

instance : Monad Traced where
  pure a := ⟨pure a, fun _ => [], fun _ => []⟩
  map f x := ⟨f <$> x.run, x.raises, x.lookups⟩
  bind x f := {
    run := x.run >>= fun a => (f a).run
    raises := fun m => x.raises m ++ match x.run m with
      | (.ok a, m') => (f a).raises m'
      | (.error _, _) => []
    lookups := fun m => x.lookups m ++ match x.run m with
      | (.ok a, m') => (f a).lookups m'
      | (.error _, _) => [] }

theorem raises_bind (x : Traced α) (f : α → Traced β) (m : Machine) :
    (x >>= f).raises m = x.raises m ++ match x.run m with
      | (.ok a, m') => (f a).raises m'
      | (.error _, _) => [] := rfl

theorem lookups_bind (x : Traced α) (f : α → Traced β) (m : Machine) :
    (x >>= f).lookups m = x.lookups m ++ match x.run m with
      | (.ok a, m') => (f a).lookups m'
      | (.error _, _) => [] := rfl

/-- What stops at its first error raises the error that it fails with. -/
def once (x : Run α) : Traced α where
  run := x
  raises m := match (x m).1 with
    | .error (.error e) => [⟨e, []⟩]
    | _ => []
  lookups _ := []

/-- What raises no error of its own: it can fail only with one that is on its way already. -/
def quiet (x : Run α) : Traced α := ⟨x, fun _ => [], fun _ => []⟩

/-- What begins by looking up a variable. -/
def lookingUp (var : Variable) (x : Traced α) : Traced α :=
  { x with lookups := fun m => m.context.env.lookup var :: x.lookups m }

/-- The value of a variable; it must have one. -/
def readVariable (var : Variable) : Traced Value := lookingUp var (once (Run.readVariable var))

/-- Run to the end, giving an error as a result. -/
def attempt (x : Traced α) : Traced (Except EvalError α) :=
  ⟨Run.attempt x.run, x.raises, x.lookups⟩

/-- Done at a call site: an error unwinds through the site, which is noted. -/
def atSite (site : StateM Store String) (x : Traced α) : Traced α where
  run := do
    match ← Run.attempt x.run with
    | .ok a => return a
    | .error e =>
      Run.noteFrame (← Run.store site)
      Run.fail e
  raises m := match x.run m with
    | (.error (.error _), m') => (x.raises m).modifyLast (Raise.through (site m'.store).1)
    | _ => x.raises m
  lookups := x.lookups

/-- The evaluation error that a host function fails with, if it is one. -/
def failingWith : HostResult → Option EvalError
  | .error ⟨.eval e, _⟩ => some e
  | _ => none

/-- The result of a host function of its own, not of what it evaluates. -/
def host (result : HostResult) : Traced HostResult where
  run := pure result
  raises _ := (failingWith result).toList.map (⟨·, []⟩)
  lookups _ := []

/-- Run in a scope of its own, which is closed also after an error. -/
def inScope (x : Traced α) : Traced α := do
  let mark ← quiet Run.enterScope
  let result ← attempt x
  quiet (Run.leaveScope mark)
  quiet (Run.ofExcept result)

/-! ## Instructions -/

/-- How a function value is called with arguments. -/
abbrev Caller := Value → Bindings → Traced Value

/-- The calls, without what they raise. -/
def Caller.run (call : Caller) : ReactiveScript.Caller := fun function args =>
  (call function args).run

/-- Where a jump goes. Going back is a chance to be interrupted. -/
def takeJump (s : Script Value) (pos target : Nat) : Traced Next :=
  if target > s.length then once (Run.failAt pos "jump target out of range")
  else if target ≤ pos then do
    once Run.heedInterrupt
    return .goto target
  else return .goto target

/-- What a loop does once it has heeded the interrupt: draw from the iterator, or jump. -/
def drawOrJump (s : Script Value) (base pos target : Nat) (withKey : Bool) :
    List Value → Traced Next
  | accumulator :: slot :: rest =>
    if rest.length < base then once (Run.failAt pos "LOOP without iterator")
    else match slot with
      | .iterator handle => do
        match ← quiet (Run.store (Store.drawEntry handle)) with
        | some (key, v) =>
          quiet do
            if withKey then Run.push key
            Run.push v
            return .goto (pos + 1)
        | none =>
          quiet (Run.setOperands (accumulator :: rest))
          takeJump s pos target
      | .error e => once (Run.fail e)
      | other => once (Run.fail (.notIterator other.typeName))
  | _ => once (Run.failAt pos "LOOP without iterator")

/-- Draw from the iterator below the top; when there is nothing left, remove it and jump. -/
def stepLoop (s : Script Value) (base pos target : Nat) (withKey : Bool) : Traced Next := do
  once Run.heedInterrupt
  drawOrJump s base pos target withKey (← quiet Run.operands)

/-- Call a function, or leave the frame for the script that is tail called. -/
def stepCall (call : Caller) (s : Script Value) (base pos n : Nat) (op : Opcode) :
    Traced Next := do
  let parts ← once (Run.callParts s base pos n)
  let height ← quiet Run.height
  match if op = .tailCall && height == base then tailScript? parts.1 parts.2 else none with
  | some (script, bindings) => return .leave (.tail script bindings)
  | none =>
    let v ← atSite (Run.callSite s pos) (call parts.1 parts.2)
    quiet (Run.push v)
    return .goto (pos + 1 + n)

/-- Execute an instruction. All but jumps, loops and calls stop at their first error, heed no
interrupt and call nothing; one of them looks up a variable. -/
def stepInstr (call : Caller) (s : Script Value) (base pos : Nat) (i : Instruction) :
    Traced Next :=
  let n := i.operand
  let next := Next.goto (pos + 1)
  match i.opcode with
  | .jump => takeJump s pos n
  | .jumpIfNot => do
    let holds ← once do Run.ofExcept (← Run.pop base pos).toBool
    if holds then return next else takeJump s pos n
  | .jumpScAnd => do
    let holds ← once do Run.ofExcept (← Run.top base pos).toBool
    if holds then once do let _ ← Run.pop base pos; return next
    else takeJump s pos n
  | .jumpScOr => do
    let holds ← once do Run.ofExcept (← Run.top base pos).toBool
    if holds then takeJump s pos n
    else once do let _ ← Run.pop base pos; return next
  | .loop => stepLoop s base pos n false
  | .loopWithKey => stepLoop s base pos n true
  | .call => stepCall call s base pos n .call
  | .tailCall => stepCall call s base pos n .tailCall
  | .getVar => do
    quiet (Run.push (← readVariable ⟨n⟩))
    return next
  | .setVar => do
    quiet (Run.bindVariable ⟨n⟩ (← once (Run.top base pos)))
    return next
  | _ => once (Run.stepInstr call.run s base pos i)

/-- Execute the instruction at a position, or return at the end of the code. -/
def step (call : Caller) (s : Script Value) (base pos : Nat) : Traced Next :=
  match s.code[pos]? with
  | some i => stepInstr call s base pos i
  | none => once do return .leave (.done (← Run.frameResult base s.length))

/-! ## Scripts -/

/-- Run a script from a position until it leaves its frame. -/
def runFrom (call : Caller) (s : Script Value) (base : Nat) : Nat → Nat → Traced Exit
  | 0, _ => quiet (throw .exhausted)
  | budget + 1, pos => do
    match ← step call s base pos with
    | .goto pos => runFrom call s base budget pos
    | .leave exit => return exit

/-- Run a script and the scripts it tail-calls on one frame. -/
def runChain (call : Caller) (steps base : Nat) :
    Nat → Script Value → Option Nat → Traced (Except EvalError Value × Option Nat)
  | 0, _, _ => quiet (throw .exhausted)
  | budget + 1, s, scope => do
    match ← attempt (runFrom call s base steps 0) with
    | .error e => return (.error e, scope)
    | .ok (.done v) => return (.ok v, scope)
    | .ok (.tail target bindings) =>
      match ← attempt (once Run.heedInterrupt) with
      | .error e => return (.error e, scope)
      | .ok () =>
        runChain call steps base budget target (some (← quiet (Run.switchScope scope bindings)))

/-- Run a script on a frame of its own, in a scope that is open already or in none. -/
def execute (call : Caller) (budget : Nat) (s : Script Value) (scope : Option Nat) :
    Traced Value := do
  let base ← quiet Run.height
  let ended ← runChain call budget base budget s scope
  quiet (Run.finish base ended.1 ended.2)

/-- Evaluate a script, in a scope of its own if wanted, and raise a delayed error. -/
def result (call : Caller) (budget : Nat) (s : Script Value) (ownScope : Bool) : Traced Value := do
  let scope ← quiet (if ownScope then some <$> Run.enterScope else pure none)
  let v ← execute call budget s scope
  once (Run.ofExcept v.force)

/-- Evaluate a script. The outermost evaluation forgets the call sites noted before. -/
def evalWith (call : Caller) (budget : Nat) (s : Script Value) (ownScope : Bool) :
    Traced Value := do
  let c ← quiet Run.context
  if c.callDepth = 0 then quiet Run.forgetFrames
  result call budget s ownScope

/-! ## Host functions -/

/-- Perform one action of a host function. -/
def perform (call : Caller) (eval : Script Value → Bool → Traced Value) :
    HostAction Value → Traced HostResult
  | .fail e => host (.error e)
  | .eval s ownScope => hostResult <$> attempt (eval s ownScope)
  | .call function args => hostResult <$> attempt (call function args)
  | .get var => hostResult <$> attempt (readVariable var)
  | .logVariable var => lookingUp var (quiet do Run.logVariable var; return .ok .nil)
  | .within contexts action => do
    return (← perform call eval action).mapError (·.addContexts contexts)
  | action => quiet (Run.perform call.run (fun s ownScope => (eval s ownScope).run) action)

/-- Perform actions until one fails; the result is that of the last one. -/
def performAll (call : Caller) (eval : Script Value → Bool → Traced Value) :
    Value → List (HostAction Value) → Traced HostResult
  | last, [] => return .ok last
  | _, action :: rest => do
    match ← perform call eval action with
    | .ok v => performAll call eval v rest
    | .error e => return .error e

/-- The argument of a function that takes one. -/
def input : Traced Value := do readVariable (← quiet (Run.store (Store.intern "input")))

/-- Run the body of a host function in the current scope. -/
def runHost (call : Caller) (eval : Script Value → Bool → Traced Value) :
    HostBody Value → Traced HostResult
  | .prelude function => do
    match ← attempt input with
    | .ok v => host (Run.preludeResult function v)
    | .error e => return .error (.ofEval e)
  | .actions steps => performAll call eval .nil steps

/-! ## Calls -/

/-- What is counted as a call, once it has begun. -/
def countedDown (x : Traced α) : Traced α := do
  let a ← x
  quiet Run.endCall
  return a

/-- What is counted as a call. -/
def counted (x : Traced α) : Traced α := do
  once Run.beginCall
  countedDown x

/-- Call a script with arguments. -/
def callScript (call : Caller) (budget : Nat) (s : Script Value) (args : Bindings) :
    Traced Value := do
  let result ← counted do
    let mark ← quiet Run.enterScope
    quiet (Run.bindAll args)
    attempt (execute call budget s (some mark))
  quiet (Run.ofExcept result)

/-- Call a host function. A delayed error among its arguments is the result. -/
def callHost (call : Caller) (eval : Script Value → Bool → Traced Value)
    (function : HostFunction Value) (args : Bindings) : Traced Value :=
  match args.find? fun b => b.2.isError with
  | some b => return b.2
  | none => do
    let result ← counted <| inScope do
      quiet (Run.bindAll args)
      runHost call eval function.body
    quiet (Run.settle function.name result)

/-- Call a value, given how the calls nested in it are done. -/
def callWith (call : Caller) (budget : Nat) (function : Value) (args : Bindings) : Traced Value :=
  match function with
  | .script s => callScript call budget s args
  | .builtin _ f => callHost call (evalWith call budget) f args
  | .closure _ inner captured => call inner (captured ++ args)
  | .composition _ first second => do
    let intermediate ← call first args
    let input ← quiet (Run.store (Store.intern "input"))
    call second [(input, intermediate)]
  | .error e => return .error e
  | other => return .error (.notCallable other.typeName)

/-- Call a value within a budget of steps and nested calls. -/
def callFor : Nat → Caller
  | 0 => fun _ _ => quiet (throw .exhausted)
  | budget + 1 => callWith (callFor budget) budget

/-- Evaluate a script within a budget. -/
def eval (budget : Nat) (s : Script Value) (ownScope : Bool) : Traced Value :=
  evalWith (callFor budget) budget s ownScope

/-! ## The same evaluations -/

theorem run_takeJump (s : Script Value) (pos target : Nat) :
    (takeJump s pos target).run = Run.takeJump s pos target := by
  unfold takeJump Run.takeJump
  by_cases hrange : target > s.length
  · simp only [if_pos hrange]
    rfl
  · by_cases hback : target ≤ pos
    · simp only [if_neg hrange, if_pos hback]
      rfl
    · simp only [if_neg hrange, if_neg hback]
      rfl

theorem run_stepLoop (s : Script Value) (base pos target : Nat) (withKey : Bool) :
    (stepLoop s base pos target withKey).run = Run.stepLoop s base pos target withKey := by
  show (Run.heedInterrupt >>= fun _ => Run.operands >>= fun stack =>
    (drawOrJump s base pos target withKey stack).run) = _
  unfold Run.stepLoop
  congr 1
  funext _
  congr 1
  funext stack
  rcases stack with _ | ⟨accumulator, _ | ⟨slot, rest⟩⟩
  · rfl
  · rfl
  · unfold drawOrJump
    by_cases hframe : rest.length < base
    · simp only [if_pos hframe]
      rfl
    · simp only [if_neg hframe]
      cases slot with
      | iterator handle =>
        show (Run.store (Store.drawEntry handle) >>= _) = _
        congr 1
        funext drawn
        cases drawn with
        | some entry => rfl
        | none =>
          show (Run.setOperands _ >>= fun _ => (takeJump s pos target).run) = _
          rw [run_takeJump]
      | _ => rfl

/-- Calling at a site notes the site when the call fails. -/
theorem run_atSite (site : StateM Store String) (x : Traced α) (f : α → Run β) :
    ((atSite site x).run >>= f) = (do
      match ← Run.attempt x.run with
      | .ok a => f a
      | .error e =>
        Run.noteFrame (← Run.store site)
        Run.fail e) := by
  show ((Run.attempt x.run >>= _) >>= f) = _
  rw [bind_assoc]
  congr 1
  funext result
  cases result <;> rfl

theorem run_stepCall (call : Caller) (s : Script Value) (base pos n : Nat) :
    (stepCall call s base pos n .call).run = Run.stepCall call.run s base pos n .call ∧
    (stepCall call s base pos n .tailCall).run = Run.stepCall call.run s base pos n .tailCall := by
  have hplain : ∀ parts : Value × Bindings, ((do
      let v ← atSite (Run.callSite s pos) (call parts.1 parts.2)
      quiet (Run.push v)
      return .goto (pos + 1 + n)) : Traced Next).run =
      Run.stepPlainCall call.run s pos (pos + 1 + n) parts.1 parts.2 := fun parts => by
    show ((atSite _ _).run >>= _) = _
    rw [run_atSite]
    unfold Run.stepPlainCall
    congr 1
    funext result
    cases result <;> rfl
  constructor
  · rw [Run.stepCall_call]
    show (Run.callParts s base pos n >>= _) = _
    congr 1
    funext parts
    exact hplain parts
  · rw [Run.stepCall_tailCall]
    show (Run.callParts s base pos n >>= _) = _
    congr 1
    funext parts
    show (Run.height >>= _) = _
    congr 1
    funext height
    dsimp only
    rw [decide_eq_true rfl, Bool.true_and]
    cases if (height == base) = true then tailScript? parts.1 parts.2 else none with
    | some target => rfl
    | none => exact hplain parts

/-- Testing a value, and then what the branches do. -/
theorem run_tested (x : Run Value) {f : Bool → Traced Next} {g : Bool → Run Next}
    (hbranches : ∀ holds, (f holds).run = g holds) :
    ((once do Run.ofExcept (← x).toBool) >>= f).run = (do
      let holds ← Run.ofExcept (← x).toBool
      g holds) := by
  show ((x >>= fun v => Run.ofExcept v.toBool) >>= fun holds => (f holds).run) = _
  rw [bind_assoc, funext hbranches]

theorem run_stepInstr (call : Caller) (s : Script Value) (base pos : Nat) (i : Instruction) :
    (stepInstr call s base pos i).run = Run.stepInstr call.run s base pos i := by
  rcases i with ⟨opcode, n⟩
  cases opcode with
  | jump => exact run_takeJump s pos n
  | loop => exact run_stepLoop s base pos n false
  | loopWithKey => exact run_stepLoop s base pos n true
  | call => exact (run_stepCall call s base pos n).1
  | tailCall => exact (run_stepCall call s base pos n).2
  | jumpIfNot =>
    refine run_tested _ fun holds => ?_
    cases holds
    · exact run_takeJump s pos n
    · rfl
  | jumpScAnd =>
    refine run_tested _ fun holds => ?_
    cases holds
    · exact run_takeJump s pos n
    · rfl
  | jumpScOr =>
    refine run_tested _ fun holds => ?_
    cases holds
    · rfl
    · exact run_takeJump s pos n
  | _ => rfl

theorem run_step (call : Caller) (s : Script Value) (base pos : Nat) :
    (step call s base pos).run = Run.step call.run s base pos := by
  unfold step Run.step
  cases s.code[pos]? with
  | some i => exact run_stepInstr call s base pos i
  | none => rfl

theorem run_runFrom (call : Caller) (s : Script Value) (base budget pos : Nat) :
    (runFrom call s base budget pos).run = Run.runFrom call.run s base budget pos := by
  induction budget generalizing pos with
  | zero => rfl
  | succ budget ih =>
    show ((step call s base pos).run >>= _) = _
    rw [run_step]
    show _ = (Run.step call.run s base pos >>= _)
    congr 1
    funext next
    cases next with
    | goto pos => exact ih pos
    | leave exit => rfl

theorem run_runChain (call : Caller) (steps base budget : Nat) (s : Script Value)
    (scope : Option Nat) :
    (runChain call steps base budget s scope).run =
      Run.runChain call.run steps base budget s scope := by
  induction budget generalizing s scope with
  | zero => rfl
  | succ budget ih =>
    show (Run.attempt (runFrom call s base steps 0).run >>= _) = _
    rw [run_runFrom]
    show _ = (Run.attempt (Run.runFrom call.run s base steps 0) >>= _)
    congr 1
    funext left
    rcases left with e | v | ⟨target, bindings⟩
    · rfl
    · rfl
    · show (Run.attempt Run.heedInterrupt >>= _) = (Run.attempt Run.heedInterrupt >>= _)
      congr 1
      funext heeded
      cases heeded with
      | error e => rfl
      | ok _ =>
        show (Run.switchScope scope bindings >>= _) = (Run.switchScope scope bindings >>= _)
        congr 1
        funext mark
        exact ih target (some mark)

theorem run_execute (call : Caller) (budget : Nat) (s : Script Value) (scope : Option Nat) :
    (execute call budget s scope).run = Run.execute call.run budget s scope := by
  rw [Run.execute_eq]
  show (Run.height >>= fun base => (runChain call budget base budget s scope).run >>= _) = _
  congr 1
  funext base
  rw [run_runChain]
  rfl

theorem run_evalWith (call : Caller) (budget : Nat) (s : Script Value) (ownScope : Bool) :
    (evalWith call budget s ownScope).run = Run.evalWith call.run budget s ownScope := by
  have hresult : (result call budget s ownScope).run = (do
      let scope ← if ownScope then some <$> Run.enterScope else pure none
      Run.ofExcept (← Run.execute call.run budget s scope).force) := by
    show (_ >>= fun scope => (execute call budget s scope).run >>= _) = _
    simp only [run_execute]
    cases ownScope <;> rfl
  show (Run.context >>= _) = _
  unfold Run.evalWith
  congr 1
  funext c
  by_cases hdepth : c.callDepth = 0
  · simp only [if_pos hdepth]
    show (Run.forgetFrames >>= fun _ => (result call budget s ownScope).run) = _
    rw [hresult]
  · simp only [if_neg hdepth]
    exact hresult

theorem run_perform (call : Caller) (eval : Script Value → Bool → Traced Value)
    (action : HostAction Value) :
    (perform call eval action).run =
      Run.perform call.run (fun s ownScope => (eval s ownScope).run) action := by
  induction action with
  | within contexts action ih =>
    show ((perform call eval action).run >>= _) = _
    rw [ih]
    rfl
  | _ => rfl

theorem run_performAll (call : Caller) (eval : Script Value → Bool → Traced Value) (last : Value)
    (actions : List (HostAction Value)) :
    (performAll call eval last actions).run =
      Run.performAll call.run (fun s ownScope => (eval s ownScope).run) last actions := by
  induction actions generalizing last with
  | nil => rfl
  | cons action rest ih =>
    show ((perform call eval action).run >>= _) = _
    rw [run_perform]
    show _ = (Run.perform call.run _ action >>= _)
    congr 1
    funext result
    cases result with
    | ok v => exact ih v
    | error e => rfl

theorem run_runHost (call : Caller) (eval : Script Value → Bool → Traced Value)
    (body : HostBody Value) :
    (runHost call eval body).run =
      Run.runHost call.run (fun s ownScope => (eval s ownScope).run) body := by
  cases body with
  | prelude function =>
    show (Run.attempt Run.input >>= _) = (Run.attempt Run.input >>= _)
    congr 1
    funext result
    cases result <;> rfl
  | actions steps => exact run_performAll call eval .nil steps

theorem run_callScript (call : Caller) (budget : Nat) (s : Script Value) (args : Bindings) :
    (callScript call budget s args).run = Run.callScript call.run budget s args := by
  show ((Run.beginCall >>= fun _ => (Run.enterScope >>= fun mark => Run.bindAll args >>= fun _ =>
    Run.attempt (execute call budget s (some mark)).run) >>= _) >>= _) = _
  simp only [bind_assoc, run_execute]
  rfl

theorem run_callHost (call : Caller) (eval : Script Value → Bool → Traced Value)
    (function : HostFunction Value) (args : Bindings) :
    (callHost call eval function args).run =
      Run.callHost call.run (fun s ownScope => (eval s ownScope).run) function args := by
  unfold callHost Run.callHost
  cases args.find? fun b => b.2.isError with
  | some b => rfl
  | none =>
    show ((Run.beginCall >>= fun _ => Run.inScope (Run.bindAll args >>= fun _ =>
      (runHost call eval function.body).run) >>= _) >>= _) = _
    rw [run_runHost]
    simp only [bind_assoc]
    rfl

theorem run_callWith (call : Caller) (budget : Nat) (function : Value) (args : Bindings) :
    (callWith call budget function args).run = Run.callWith call.run budget function args := by
  cases function with
  | script s => exact run_callScript call budget s args
  | builtin _ f =>
    have heval : (fun s ownScope => (evalWith call budget s ownScope).run) =
        Run.evalWith call.run budget := by
      funext s ownScope
      exact run_evalWith call budget s ownScope
    have hhost := run_callHost call (evalWith call budget) f args
    rw [heval] at hhost
    exact hhost
  | _ => rfl

theorem run_callFor (budget : Nat) : (callFor budget).run = Run.callFor budget := by
  induction budget with
  | zero => rfl
  | succ budget ih =>
    funext function args
    show (callWith (callFor budget) budget function args).run = _
    rw [run_callWith, ih]
    rfl

/-- What is raised is only listed: the evaluation is the same. -/
theorem run_eval (budget : Nat) (s : Script Value) (ownScope : Bool) :
    (eval budget s ownScope).run = Run.eval budget s ownScope := by
  show (evalWith (callFor budget) budget s ownScope).run = _
  rw [run_evalWith, run_callFor]
  rfl

end Traced

end ReactiveScript
