import ReactiveScript.Machine.Step

/-
  Calls.

  A script runs in a scope of its own until it returns; a tail call closes that scope and opens one
  for the next script on the same frame. Host functions get the errors of what they evaluate and may
  fail with them: the errors of limits go on, all others are delayed in the result of the call.
  Calls nest, so `callFor` calls with a budget of steps and nested calls; the budget bounds how far
  evaluation is followed and never changes what it gives.
-/

namespace ReactiveScript.Run

/-- Run a script from a position until it leaves its frame. -/
def runFrom (call : Caller) (s : Script Value) (base : Nat) : Nat → Nat → Run Exit
  | 0, _ => throw .exhausted
  | budget + 1, pos => do
    match ← step call s base pos with
    | .goto pos => runFrom call s base budget pos
    | .leave exit => return exit

/-- Close the scope of the script that made a tail call and open the one of its target. -/
def switchScope (scope : Option Nat) (bindings : Bindings) : Run Nat := do
  if let some mark := scope then leaveScope mark
  let mark ← enterScope
  bindAll bindings
  return mark

/-- Run a script and the scripts it tail-calls on one frame. Gives the result and the scope that is
still open. -/
def runChain (call : Caller) (steps base : Nat) :
    Nat → Script Value → Option Nat → Run (Except EvalError Value × Option Nat)
  | 0, _, _ => throw .exhausted
  | budget + 1, s, scope => do
    match ← attempt (runFrom call s base steps 0) with
    | .error e => return (.error e, scope)
    | .ok (.done v) => return (.ok v, scope)
    | .ok (.tail target bindings) =>
      match ← attempt heedInterrupt with
      | .error e => return (.error e, scope)
      | .ok () => runChain call steps base budget target (some (← switchScope scope bindings))

/-- Run a script on a frame of its own, in a scope that is open already or in none. -/
def execute (call : Caller) (budget : Nat) (s : Script Value) (scope : Option Nat) :
    Run Value := do
  let base ← height
  let (result, scope) ← runChain call budget base budget s scope
  if let some mark := scope then leaveScope mark
  match result with
  | .ok v => return v
  | .error e =>
    truncate base
    fail e

/-- Evaluate a script, in a scope of its own if wanted, and raise a delayed error. -/
def evalWith (call : Caller) (budget : Nat) (s : Script Value) (ownScope : Bool) : Run Value := do
  if (← context).callDepth = 0 then forgetFrames
  let scope ← if ownScope then some <$> enterScope else pure none
  ofExcept (← execute call budget s scope).force

/-! ## Host functions -/

/-- What a host function gets from an evaluation. -/
abbrev HostResult := Except HostError Value

/-- A result for a host function, with the error of the evaluation as its cause. -/
def hostResult (result : Except EvalError Value) : HostResult :=
  match result with
  | .ok v => .ok v
  | .error e => .error (.ofEval e)

/-- Whether a variable is bound, and to what. -/
def logVariable (var : Variable) : Run Unit := do
  let name ← store (Store.nameOf var)
  store (Store.write (.variable name ((← context).env.get? var)))

/-- Perform one action of a host function. -/
def perform (call : Caller) (eval : Script Value → Bool → Run Value) :
    HostAction Value → Run HostResult
  | .give v => return .ok v
  | .log text => do
    store (Store.write (.text text))
    return .ok .nil
  | .logVariable var => do
    logVariable var
    return .ok .nil
  | .fail e => return .error e
  | .eval s ownScope => hostResult <$> attempt (eval s ownScope)
  | .call function args => hostResult <$> attempt (call function args)
  | .get var => hostResult <$> attempt (readVariable var)
  | .set var v => do
    bindVariable var v
    return .ok .nil
  | .interrupt => do
    store (Store.setInterrupt (← context).settings.interrupt true)
    return .ok .nil
  | .panic payload => throw (.panic payload)
  | .gate name => fun m =>
    if m.store.openGates.contains name then (.ok (.ok .nil), m) else (.error (.held name), m)
  | .within contexts action => do
    return (← perform call eval action).mapError (·.addContexts contexts)

/-- Perform actions until one fails; the result is that of the last one. -/
def performAll (call : Caller) (eval : Script Value → Bool → Run Value) :
    Value → List (HostAction Value) → Run HostResult
  | last, [] => return .ok last
  | _, action :: rest => do
    match ← perform call eval action with
    | .ok v => performAll call eval v rest
    | .error e => return .error e

/-- The argument of a function that takes one. -/
def input : Run Value := do readVariable (← store (Store.intern "input"))

/-- A prelude function on its argument. -/
def preludeResult (function : PreludeFunction) (v : Value) : HostResult :=
  let plain (result : Except EvalError Value) : HostResult := hostResult result
  match function with
  | .toText => plain (v.toText.map .string)
  | .toInt => plain (v.toInt.map .int)
  | .toReal => plain (v.toReal.map .real)
  | .toBool => plain (v.toBool.map .bool)
  | .length => plain (v.length.map fun n => .int (Int64.ofNat n))
  | .typeName => .ok (.string v.typeName)
  | .error =>
    match v.toText with
    | .ok message => .error (.ofMessage message)
    | .error e => .error (.ofEval e)

/-- Run the body of a host function in the current scope. -/
def runHost (call : Caller) (eval : Script Value → Bool → Run Value) :
    HostBody Value → Run HostResult
  | .prelude function => do
    match ← attempt input with
    | .ok v => return preludeResult function v
    | .error e => return .error (.ofEval e)
  | .actions steps => performAll call eval .nil steps

/-- What the call of a host function gives: its failures are delayed unless a limit was hit. -/
def settle (name : String) : HostResult → Run Value
  | .ok v => return v
  | .error e =>
    let e := e.toEvalError name
    if e.isLimit then fail e else return .error e

/-! ## Calling values -/

/-- Call a script with arguments. -/
def callScript (call : Caller) (budget : Nat) (s : Script Value) (args : Bindings) :
    Run Value := do
  beginCall
  let mark ← enterScope
  bindAll args
  let result ← attempt (execute call budget s (some mark))
  endCall
  ofExcept result

/-- Call a host function. A delayed error among its arguments is the result. -/
def callHost (call : Caller) (eval : Script Value → Bool → Run Value)
    (function : HostFunction Value) (args : Bindings) : Run Value := do
  match args.find? fun b => b.2.isError with
  | some b => return b.2
  | none =>
    beginCall
    let result ← inScope do
      bindAll args
      runHost call eval function.body
    endCall
    settle function.name result

/-- Call a value, given how the calls nested in it are done. -/
def callWith (call : Caller) (budget : Nat) (function : Value) (args : Bindings) : Run Value :=
  match function with
  | .script s => callScript call budget s args
  | .builtin _ f => callHost call (evalWith call budget) f args
  | .closure _ inner captured => call inner (captured ++ args)
  | .composition _ first second => do
    let intermediate ← call first args
    call second [(← store (Store.intern "input"), intermediate)]
  | .error e => return .error e
  | other => return .error (.notCallable other.typeName)

/-- Call a value within a budget of steps and nested calls. -/
def callFor : Nat → Caller
  | 0 => fun _ _ => throw .exhausted
  | budget + 1 => callWith (callFor budget) budget

/-- Evaluate a script within a budget. -/
def eval (budget : Nat) (s : Script Value) (ownScope : Bool) : Run Value :=
  evalWith (callFor budget) budget s ownScope

/-! ## The prelude -/

/-- The names of the prelude functions, in the order in which they are bound. -/
def preludeFunctions : List (String × PreludeFunction) :=
  [("to_string", .toText), ("to_int", .toInt), ("to_real", .toReal), ("to_boolean", .toBool),
   ("length", .length), ("type_name", .typeName), ("error", .error)]

/-- Bind a host function to its name. -/
def define (id : Ident) (function : HostFunction Value) : Run Unit := do
  bindVariable (← store (Store.intern function.name)) (.builtin id function)

/-- Bind the prelude functions, each with an identity of its own. -/
def definePrelude : Run Unit :=
  preludeFunctions.forM fun (name, function) => do
    define (← store Store.fresh) ⟨name, .prelude function, none⟩

end ReactiveScript.Run
