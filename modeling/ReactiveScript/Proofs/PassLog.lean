import ReactiveScript.Tracking.Walk

/-
  Passes that keep a log.

  The dependency pass once more, over a monad in which an evaluation also tells which instructions
  it follows and which owners it signals, in order. An instruction is told of when it is followed
  (`walkStep`), an owner where a dependency is registered with it (`noteRead`); what dependency
  hooks and host objects do is not looked into. The pass does the same on the same machines
  (`run_trackReads`): the log is only looked at from outside.
-/

namespace ReactiveScript

/-- What a pass does, as seen from outside. -/
inductive PassEvent
  /-- The instruction of a script at a position is followed. -/
  | visited (script : Ident) (pos : Nat)
  /-- The dependency is registered with an owner, known by its canonical name. -/
  | signalled (name : String) (owner : OwnerId)
  deriving DecidableEq, Repr

/-- An evaluation, and what it tells when it starts on a machine. -/
structure Logged (α : Type) where
  run : Run α
  log : Machine → List PassEvent

namespace Logged

variable {α β : Type}

instance : Monad Logged where
  pure a := ⟨pure a, fun _ => []⟩
  bind x f := {
    run := x.run >>= fun a => (f a).run
    log := fun m => x.log m ++ match x.run m with
      | (.ok a, m') => (f a).log m'
      | (.error _, _) => [] }

/-- What tells nothing. -/
def quiet (x : Run α) : Logged α := ⟨x, fun _ => []⟩

/-- Tell of an event. -/
def tell (event : PassEvent) : Logged Unit := ⟨pure (), fun _ => [event]⟩

/-- Run to the end, giving an error as a result. -/
def attempt (x : Logged α) : Logged (Except EvalError α) := ⟨Run.attempt x.run, x.log⟩

/-- Run in a scope of its own, which is closed also after an error. -/
def inScope (x : Logged α) : Logged α := do
  let mark ← quiet Run.enterScope
  let result ← attempt x
  quiet (Run.leaveScope mark)
  quiet (Run.ofExcept result)

/-! ## Reading -/

/-- Register a dependency with an owner; a group is not touched. -/
def noteRead (node : Node) (dep : Dependency) : Logged Unit := do
  match node with
  | .owner name scripts => tell (.signalled name scripts)
  | .group _ _ => return ()
  quiet (Run.store (node.noteRead dep))

mutual

/-- Register a dependency with an owner, or with all owners of a group and its groups. -/
def noteReadBelow : Node → Dependency → Logged Unit
  | .owner name scripts, dep => noteRead (.owner name scripts) dep
  | .group _ members, dep => noteReadMembers members dep
termination_by structural node => node

/-- Register a dependency with all owners among the members. -/
def noteReadMembers : List (String × Node) → Dependency → Logged Unit
  | [], _ => return ()
  | (_, node) :: rest, dep => do
    noteReadBelow node dep
    noteReadMembers rest dep
termination_by structural members => members

end

/-- The member of a placeholder. -/
def memberOfNode (node : Node) (name : String) (dep : Dependency) : Logged Value :=
  match node.get? name with
  | some member => do
    noteRead member dep
    quiet (Run.store (newPlaceholder member))
  | none => return .nil

/-- The iterator over a placeholder, all of whose owners are read. -/
def iteratorOfNode (node : Node) (dep : Dependency) : Logged Value := do
  noteReadBelow node dep
  match node with
  | .owner _ _ => quiet (Run.store newStandIn)
  | .group _ members =>
    quiet (Run.store do Store.newIterator (.ofEntries (← placeholdersOf members)))

/-- The member of a value, registering the dependency with what is read. -/
def memberInPass : Value → String → Dependency → Logged Value
  | .object _ (.placeholder node), name, dep => memberOfNode node name dep
  | .object _ (.union a b), name, dep => do
    let x ← memberInPass a name dep
    let y ← memberInPass b name dep
    quiet (Run.store (either x y))
  | v, name, dep => quiet (Run.store (v.memberInPass name dep))
termination_by structural v => v

/-- The member under a key that is a value; a key without text reads nothing. -/
def memberInPassAt (object key : Value) (dep : Dependency) : Logged Value :=
  match key.toText with
  | .ok name => memberInPass object name dep
  | .error _ => return .nil

/-- The iterator of a value. Of a union both sides are read, and the first is the iterator. -/
def iteratorInPass : Value → Dependency → Logged Value
  | .object _ (.placeholder node), dep => iteratorOfNode node dep
  | .object _ (.union a b), dep => do
    let first ← iteratorInPass a dep
    let _ ← iteratorInPass b dep
    return first
  | v, dep => quiet (Run.store (v.iteratorInPass dep))
termination_by structural v => v

/-- What a unary operator gives. -/
def unaryInPass (op : UnaryOp) (a : Value) (dep : Dependency) : Logged Value :=
  match op with
  | .iteratorC => iteratorInPass a dep
  | _ => return .nil

/-- What a binary operator gives. -/
def binaryInPass (op : BinaryOp) (a b : Value) (dep : Dependency) : Logged Value :=
  match op with
  | .member => memberInPassAt a b dep
  | op => quiet (Run.store (a.binaryInPass op b dep))

/-- The value of a variable: the stand-in of what is registered, or what is bound. -/
def variableInPass (var : Variable) (dep : Dependency) : Logged Value := do
  match (← quiet Run.context).registry.lookup? var with
  | some node =>
    noteRead node dep
    quiet (Run.store (newPlaceholder node))
  | none => return ((← quiet Run.context).env.get? var).getD .nil

/-! ## Following a path -/

/-- How a function value is analysed with arguments. -/
abbrev Analyser := Value → Bindings → Logged Value

/-- The analyses, without what they tell. -/
def Analyser.run (analyse : Analyser) : ReactiveScript.Analyser := fun function args =>
  (analyse function args).run

/-- A call is analysed, a partial application is made. -/
def walkCall (analyse : Analyser) (s : Script Value) (r : Region) (w : Walk) (n : Nat)
    (op : Opcode) : Logged Walk := do
  let params ← quiet (Run.ofExcept (s.params (w.pos + 1) n))
  let args ← quiet (Run.takeManyOrNil r.base n)
  let function ← quiet (Run.takeOrNil r.base)
  let bindings := params.zip args
  let v ← if op = .closure then quiet (Run.store (partialApply function bindings))
    else analyse function bindings
  quiet (Run.push v)
  return w.goto (w.pos + 1 + n)

/-- Follow the path over one instruction. -/
def walkInstr (analyse : Analyser) (dep : Dependency) (s : Script Value) (r : Region) (w : Walk)
    (i : Instruction) : Logged Walk := do
  let n := i.operand
  match i.opcode with
  | .getVar =>
    quiet (Run.push (← variableInPass ⟨n⟩ dep))
    return w.next
  | .memberC =>
    let key ← quiet (Run.ofExcept (s.constantAt w.pos n))
    let object ← quiet (Run.takeOrNil r.base)
    quiet (Run.push (← memberInPassAt object key dep))
    return w.next
  | .call => walkCall analyse s r w n .call
  | .closure => walkCall analyse s r w n .closure
  | .tailCall => walkCall analyse s r w n .tailCall
  | .unary =>
    let a ← quiet (Run.takeOrNil r.base)
    let op ← quiet (Run.ofExcept (operatorAt UnaryOp w.pos n))
    quiet (Run.push (← unaryInPass op a dep))
    return w.next
  | .binary =>
    let op ← quiet (Run.ofExcept (operatorAt BinaryOp w.pos n))
    let b ← quiet (Run.takeOrNil r.base)
    let a ← quiet (Run.takeOrNil r.base)
    quiet (Run.push (← binaryInPass op a b dep))
    return w.next
  | _ => quiet (Run.walkInstr analyse.run dep s r w i)

/-- Choose the path, join what waits, and follow one instruction; `none` when all is followed. -/
def walkStep (analyse : Analyser) (dep : Dependency) (s : Script Value) (r : Region) (w : Walk) :
    Logged (Option Walk) := do
  match ← quiet (Run.resume r w) with
  | none => return none
  | some w =>
    let w ← quiet (Run.mergeWaiting r w w.pending.length)
    match s.code[w.pos]? with
    | none => return some (← quiet (Run.returnTop r w))
    | some i =>
      tell (.visited s.id w.pos)
      return some (← walkInstr analyse dep s r w i)

/-- Follow all paths. -/
def walkFrom (analyse : Analyser) (dep : Dependency) (s : Script Value) (r : Region) :
    Nat → Walk → Logged Value
  | 0, _ => quiet (throw .exhausted)
  | budget + 1, w => do
    match ← walkStep analyse dep s r w with
    | none => return w.result
    | some w => walkFrom analyse dep s r budget w

/-! ## Passes and calls -/

/-- Analyse a script with arguments, in a scope and on a frame of its own. -/
def passWith (analyse : Analyser) (budget : Nat) (dep : Dependency) (s : Script Value)
    (args : Bindings) : Logged Value := do
  quiet (Run.change fun c => { c with analyzing := c.analyzing ++ [s.id] })
  let base ← quiet Run.height
  let mark ← quiet Run.enterScope
  quiet (Run.bindAll args)
  let result ← attempt (walkFrom analyse dep s ⟨base, mark⟩ budget .start)
  quiet (Run.leaveScope mark)
  quiet (Run.truncate base)
  quiet (Run.change fun c => { c with analyzing := c.analyzing.filter (· ≠ s.id) })
  quiet (Run.ofExcept result)

/-- What calling an object touches. -/
def trackObject (analyse : Analyser) (dep : Dependency) (body : ObjectBody Value) :
    Logged Value :=
  match body with
  | .union a b => do
    let x ← analyse a []
    let y ← analyse b []
    quiet (Run.store (either x y))
  | body => quiet (Run.trackObject analyse.run dep body)

/-- Analyse a script that is called, unless its analysis is still running. -/
def analyseScript (analyse : Analyser) (budget : Nat) (dep : Dependency) (s : Script Value)
    (args : Bindings) : Logged Value := do
  if (← quiet Run.context).analyzing.contains s.id then return .nil
  quiet Run.beginCall
  let result ← attempt (passWith analyse budget dep s args)
  quiet Run.endCall
  quiet (Run.ofExcept result)

/-- Analyse the call of a value, given how the calls nested in it are analysed. -/
def analyseWith (analyse : Analyser) (budget : Nat) (dep : Dependency) (function : Value)
    (args : Bindings) : Logged Value :=
  match function with
  | .script s => analyseScript analyse budget dep s args
  | .closure _ inner captured => analyse inner (captured ++ args)
  | .composition _ first second => do
    let intermediate ← analyse first args
    let var ← quiet (Run.store (Store.intern "input"))
    analyse second [(var, intermediate)]
  | .object _ body => inScope do
    quiet (Run.bindAll args)
    trackObject analyse dep body
  | function => quiet (Run.analyseWith analyse.run budget dep function args)

/-- Analyse the call of a value within a budget of steps and nested calls. -/
def analyseFor (dep : Dependency) : Nat → Analyser
  | 0 => fun _ _ => quiet (throw .exhausted)
  | budget + 1 => analyseWith (analyseFor dep budget) budget dep

/-- Register a dependency with every owner that a script might read, within a budget. -/
def trackReads (budget : Nat) (dep : Dependency) (s : Script Value) : Logged Value :=
  passWith (analyseFor dep budget) budget dep s []

/-! ## The log changes nothing -/

variable {dep : Dependency}

theorem run_bind (x : Logged α) (f : α → Logged β) :
    (x >>= f).run = x.run >>= fun a => (f a).run := rfl

/-- A sequence tells what its parts tell. -/
theorem log_bind_ok {x : Logged α} {m m' : Machine} {a : α} (h : x.run m = (.ok a, m'))
    (f : α → Logged β) : (x >>= f).log m = x.log m ++ (f a).log m' := by
  show x.log m ++ _ = _
  rw [h]

/-- What stops early tells nothing more. -/
theorem log_bind_error {x : Logged α} {m m' : Machine} {stop : Stop}
    (h : x.run m = (.error stop, m')) (f : α → Logged β) : (x >>= f).log m = x.log m := by
  show x.log m ++ _ = _
  rw [h]
  exact List.append_nil _

theorem run_inScope (x : Logged α) : (inScope x).run = Run.inScope x.run := rfl

theorem run_noteRead (node : Node) : (noteRead node dep).run = Run.store (node.noteRead dep) := by
  cases node <;> rfl

mutual

theorem run_noteReadBelow : ∀ node : Node,
    (noteReadBelow node dep).run = Run.store (node.noteReadBelow dep)
  | .owner name scripts => run_noteRead (.owner name scripts)
  | .group _ members => run_noteReadMembers members
termination_by structural node => node

theorem run_noteReadMembers : ∀ members : List (String × Node),
    (noteReadMembers members dep).run = Run.store (Node.noteReadMembers members dep)
  | [] => rfl
  | (_, node) :: rest => by
    have hnode := run_noteReadBelow node
    have hrest := run_noteReadMembers rest
    unfold noteReadMembers Node.noteReadMembers
    rw [run_bind, hnode, hrest]
    rfl
termination_by structural members => members

end

theorem run_memberOfNode (node : Node) (name : String) :
    (memberOfNode node name dep).run = Run.store (node.memberInPass name dep) := by
  unfold memberOfNode Node.memberInPass
  cases node.get? name with
  | none => rfl
  | some member =>
    dsimp only
    rw [run_bind, run_noteRead]
    rfl

theorem run_iteratorOfNode (node : Node) :
    (iteratorOfNode node dep).run = Run.store (node.iteratorInPass dep) := by
  unfold iteratorOfNode Node.iteratorInPass
  rw [run_bind, run_noteReadBelow]
  cases node <;> rfl

theorem run_memberInPass (name : String) : ∀ v : Value,
    (memberInPass v name dep).run = Run.store (v.memberInPass name dep)
  | .object _ (.union a b) => by
    have ha := run_memberInPass name a
    have hb := run_memberInPass name b
    unfold memberInPass Value.memberInPass
    rw [run_bind, ha]
    simp only [run_bind, hb]
    rfl
  | .object _ (.placeholder node) => by
    unfold memberInPass Value.memberInPass
    exact run_memberOfNode node name
  | .object _ (.host _) | .nil | .bool _ | .int _ | .real _ | .string _ | .color _ | .collection _ _
  | .iterator _ | .script _ | .builtin _ _ | .closure _ _ _ | .composition _ _ _ | .error _ => by
    unfold memberInPass
    rfl
termination_by structural v => v

theorem run_memberInPassAt (object key : Value) :
    (memberInPassAt object key dep).run = Run.store (object.memberInPassAt key dep) := by
  unfold memberInPassAt Value.memberInPassAt
  cases key.toText with
  | ok name => exact run_memberInPass name object
  | error e => rfl

theorem run_iteratorInPass : ∀ v : Value,
    (iteratorInPass v dep).run = Run.store (v.iteratorInPass dep)
  | .object _ (.union a b) => by
    have ha := run_iteratorInPass a
    have hb := run_iteratorInPass b
    unfold iteratorInPass Value.iteratorInPass
    rw [run_bind, ha]
    simp only [run_bind, hb]
    rfl
  | .object _ (.placeholder node) => by
    unfold iteratorInPass Value.iteratorInPass
    exact run_iteratorOfNode node
  | .object _ (.host _) | .nil | .bool _ | .int _ | .real _ | .string _ | .color _ | .collection _ _
  | .iterator _ | .script _ | .builtin _ _ | .closure _ _ _ | .composition _ _ _ | .error _ => by
    unfold iteratorInPass
    rfl
termination_by structural v => v

theorem run_unaryInPass (op : UnaryOp) (a : Value) :
    (unaryInPass op a dep).run = Run.store (a.unaryInPass op dep) := by
  cases op with
  | iteratorC => exact run_iteratorInPass a
  | _ => rfl

theorem run_binaryInPass (op : BinaryOp) (a b : Value) :
    (binaryInPass op a b dep).run = Run.store (a.binaryInPass op b dep) := by
  cases op with
  | member => exact run_memberInPassAt a b
  | _ => rfl

theorem run_variableInPass (var : Variable) :
    (variableInPass var dep).run = Run.variableInPass var dep := by
  unfold variableInPass Run.variableInPass
  rw [run_bind]
  refine congrArg (Run.context >>= ·) (funext fun c => ?_)
  cases c.registry.lookup? var with
  | none => rfl
  | some node =>
    dsimp only
    rw [run_bind, run_noteRead]
    rfl

variable {analyse : Analyser} {s : Script Value} {r : Region} {w : Walk}

theorem run_walkCall (n : Nat) (op : Opcode) :
    (walkCall analyse s r w n op).run = Run.walkCall analyse.run s r w n op := by
  unfold walkCall
  by_cases h : op = .closure
  · subst h
    rfl
  · simp only [if_neg h]
    unfold Run.walkCall
    simp only [if_neg h]
    rfl

theorem run_walkInstr (i : Instruction) :
    (walkInstr analyse dep s r w i).run = Run.walkInstr analyse.run dep s r w i := by
  rcases i with ⟨opcode, n⟩
  cases opcode with
  | getVar =>
    unfold walkInstr
    simp only [run_bind, run_variableInPass]
    rfl
  | memberC =>
    unfold walkInstr
    simp only [run_bind, run_memberInPassAt]
    rfl
  | call => exact run_walkCall n .call
  | closure => exact run_walkCall n .closure
  | tailCall => exact run_walkCall n .tailCall
  | unary =>
    unfold walkInstr
    simp only [run_bind, run_unaryInPass]
    rfl
  | binary =>
    unfold walkInstr
    simp only [run_bind, run_binaryInPass]
    rfl
  | _ => rfl

theorem run_walkStep :
    (walkStep analyse dep s r w).run = Run.walkStep analyse.run dep s r w := by
  unfold walkStep Run.walkStep
  rw [run_bind]
  refine congrArg (Run.resume r w >>= ·) (funext fun next => ?_)
  cases next with
  | none => rfl
  | some w =>
    dsimp only
    rw [run_bind]
    refine congrArg (Run.mergeWaiting r w w.pending.length >>= ·) (funext fun w => ?_)
    cases s.code[w.pos]? with
    | none => rfl
    | some i =>
      dsimp only
      rw [run_bind, run_bind, run_walkInstr]
      rfl

theorem run_walkFrom (budget : Nat) (w : Walk) :
    (walkFrom analyse dep s r budget w).run = Run.walkFrom analyse.run dep s r budget w := by
  induction budget generalizing w with
  | zero => rfl
  | succ budget ih =>
    unfold walkFrom Run.walkFrom
    rw [run_bind, run_walkStep]
    refine congrArg (Run.walkStep analyse.run dep s r w >>= ·) (funext fun next => ?_)
    cases next with
    | none => rfl
    | some w => exact ih w

theorem run_passWith (budget : Nat) (args : Bindings) :
    (passWith analyse budget dep s args).run = Run.passWith analyse.run budget dep s args := by
  unfold passWith Run.passWith
  simp only [← run_walkFrom]
  rfl

theorem run_trackObject (body : ObjectBody Value) :
    (trackObject analyse dep body).run = Run.trackObject analyse.run dep body := by
  cases body <;> rfl

theorem run_analyseScript (budget : Nat) (args : Bindings) :
    (analyseScript analyse budget dep s args).run =
      Run.analyseScript analyse.run budget dep s args := by
  unfold analyseScript Run.analyseScript
  rw [run_bind]
  refine congrArg (Run.context >>= ·) (funext fun c => ?_)
  by_cases h : c.analyzing.contains s.id = true
  · simp only [if_pos h]
    rfl
  · simp only [if_neg h, ← run_passWith]
    rfl

theorem run_analyseWith (budget : Nat) (function : Value) (args : Bindings) :
    (analyseWith analyse budget dep function args).run =
      Run.analyseWith analyse.run budget dep function args := by
  cases function with
  | script s => exact run_analyseScript budget args
  | object id body =>
    unfold analyseWith Run.analyseWith
    simp only [run_inScope, run_bind, run_trackObject]
    rfl
  | _ => rfl

theorem run_analyseFor (budget : Nat) :
    (analyseFor dep budget).run = Run.analyseFor dep budget := by
  induction budget with
  | zero => rfl
  | succ budget ih =>
    funext function args
    unfold analyseFor Run.analyseFor
    rw [← ih]
    exact run_analyseWith budget function args

theorem run_trackReads (budget : Nat) (dep : Dependency) (s : Script Value) :
    (trackReads budget dep s).run = Run.trackReads budget dep s := by
  unfold trackReads Run.trackReads
  rw [run_passWith, run_analyseFor]

end Logged

end ReactiveScript
