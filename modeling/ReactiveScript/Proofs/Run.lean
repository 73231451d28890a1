import ReactiveScript.Machine.Call

/-
  What evaluations do to a machine, one combinator at a time.

  An evaluation is a function on machines; the equations here say what each combinator of `Run` gives
  and leaves behind, so that no later proof opens the monad. `Returned` tells results that a caller
  gets, values and errors, from stops that end the whole evaluation.
-/

namespace ReactiveScript

/-- The machine with other variables. -/
def Machine.withEnv (m : Machine) (env : Environment) : Machine :=
  { m with context := { m.context with env } }

namespace Run

variable {α β : Type}

/-- The evaluation came back, with a value or an error. -/
def Returned : Except Stop α → Prop
  | .ok _ => True
  | .error (.error _) => True
  | .error _ => False

@[simp] theorem returned_ok (a : α) : Returned (.ok a : Except Stop α) := trivial

@[simp] theorem returned_error (e : EvalError) : Returned (.error (.error e) : Except Stop α) :=
  trivial

/-- A stop is passed on as it is. -/
theorem Returned.error_of {stop : Stop} (h : Returned (.error stop : Except Stop α)) :
    ∃ e, stop = .error e := by
  cases stop with
  | error e => exact ⟨e, rfl⟩
  | panic _ => exact absurd h id
  | held _ => exact absurd h id
  | exhausted => exact absurd h id

/-- Whether a value is a given truth value can be evaluated. -/
instance (v : Value) (b : Bool) : Decidable (v = .bool b) :=
  match v with
  | .bool b' => decidable_of_iff (b' = b) ⟨congrArg Value.bool, Value.bool.inj⟩
  | .nil | .int _ | .real _ | .string _ | .color _ | .collection .. | .object .. | .iterator _
  | .script _ | .builtin .. | .closure .. | .composition .. | .error _ => isFalse nofun

/-- Whether an evaluation returned a given truth value can be evaluated. -/
instance (r : Except Stop Value) (b : Bool) : Decidable (r = .ok (.bool b)) :=
  match r with
  | .ok v => decidable_of_iff (v = .bool b) ⟨congrArg Except.ok, Except.ok.inj⟩
  | .error _ => isFalse nofun

/-- Whether an evaluation stopped for a given reason can be evaluated. -/
instance (r : Except Stop Value) (stop : Stop) : Decidable (r = .error stop) :=
  match r with
  | .ok _ => isFalse nofun
  | .error stop' => decidable_of_iff (stop' = stop) ⟨congrArg Except.error, Except.error.inj⟩

/-! ## Equations -/

theorem run_bind (x : Run α) (f : α → Run β) (m : Machine) :
    (x >>= f) m = match x m with
      | (.ok a, m') => f a m'
      | (.error stop, m') => (.error stop, m') := by
  show (ExceptT.bind x f) m = _
  unfold ExceptT.bind ExceptT.mk
  show (match x m with | (r, m') => ExceptT.bindCont f r m') = _
  rcases x m with ⟨a | stop, m'⟩ <;> rfl

theorem run_bind_ok {x : Run α} {f : α → Run β} {m m' : Machine} {a : α}
    (h : x m = (.ok a, m')) : (x >>= f) m = f a m' := by rw [run_bind, h]

theorem run_bind_error {x : Run α} {f : α → Run β} {m m' : Machine} {stop : Stop}
    (h : x m = (.error stop, m')) : (x >>= f) m = (.error stop, m') := by rw [run_bind, h]

/-- A sequence comes back only if its first part does. -/
theorem Returned.of_bind {x : Run α} {f : α → Run β} {m : Machine}
    (h : Returned ((x >>= f) m).1) : Returned (x m).1 := by
  rw [run_bind] at h
  generalize x m = out at h ⊢
  rcases out with ⟨stop | a, m₁⟩
  · obtain ⟨e, rfl⟩ := h.error_of
    trivial
  · trivial

/-- A sequence that comes to a value went through its first part. -/
theorem run_bind_eq_ok {x : Run α} {f : α → Run β} {m m' : Machine} {b : β}
    (h : (x >>= f) m = (.ok b, m')) : ∃ a m₁, x m = (.ok a, m₁) ∧ f a m₁ = (.ok b, m') := by
  rw [run_bind] at h
  rcases hx : x m with ⟨a | stop, m₁⟩
  · rw [hx] at h; cases h
  · rw [hx] at h; exact ⟨_, _, rfl, h⟩

/-- The same for a sequence that carries a state besides the machine. -/
theorem runState_bind_ok {σ : Type} {x : StateT σ Run α} {f : α → StateT σ Run β} {st st' : σ}
    {m m' : Machine} {a : α} (h : x st m = (.ok (a, st'), m')) : (x >>= f) st m = f a st' m' := by
  show (x st >>= fun r => f r.1 r.2) m = _
  rw [run_bind_ok h]

@[simp] theorem run_context (m : Machine) : context m = (.ok m.context, m) := rfl

@[simp] theorem run_change (f : Context → Context) (m : Machine) :
    change f m = (.ok (), { m with context := f m.context }) := rfl

@[simp] theorem run_store (x : StateM Store α) (m : Machine) :
    store x m = (.ok (x m.store).1, { m with store := (x m.store).2 }) := rfl

@[simp] theorem run_enterScope (m : Machine) :
    enterScope m = (.ok m.context.env.hiddenCount,
      { m with context := { m.context with env := m.context.env.enterScope.2 } }) := rfl

@[simp] theorem run_bindAll (bindings : Bindings) (m : Machine) :
    bindAll bindings m = (.ok (),
      { m with context := { m.context with env := m.context.env.setAll bindings } }) := rfl

theorem run_ofExcept (r : Except EvalError α) (m : Machine) :
    ofExcept r m = match r with
      | .ok a => (.ok a, m)
      | .error e => (.error (.error e), m) := by
  cases r <;> rfl

theorem run_attempt (x : Run α) (m : Machine) :
    attempt x m = match x m with
      | (.ok a, m') => (.ok (.ok a), m')
      | (.error (.error e), m') => (.ok (.error e), m')
      | (.error stop, m') => (.error stop, m') := rfl

theorem run_attempt_ok {x : Run α} {m m' : Machine} {a : α} (h : x m = (.ok a, m')) :
    attempt x m = (.ok (.ok a), m') := by rw [run_attempt, h]

theorem run_attempt_error {x : Run α} {m m' : Machine} {e : EvalError}
    (h : x m = (.error (.error e), m')) : attempt x m = (.ok (.error e), m') := by
  rw [run_attempt, h]

theorem attempt_eq_ok {x : Run α} {m m' : Machine} {a : α}
    (h : attempt x m = (.ok (.ok a), m')) : x m = (.ok a, m') := by
  rw [run_attempt] at h
  rcases hx : x m with ⟨(_ | _ | _ | _) | b, m₁⟩ <;> rw [hx] at h <;> cases h
  rfl

/-- An attempt comes back only if what it attempts does. -/
theorem Returned.of_attempt {x : Run α} {m : Machine} (h : Returned (attempt x m).1) :
    Returned (x m).1 := by
  rw [run_attempt] at h
  generalize x m = out at h ⊢
  rcases out with ⟨(e | _ | _ | _) | a, m'⟩ <;> trivial

/-- What comes back after an attempt went on with the error or the value that it gave. -/
theorem attempt_cases {x : Run α} {f : Except EvalError α → Run β} {m : Machine}
    (hr : Returned ((attempt x >>= f) m).1) :
    (∃ e m', x m = (.error (.error e), m') ∧ (attempt x >>= f) m = f (.error e) m') ∨
      ∃ a m', x m = (.ok a, m') ∧ (attempt x >>= f) m = f (.ok a) m' := by
  rw [run_bind, run_attempt] at hr ⊢
  generalize x m = out at hr ⊢
  rcases out with ⟨(e | _ | _ | _) | a, m'⟩
  · exact .inl ⟨e, m', rfl, rfl⟩
  · exact absurd hr id
  · exact absurd hr id
  · exact absurd hr id
  · exact .inr ⟨a, m', rfl, rfl⟩

@[simp] theorem run_map (f : α → β) (x : Run α) (m : Machine) :
    (f <$> x) m = match x m with
      | (.ok a, m') => (.ok (f a), m')
      | (.error stop, m') => (.error stop, m') := by
  rw [map_eq_pure_bind, run_bind]
  rcases x m with ⟨a | stop, m'⟩ <;> rfl

theorem run_inScope (x : Run α) (m : Machine) :
    inScope x m = (do
      let result ← attempt x
      leaveScope m.context.env.hiddenCount
      ofExcept result) (enterScope m).2 := rfl

theorem run_inScope_ok {x : Run α} {m m' : Machine} {a : α}
    (h : x (enterScope m).2 = (.ok a, m')) :
    inScope x m = (.ok a, (leaveScope m.context.env.hiddenCount m').2) := by
  rw [run_inScope, run_bind_ok (run_attempt_ok h)]
  rfl

theorem run_inScope_eq_ok {x : Run α} {m m' : Machine} {a : α} (h : inScope x m = (.ok a, m')) :
    ∃ m₁, x (enterScope m).2 = (.ok a, m₁) ∧
      m' = (leaveScope m.context.env.hiddenCount m₁).2 := by
  rw [run_inScope] at h
  obtain ⟨result, m₁, hattempt, h⟩ := run_bind_eq_ok h
  cases result with
  | error e => cases h
  | ok b =>
    cases h
    exact ⟨m₁, attempt_eq_ok hattempt, rfl⟩

@[simp] theorem run_height (m : Machine) : height m = (.ok m.context.stack.length, m) := rfl

@[simp] theorem run_setOperands (stack : List Value) (m : Machine) :
    setOperands stack m = (.ok (), { m with context := { m.context with stack } }) := rfl

@[simp] theorem run_operands (m : Machine) : operands m = (.ok m.context.stack, m) := rfl

/-- A call begins one level deeper, unless calls are nested as deep as the settings allow. -/
theorem beginCall_cases (m : Machine) :
    (m.context.settings.maxCallDepth ≤ m.context.callDepth ∧
      beginCall m = (.error (.error
        (.stackOverflow m.context.callDepth m.context.settings.maxCallDepth)), m)) ∨
    (m.context.callDepth < m.context.settings.maxCallDepth ∧ beginCall m = (.ok (),
      { m with context := { m.context with callDepth := m.context.callDepth + 1 } })) := by
  unfold beginCall
  rw [run_bind_ok (run_context m)]
  by_cases hdeep : m.context.callDepth ≥ m.context.settings.maxCallDepth
  · simp only [if_pos hdeep]
    exact .inl ⟨hdeep, rfl⟩
  · simp only [if_neg hdeep]
    exact .inr ⟨Nat.lt_of_not_le hdeep, rfl⟩

/-! ## Operations on the operands -/

/-- The property holds of reading and replacing the operands and of errors, and of what is put
together from evaluations that have it. -/
structure OperandsClosed (P : {α : Type} → Run α → Prop) : Prop where
  pure : ∀ {α : Type} (a : α), P (pure a : Run α)
  fail : ∀ {α : Type} (e : EvalError), P (fail e : Run α)
  bind : ∀ {α β : Type} {x : Run α} {f : α → Run β}, P x → (∀ a, P (f a)) → P (x >>= f)
  operands : P operands
  setOperands : ∀ stack, P (setOperands stack)

namespace OperandsClosed

variable {P : {α : Type} → Run α → Prop} {base pos : Nat}

theorem ofExcept (hP : OperandsClosed P) (r : Except EvalError α) : P (ofExcept r) := by
  cases r with
  | ok a => exact hP.pure a
  | error e => exact hP.fail e

theorem pop (hP : OperandsClosed P) : P (pop base pos) := by
  refine hP.bind hP.operands fun stack => ?_
  cases stack with
  | nil => exact hP.fail _
  | cons v rest =>
    by_cases h : base ≤ rest.length
    · simp only [if_pos h]
      exact hP.bind (hP.setOperands rest) fun _ => hP.pure v
    · simp only [if_neg h]
      exact hP.fail _

theorem top (hP : OperandsClosed P) : P (top base pos) := by
  refine hP.bind hP.operands fun stack => ?_
  cases stack with
  | nil => exact hP.fail _
  | cons v rest =>
    by_cases h : base ≤ rest.length
    · simp only [if_pos h]
      exact hP.pure v
    · simp only [if_neg h]
      exact hP.fail _

theorem popMany (hP : OperandsClosed P) (n : Nat) : P (popMany base pos n) := by
  refine hP.bind hP.operands fun stack => ?_
  by_cases h : stack.length < base + n
  · simp only [if_pos h]
    exact hP.fail _
  · simp only [if_neg h]
    exact hP.bind (hP.setOperands _) fun _ => hP.pure _

theorem truncate (hP : OperandsClosed P) (base : Nat) : P (truncate base) := by
  have heq : Run.truncate base = (do
      let stack ← Run.operands
      Run.setOperands (stack.drop (stack.length - base))) := rfl
  rw [heq]
  exact hP.bind hP.operands fun _ => hP.setOperands _

theorem frameResult (hP : OperandsClosed P) : P (frameResult base pos) :=
  hP.bind hP.pop fun v => hP.bind (hP.truncate base) fun _ => hP.pure v

theorem push (hP : OperandsClosed P) (v : Value) : P (push v) := by
  have heq : Run.push v = (do Run.setOperands (v :: (← Run.operands))) := rfl
  rw [heq]
  exact hP.bind hP.operands fun _ => hP.setOperands _

end OperandsClosed

/-- What an instruction does on the store to make a value of its operands. -/
inductive Makes : StateM Store Value → Prop
  | object (values : List Value) : Makes (makeObject values)
  | closure (function : Value) (bindings : Bindings) : Makes (partialApply function bindings)
  | unary (op : UnaryOp) (a : Value) : Makes (Operator.unary op a)
  | binary (op : BinaryOp) (a b : Value) : Makes (Operator.binary op a b)

/-- Whether an instruction works only on the operands, but for what it makes of them. -/
def worksOnOperands : Opcode → Bool
  | .jump | .jumpIfNot | .jumpScAnd | .jumpScOr | .loop | .loopWithKey | .getVar | .setVar | .call
  | .tailCall => false
  | _ => true

/-- One rule for all instructions that work only on the operands. -/
theorem OperandsClosed.stepInstr {P : {α : Type} → Run α → Prop} (hP : OperandsClosed P)
    (hmakes : ∀ {x}, Makes x → P (store x)) (call : Caller) (s : Script Value) (base pos : Nat)
    {i : Instruction} (hi : worksOnOperands i.opcode = true) : P (stepInstr call s base pos i) := by
  rcases i with ⟨opcode, n⟩
  have hpush : ∀ {p : Nat} (v : Value), P (do Run.push v; return Next.goto p) := fun v =>
    hP.bind (hP.push v) fun _ => hP.pure _
  have hmade : ∀ {p : Nat} {x : StateM Store Value}, Makes x →
      P (do Run.push (← store x); return Next.goto p) := fun hx => hP.bind (hmakes hx) hpush
  cases opcode with
  | nop => exact hP.pure _
  | pushConst => exact hP.bind (hP.ofExcept _) hpush
  | pop => exact hP.bind hP.pop fun _ => hP.pure _
  | dup =>
    refine hP.bind hP.operands fun stack => ?_
    by_cases h : n ≥ stack.length - base
    · simp only [if_pos h]
      exact hP.fail _
    · simp only [if_neg h]
      exact hpush _
  | ret => exact hP.bind hP.frameResult fun _ => hP.pure _
  | memberC => exact hP.bind (hP.ofExcept _) fun key => hP.bind hP.pop fun object => hpush _
  | makeObject => exact hP.bind (hP.popMany _) fun values => hmade (.object values)
  | closure =>
    exact hP.bind (hP.ofExcept _) fun params => hP.bind (hP.popMany n) fun args =>
      hP.bind hP.pop fun function => hmade (.closure function _)
  | unary => exact hP.bind (hP.ofExcept _) fun op => hP.bind hP.pop fun a => hmade (.unary op a)
  | binary =>
    exact hP.bind (hP.ofExcept _) fun op => hP.bind hP.pop fun b => hP.bind hP.pop fun a =>
      hmade (.binary op a b)
  | ternary =>
    refine hP.bind (hP.ofExcept _) fun op => hP.bind (hP.popMany 3) fun args => ?_
    split
    · exact hpush _
    · exact hP.pure _
  | quaternary =>
    refine hP.bind (hP.ofExcept _) fun op => hP.bind (hP.popMany 4) fun args => ?_
    split
    · exact hpush _
    · exact hP.pure _
  | jump | jumpIfNot | jumpScAnd | jumpScOr | loop | loopWithKey | getVar | setVar | call
  | tailCall => cases hi

/-- A jump leads out of the script, goes back, where an interruption is heeded, or goes ahead. -/
theorem takeJump_cases {P : Run Next → Prop} {s : Script Value} {pos target : Nat}
    (out : ∀ e, P (fail e)) (back : target ≤ pos → P (do
      heedInterrupt
      return .goto target))
    (ahead : pos < target → P (pure (.goto target))) : P (takeJump s pos target) := by
  unfold takeJump
  by_cases hout : target > s.length
  · simp only [if_pos hout]
    exact out _
  · simp only [if_neg hout]
    by_cases hback : target ≤ pos
    · simp only [if_pos hback]
      exact back hback
    · simp only [if_neg hback]
      exact ahead (Nat.lt_of_not_le hback)

/-! ## Constants and operators -/

theorem constantAt_eq {s : Script Value} {n : Nat} {v : Value} (h : s.constants[n]? = some v)
    (pos : Nat) : s.constantAt pos n = .ok v := by
  show Value.orFail s.constants[n]? _ = _
  rw [h]
  rfl

theorem ofExcept_operatorAt [Family α] {op : α}
    (h : Family.find? (Family.code op) = some op) (pos : Nat) (m : Machine) :
    ofExcept (operatorAt α pos (Family.code op)) m = (.ok op, m) := by
  unfold operatorAt Family.ofCode
  rw [h]
  rfl

/-! ## Scripts on a frame of their own -/

/-- Close the scope that is left and give the result of a chain of scripts. -/
def finish (base : Nat) (result : Except EvalError Value) (scope : Option Nat) : Run Value := do
  if let some mark := scope then leaveScope mark
  match result with
  | .ok v => return v
  | .error e =>
    truncate base
    fail e

theorem execute_eq (call : Caller) (budget : Nat) (s : Script Value) (scope : Option Nat) :
    execute call budget s scope = (do
      let base ← height
      let ended ← runChain call budget base budget s scope
      finish base ended.1 ended.2) := rfl

end Run

end ReactiveScript
