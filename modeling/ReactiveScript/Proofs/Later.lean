import ReactiveScript.Proofs.Run

/-
  What evaluations leave of the store.

  Evaluating may log, take identities, draw from iterators and add names, but a name keeps its
  number, the lists of dependents stay as they are (`Store.Later`) and nothing is reported
  (`Machine.Evaluated`). This holds of the basic operations, so of all operators (`Store.Closed`), of
  every instruction and of every host function, and so of whole evaluations (`forward_eval`), whether
  they come back or not.
-/

namespace ReactiveScript

/-! ## Names -/

namespace Names

variable {names : Names} {name other : String} {var : Variable}

theorem find?_eq (names : Names) (name : String) :
    names.find? name = (names.entries.toList.findIdx? (· == name)).map Variable.mk := by
  show (Array.idxOf? names.entries name).map _ = (List.idxOf? name names.entries.toList).map _
  rw [← List.idxOf?_toArray]

theorem find?_push (names : Names) (name other : String) :
    (names.push name).2.find? other =
      (names.find? other).or (if name = other then some ⟨names.entries.size⟩ else none) := by
  have hpush : (names.push name).2.entries.toList = names.entries.toList ++ [name] :=
    Array.toList_push
  rw [find?_eq, find?_eq, hpush, List.findIdx?_append]
  cases names.entries.toList.findIdx? (· == other) with
  | some n => rfl
  | none =>
    by_cases h : name = other
    · simp [h, List.findIdx?_cons]
    · simp [h, List.findIdx?_cons]

/-- A name has its number from when it came in. -/
theorem find?_intern (names : Names) (name : String) :
    (names.intern name).2.find? name = some (names.intern name).1 := by
  unfold intern
  cases h : names.find? name with
  | some var => exact h
  | none =>
    show (names.push name).2.find? name = _
    rw [find?_push, h, if_pos rfl]
    rfl

/-- A name keeps its number when another comes in. -/
theorem find?_intern_of_find? (h : names.find? other = some var) (name : String) :
    (names.intern name).2.find? other = some var := by
  unfold intern
  cases names.find? name with
  | some _ => exact h
  | none =>
    show (names.push name).2.find? other = _
    rw [find?_push, h]
    rfl

theorem find?_intern_of_ne (h : name ≠ other) :
    (names.intern name).2.find? other = names.find? other := by
  unfold intern
  cases names.find? name with
  | some _ => rfl
  | none =>
    show (names.push name).2.find? other = _
    rw [find?_push, if_neg h, Option.or_none]

theorem intern_of_find? (h : names.find? name = some var) : names.intern name = (var, names) := by
  unfold intern
  rw [h]

/-- A name comes in once. -/
theorem intern_intern (names : Names) (name : String) :
    (names.intern name).2.intern name = names.intern name :=
  intern_of_find? (find?_intern names name)

/-- Names of the same number are the same. -/
theorem eq_of_find? (h : names.find? name = some var) (h' : names.find? other = some var) :
    name = other := by
  rw [find?_eq] at h h'
  obtain ⟨n, hn, rfl⟩ := Option.map_eq_some_iff.1 h
  obtain ⟨_, hk, hnk⟩ := Option.map_eq_some_iff.1 h'
  cases hnk
  obtain ⟨_, hname, -⟩ := List.findIdx?_eq_some_iff_getElem.1 hn
  obtain ⟨_, hother, -⟩ := List.findIdx?_eq_some_iff_getElem.1 hk
  exact (beq_iff_eq.1 hname).symm.trans (beq_iff_eq.1 hother)

end Names

/-! ## Stores -/

namespace Store

variable {α β : Type} {st st' st'' : Store}

/-- Names kept their numbers, and the lists of dependents are the same. -/
structure Later (st st' : Store) : Prop where
  names : ∀ {name var}, st.names.find? name = some var → st'.names.find? name = some var
  dependents : st'.dependents = st.dependents

theorem Later.refl (st : Store) : st.Later st := ⟨id, rfl⟩

theorem Later.trans (h : st.Later st') (h' : st'.Later st'') : st.Later st'' :=
  ⟨fun hn => h'.names (h.names hn), h'.dependents.trans h.dependents⟩

theorem later_of_eq (hn : st'.names = st.names) (hd : st'.dependents = st.dependents) :
    st.Later st' :=
  ⟨fun h => hn ▸ h, hd⟩

/-- A later store, with the same reports. -/
structure Evaluated (st st' : Store) : Prop extends Later st st' where
  reports : st'.reports = st.reports

theorem Evaluated.refl (st : Store) : st.Evaluated st := ⟨.refl st, rfl⟩

theorem Evaluated.trans (h : st.Evaluated st') (h' : st'.Evaluated st'') : st.Evaluated st'' :=
  ⟨h.toLater.trans h'.toLater, h'.reports.trans h.reports⟩

theorem evaluated_of_eq (hn : st'.names = st.names) (hd : st'.dependents = st.dependents)
    (hr : st'.reports = st.reports) : st.Evaluated st' :=
  ⟨later_of_eq hn hd, hr⟩

/-- Doing this to a store gives one that `R` relates to it. -/
def Respects (R : Store → Store → Prop) (x : StateM Store α) : Prop := ∀ st, R st (x st).2

/-- A property of what is done to a store that plain values, sequences and the basic operations of
terms have. -/
structure Closed (P : ∀ {α : Type}, StateM Store α → Prop) : Prop where
  pure : ∀ {α : Type} (a : α), P (pure a : StateM Store α)
  bind : ∀ {α β : Type} {x : StateM Store α} {f : α → StateM Store β}, P x → (∀ a, P (f a)) →
    P (x >>= f)
  nameOf : ∀ var, P (nameOf var)
  fresh : P fresh
  newIterator : ∀ it, P (newIterator it)

namespace Closed

variable {P : ∀ {α : Type}, StateM Store α → Prop}

theorem newCollection (hP : Closed P) (items : Collection Value) : P (newCollection items) :=
  hP.bind hP.fresh fun _ => hP.pure _

theorem toIterator (hP : Closed P) (v : Value) : P v.toIterator := by
  unfold Value.toIterator
  split
  · exact hP.pure _
  · exact hP.pure _
  · exact hP.newIterator _
  · exact hP.newIterator _
  · split
    · exact hP.newIterator _
    · exact hP.pure _
  · exact hP.pure _

theorem unary (hP : Closed P) (op : UnaryOp) (a : Value) : P (Operator.unary op a) := by
  unfold Operator.unary
  split
  · exact hP.pure _
  · split
    · exact hP.toIterator a
    · exact hP.pure _

theorem add (hP : Closed P) (a b : Value) : P (Operator.add a b) := by
  unfold Operator.add
  split
  · exact hP.pure _
  · exact hP.pure _
  · split
    · exact hP.bind hP.fresh fun _ => hP.pure _
    · split
      · exact hP.newCollection _
      · exact hP.pure _
      · exact hP.pure _
      · exact hP.pure _

theorem range (hP : Closed P) (a b : Value) : P (Operator.range a b) := by
  unfold Operator.range
  split
  · exact hP.newIterator _
  · exact hP.pure _
  · exact hP.pure _

theorem binary (hP : Closed P) (op : BinaryOp) (a b : Value) : P (Operator.binary op a b) := by
  unfold Operator.binary Operator.binarySound
  split
  · exact hP.pure _
  · split
    · exact hP.pure _
    · exact hP.pure _
    · split
      · exact hP.add a b
      · exact hP.range a b
      · exact hP.pure _

theorem makeObject (hP : Closed P) (values : List Value) : P (makeObject values) := by
  unfold ReactiveScript.makeObject
  split
  · exact hP.newCollection _
  · exact hP.pure _

theorem partialApply (hP : Closed P) (function : Value) (bindings : Bindings) :
    P (partialApply function bindings) := by
  unfold ReactiveScript.partialApply
  split
  · exact hP.pure _
  · exact hP.bind hP.fresh fun _ => hP.pure _
  · exact hP.bind hP.fresh fun _ => hP.pure _

end Closed

/-- A relation between stores that everything respects which instructions do to a store. -/
structure Lasting (R : Store → Store → Prop) : Prop where
  refl : ∀ st, R st st
  trans : ∀ {st st' st''}, R st st' → R st' st'' → R st st''
  intern : ∀ name, Respects R (intern name)
  fresh : Respects R fresh
  newIterator : ∀ it, Respects R (newIterator it)
  drawEntry : ∀ handle, Respects R (drawEntry handle)
  write : ∀ entry, Respects R (write entry)

namespace Lasting

variable {R : Store → Store → Prop}

theorem closed (hR : Lasting R) : Closed (Respects R) where
  pure _ st := hR.refl st
  bind hx hf st := hR.trans (hx st) (hf _ _)
  nameOf _ st := hR.refl st
  fresh := hR.fresh
  newIterator := hR.newIterator

theorem isInterrupted (hR : Lasting R) (handle : Nat) : Respects R (isInterrupted handle) :=
  fun st => hR.refl st

end Lasting

/-- What is done to a store gives a later one and reports nothing. -/
def Forward (x : StateM Store α) : Prop := ∀ st : Store, st.Evaluated (x st).2

theorem forward_intern (name : String) : Forward (intern name) :=
  fun _ => ⟨⟨fun h => Names.find?_intern_of_find? h name, rfl⟩, rfl⟩

theorem lasting_evaluated : Lasting Evaluated where
  refl := .refl
  trans h h' := h.trans h'
  intern := forward_intern
  fresh _ := evaluated_of_eq rfl rfl rfl
  newIterator _ _ := evaluated_of_eq rfl rfl rfl
  drawEntry _ _ := evaluated_of_eq rfl rfl rfl
  write _ _ := evaluated_of_eq rfl rfl rfl

theorem forward_setInterrupt (handle : Nat) (on : Bool) : Forward (setInterrupt handle on) :=
  fun _ => evaluated_of_eq rfl rfl rfl

end Store

/-- A later store, and the same reports in the same place, if they are kept. -/
structure Machine.Evaluated (m m' : Machine) : Prop where
  store : m.store.Evaluated m'.store
  keepsReports : m'.context.keepsReports = m.context.keepsReports

theorem Machine.Evaluated.refl (m : Machine) : m.Evaluated m := ⟨.refl m.store, rfl⟩

theorem Machine.Evaluated.trans {a b c : Machine} (h : a.Evaluated b) (h' : b.Evaluated c) :
    a.Evaluated c :=
  ⟨h.store.trans h'.store, h'.keepsReports.trans h.keepsReports⟩

/-! ## Evaluations -/

namespace Run

open Store (lasting_evaluated)

variable {α β : Type} {call : Caller} {s : Script Value} {base pos : Nat}

/-- An evaluation leaves a later store and reports nothing, also when it stops. -/
def Forward (x : Run α) : Prop := ∀ m : Machine, m.Evaluated (x m).2

theorem Forward.bind {x : Run α} {f : α → Run β} (hx : Forward x) (hf : ∀ a, Forward (f a)) :
    Forward (x >>= f) := by
  intro m
  have hx := hx m
  rw [run_bind]
  generalize x m = out at hx ⊢
  rcases out with ⟨stop | a, m'⟩
  · exact hx
  · exact hx.trans (hf a m')

theorem Forward.attempt {x : Run α} (hx : Forward x) : Forward (attempt x) := by
  intro m
  have hx := hx m
  rw [run_attempt]
  generalize x m = out at hx ⊢
  rcases out with ⟨(e | _ | _ | _) | a, m'⟩ <;> exact hx

theorem Forward.map {x : Run α} (hx : Forward x) (f : α → β) : Forward (f <$> x) := by
  rw [map_eq_pure_bind]
  exact hx.bind fun _ m => .refl m

/-- What does not touch the store, nor where reports are kept. -/
theorem forward_of_store {x : Run α} (h : ∀ m, (x m).2.store = m.store ∧
    (x m).2.context.keepsReports = m.context.keepsReports) : Forward x :=
  fun m => ⟨(h m).1 ▸ .refl m.store, (h m).2⟩

theorem forward_return (a : α) : Forward (pure a : Run α) := forward_of_store fun _ => ⟨rfl, rfl⟩

theorem forward_fail (e : EvalError) : Forward (fail e : Run α) := forward_of_store fun _ => ⟨rfl, rfl⟩

theorem forward_throw (stop : Stop) : Forward (throw stop : Run α) := forward_of_store fun _ => ⟨rfl, rfl⟩

theorem forward_context : Forward context := forward_of_store fun _ => ⟨rfl, rfl⟩

theorem forward_change {f : Context → Context}
    (h : ∀ c, (f c).keepsReports = c.keepsReports) : Forward (change f) :=
  forward_of_store fun m => ⟨rfl, h m.context⟩

theorem forward_enterScope : Forward enterScope := forward_of_store fun _ => ⟨rfl, rfl⟩

theorem forward_store {x : StateM Store α} (h : Store.Forward x) : Forward (store x) :=
  fun m => ⟨h m.store, rfl⟩

theorem forward_operands : Forward operands := forward_of_store fun _ => ⟨rfl, rfl⟩

theorem forward_setOperands (stack : List Value) : Forward (setOperands stack) :=
  forward_change fun _ => rfl

theorem operandsClosed_forward : OperandsClosed Forward :=
  ⟨forward_return, forward_fail, .bind, forward_operands, forward_setOperands⟩

theorem forward_ofExcept (r : Except EvalError α) : Forward (ofExcept r) :=
  operandsClosed_forward.ofExcept r

theorem forward_heedInterrupt : Forward heedInterrupt := by
  refine forward_context.bind fun c => ?_
  refine (forward_store (lasting_evaluated.isInterrupted _)).bind fun b => ?_
  cases b
  · exact forward_return ()
  · exact forward_fail _

theorem forward_readVariable (var : Variable) : Forward (readVariable var) := by
  refine forward_context.bind fun c => ?_
  cases c.env.get? var with
  | some v => exact forward_return v
  | none => exact (forward_store (lasting_evaluated.closed.nameOf var)).bind fun _ => forward_fail _

theorem forward_height : Forward height := forward_of_store fun _ => ⟨rfl, rfl⟩

theorem forward_push (v : Value) : Forward (push v) := forward_change fun _ => rfl

theorem forward_truncate (base : Nat) : Forward (truncate base) := operandsClosed_forward.truncate base

theorem forward_noteFrame (frame : String) : Forward (noteFrame frame) :=
  forward_change fun _ => rfl

theorem forward_forgetFrames : Forward forgetFrames := forward_change fun _ => rfl

theorem forward_bindAll (bindings : Bindings) : Forward (bindAll bindings) :=
  forward_change fun _ => rfl

theorem forward_leaveScope (mark : Nat) : Forward (leaveScope mark) := forward_change fun _ => rfl

theorem forward_endCall : Forward endCall := forward_change fun _ => rfl

theorem forward_pop : Forward (pop base pos) := operandsClosed_forward.pop

theorem forward_top : Forward (top base pos) := operandsClosed_forward.top

theorem forward_popMany (n : Nat) : Forward (popMany base pos n) := operandsClosed_forward.popMany n

theorem forward_frameResult : Forward (frameResult base pos) := operandsClosed_forward.frameResult

theorem forward_takeJump (target : Nat) : Forward (takeJump s pos target) :=
  takeJump_cases forward_fail (fun _ => forward_heedInterrupt.bind fun _ => forward_return _)
    fun _ => forward_return _

theorem forward_stepLoop (target : Nat) (withKey : Bool) :
    Forward (stepLoop s base pos target withKey) := by
  unfold stepLoop
  refine forward_heedInterrupt.bind fun _ => forward_operands.bind fun stack => ?_
  split
  · split
    · exact forward_fail _
    · split
      · refine (forward_store (lasting_evaluated.drawEntry _)).bind fun drawn => ?_
        split
        · split
          · refine (forward_push _).bind fun _ => ?_
            exact (forward_push _).bind fun _ => forward_return _
          · exact (forward_push _).bind fun _ => forward_return _
        · exact (forward_setOperands _).bind fun _ => forward_takeJump target
      · exact forward_fail _
      · exact forward_fail _
  · exact forward_fail _

theorem forward_stepPlainCall (hcall : ∀ f args, Forward (call f args)) (next : Nat)
    (function : Value) (bindings : Bindings) :
    Forward (stepPlainCall call s pos next function bindings) := by
  refine (hcall function bindings).attempt.bind fun r => ?_
  cases r with
  | ok v => exact (forward_push v).bind fun _ => forward_return _
  | error e =>
    refine (forward_store fun st => .refl st).bind fun frame => ?_
    exact (forward_noteFrame _).bind fun _ => forward_fail e

theorem forward_stepCall (hcall : ∀ f args, Forward (call f args)) (n : Nat) (op : Opcode) :
    Forward (stepCall call s base pos n op) := by
  unfold stepCall
  refine (forward_ofExcept _).bind fun params => (forward_popMany n).bind fun args => ?_
  refine forward_pop.bind fun function => ?_
  by_cases h : op = .closure
  · simp only [if_pos h]
    refine (forward_store (lasting_evaluated.closed.partialApply _ _)).bind fun v => ?_
    exact (forward_push v).bind fun _ => forward_return _
  · simp only [if_neg h]
    refine forward_height.bind fun height => ?_
    split
    · exact forward_return _
    · exact forward_stepPlainCall hcall _ _ _

/-- What instructions make of their operands only adds to the store. -/
theorem forward_makes {x : StateM Store Value} (h : Makes x) : Forward (store x) := by
  refine forward_store ?_
  cases h with
  | object values => exact lasting_evaluated.closed.makeObject values
  | closure function bindings => exact lasting_evaluated.closed.partialApply function bindings
  | unary op a => exact lasting_evaluated.closed.unary op a
  | binary op a b => exact lasting_evaluated.closed.binary op a b

theorem forward_stepInstr (hcall : ∀ f args, Forward (call f args)) (i : Instruction) :
    Forward (stepInstr call s base pos i) := by
  have hplain : worksOnOperands i.opcode = true → Forward (stepInstr call s base pos i) :=
    operandsClosed_forward.stepInstr forward_makes call s base pos
  rcases i with ⟨opcode, n⟩
  cases opcode with
  | jump => exact forward_takeJump n
  | jumpIfNot =>
    refine forward_pop.bind fun condition => (forward_ofExcept _).bind fun b => ?_
    cases b
    · exact forward_takeJump n
    · exact forward_return _
  | jumpScAnd =>
    refine forward_top.bind fun v => (forward_ofExcept _).bind fun b => ?_
    cases b
    · exact forward_takeJump n
    · exact forward_pop.bind fun _ => forward_return _
  | jumpScOr =>
    refine forward_top.bind fun v => (forward_ofExcept _).bind fun b => ?_
    cases b
    · exact forward_pop.bind fun _ => forward_return _
    · exact forward_takeJump n
  | loop => exact forward_stepLoop n false
  | loopWithKey => exact forward_stepLoop n true
  | getVar =>
    exact (forward_readVariable _).bind fun v => (forward_push v).bind fun _ => forward_return _
  | setVar =>
    exact forward_top.bind fun v => (forward_bindAll [(_, v)]).bind fun _ => forward_return _
  | call => exact forward_stepCall hcall n .call
  | tailCall => exact forward_stepCall hcall n .tailCall
  | _ => exact hplain rfl

theorem forward_step (hcall : ∀ f args, Forward (call f args)) :
    Forward (step call s base pos) := by
  unfold step
  cases s.code[pos]? with
  | some i => exact forward_stepInstr hcall i
  | none => exact forward_frameResult.bind fun _ => forward_return _

theorem forward_runFrom (hcall : ∀ f args, Forward (call f args)) (budget pos : Nat) :
    Forward (runFrom call s base budget pos) := by
  induction budget generalizing pos with
  | zero => exact forward_throw _
  | succ budget ih =>
    refine (forward_step hcall).bind fun next => ?_
    cases next with
    | goto pos => exact ih pos
    | leave exit => exact forward_return exit

theorem forward_runChain (hcall : ∀ f args, Forward (call f args)) (steps budget : Nat)
    (s : Script Value) (scope : Option Nat) : Forward (runChain call steps base budget s scope) := by
  induction budget generalizing s scope with
  | zero => exact forward_throw _
  | succ budget ih =>
    unfold runChain
    refine (forward_runFrom hcall steps 0).attempt.bind fun r => ?_
    rcases r with e | v | ⟨target, bindings⟩
    · exact forward_return _
    · exact forward_return _
    · refine forward_heedInterrupt.attempt.bind fun r => ?_
      cases r with
      | error e => exact forward_return _
      | ok u =>
        have hswitch : Forward (switchScope scope bindings) := by
          cases scope <;> exact forward_of_store fun _ => ⟨rfl, rfl⟩
        exact hswitch.bind fun mark => ih target (some mark)

theorem forward_finish (base : Nat) (result : Except EvalError Value) (scope : Option Nat) :
    Forward (finish base result scope) := by
  have hend : Forward (finish base result none) := by
    cases result with
    | ok v => exact forward_return v
    | error e => exact (forward_truncate base).bind fun _ => forward_fail e
  cases scope with
  | none => exact hend
  | some mark => exact (forward_leaveScope mark).bind fun _ => hend

theorem forward_execute (hcall : ∀ f args, Forward (call f args)) (budget : Nat)
    (s : Script Value) (scope : Option Nat) : Forward (execute call budget s scope) := by
  rw [execute_eq]
  refine forward_height.bind fun base => (forward_runChain hcall _ _ _ _).bind fun ended => ?_
  exact forward_finish base ended.1 ended.2

theorem forward_evalWith (hcall : ∀ f args, Forward (call f args)) (budget : Nat)
    (s : Script Value) (ownScope : Bool) : Forward (evalWith call budget s ownScope) := by
  have hrun : ∀ scope, Forward (do ofExcept (← execute call budget s scope).force) := fun scope =>
    (forward_execute hcall budget s scope).bind fun v => forward_ofExcept _
  have hscoped : Forward (do
      let scope ← if ownScope then some <$> enterScope else pure none
      ofExcept (← execute call budget s scope).force) := by
    cases ownScope
    · exact (forward_return none).bind hrun
    · exact (forward_enterScope.map some).bind hrun
  refine forward_context.bind fun c => ?_
  by_cases h : c.callDepth = 0
  · simp only [if_pos h]
    exact forward_forgetFrames.bind fun _ => hscoped
  · simp only [if_neg h]
    exact hscoped

/-! ## Calls -/

theorem forward_inScope {x : Run α} (hx : Forward x) : Forward (inScope x) := by
  refine forward_enterScope.bind fun mark => hx.attempt.bind fun result => ?_
  exact (forward_leaveScope mark).bind fun _ => forward_ofExcept result

variable {evaluator : Script Value → Bool → Run Value}

theorem forward_perform (hcall : ∀ f args, Forward (call f args))
    (heval : ∀ s ownScope, Forward (evaluator s ownScope)) (action : HostAction Value) :
    Forward (perform call evaluator action) := by
  induction action with
  | give v => exact forward_return _
  | log text => exact (forward_store (lasting_evaluated.write _)).bind fun _ => forward_return _
  | logVariable var =>
    refine Forward.bind ?_ fun _ => forward_return _
    refine (forward_store (lasting_evaluated.closed.nameOf var)).bind fun name => ?_
    exact forward_context.bind fun _ => forward_store (lasting_evaluated.write _)
  | fail e => exact forward_return _
  | eval s ownScope => exact (heval s ownScope).attempt.map hostResult
  | call function args => exact (hcall function args).attempt.map hostResult
  | get var => exact (forward_readVariable var).attempt.map hostResult
  | set var v => exact (forward_bindAll [(var, v)]).bind fun _ => forward_return _
  | interrupt =>
    refine forward_context.bind fun c => ?_
    exact (forward_store (Store.forward_setInterrupt _ _)).bind fun _ => forward_return _
  | panic payload => exact forward_throw _
  | gate name =>
    refine forward_of_store fun m => ?_
    unfold perform
    split <;> exact ⟨rfl, rfl⟩
  | within contexts action ih => exact ih.bind fun _ => forward_return _

theorem forward_runHost (hcall : ∀ f args, Forward (call f args))
    (heval : ∀ s ownScope, Forward (evaluator s ownScope)) (body : HostBody Value) :
    Forward (runHost call evaluator body) := by
  cases body with
  | prelude function =>
    have hinput : Forward input := (forward_store (Store.forward_intern _)).bind forward_readVariable
    refine hinput.attempt.bind fun r => ?_
    cases r <;> exact forward_return _
  | actions steps =>
    show Forward (performAll call evaluator .nil steps)
    generalize Value.nil = last
    induction steps generalizing last with
    | nil => exact forward_return _
    | cons action rest ih =>
      refine (forward_perform hcall heval action).bind fun r => ?_
      cases r with
      | ok v => exact ih v
      | error e => exact forward_return _

theorem forward_beginCall : Forward beginCall := by
  refine forward_context.bind fun c => ?_
  by_cases h : c.callDepth ≥ c.settings.maxCallDepth
  · simp only [if_pos h]
    exact forward_fail _
  · simp only [if_neg h]
    exact forward_change fun _ => rfl

theorem forward_callScript (hcall : ∀ f args, Forward (call f args)) (budget : Nat)
    (s : Script Value) (args : Bindings) : Forward (callScript call budget s args) := by
  refine forward_beginCall.bind fun _ => forward_enterScope.bind fun mark => ?_
  refine (forward_bindAll args).bind fun _ => (forward_execute hcall _ _ _).attempt.bind fun r => ?_
  exact forward_endCall.bind fun _ => forward_ofExcept r

theorem forward_callHost (hcall : ∀ f args, Forward (call f args))
    (heval : ∀ s ownScope, Forward (evaluator s ownScope)) (function : HostFunction Value)
    (args : Bindings) : Forward (callHost call evaluator function args) := by
  unfold callHost
  split
  · exact forward_return _
  · refine forward_beginCall.bind fun _ => ?_
    refine (forward_inScope ((forward_bindAll args).bind fun _ =>
      forward_runHost hcall heval _)).bind fun r => forward_endCall.bind fun _ => ?_
    cases r with
    | ok v => exact forward_return v
    | error e =>
      unfold settle
      dsimp only
      split
      · exact forward_fail _
      · exact forward_return _

/-- Calls nest: the induction is on the budget, which bounds their depth. -/
theorem forward_callFor (budget : Nat) (function : Value) (args : Bindings) :
    Forward (callFor budget function args) := by
  induction budget generalizing function args with
  | zero => exact forward_throw _
  | succ budget ih =>
    show Forward (callWith (callFor budget) budget function args)
    cases function with
    | script s => exact forward_callScript ih budget s args
    | builtin _ f => exact forward_callHost ih (forward_evalWith ih budget) f args
    | closure _ inner captured => exact ih inner (captured ++ args)
    | composition _ first second =>
      refine (ih first args).bind fun intermediate => ?_
      exact (forward_store (Store.forward_intern _)).bind fun var => ih second _
    | _ => exact forward_return _

theorem forward_eval (budget : Nat) (s : Script Value) (ownScope : Bool) :
    Forward (eval budget s ownScope) :=
  forward_evalWith (forward_callFor budget) budget s ownScope

end Run

end ReactiveScript
