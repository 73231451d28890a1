import ReactiveScript.Proofs.Balance
import ReactiveScript.Proofs.Term

/-
  The code of a term computes its value.

  `Computes` says that a run which starts at a position with any operands gets to another one with
  the result of a calculation above them, or raises the error of the calculation. It holds of the code
  of a term with what the term means (`computes_term`), by induction over terms: operands are computed
  one after the other, an operator takes them from the stack, and a jump goes over the part that is
  not wanted. So evaluating the script of a term gives what the term means (`eval_built`).
-/

namespace ReactiveScript

/-! ## Calculations -/

namespace Calculation

variable {α β : Type}

theorem run_bind (x : Calculation α) (f : α → Calculation β) (st : Store) :
    (x >>= f) st = match x st with
      | (.ok a, st') => f a st'
      | (.error e, st') => (.error e, st') := by
  show (ExceptT.bind x f) st = _
  unfold ExceptT.bind ExceptT.mk
  show (match x st with | (r, st') => ExceptT.bindCont f r st') = _
  rcases x st with ⟨a | e, st'⟩ <;> rfl

end Calculation

/-- The machine with more operands and another store. -/
def Machine.above (m : Machine) (operands : List Value) (st : Store) : Machine :=
  ⟨{ m.context with stack := operands ++ m.context.stack }, st⟩

namespace Run

/-! ## Going on -/

/-- From one place a run gets to another in at most `n` steps. -/
def Goes (call : Caller) (s : Script Value) (base n pos : Nat) (m : Machine) (next : Nat)
    (m' : Machine) : Prop :=
  ∃ k ≤ n, ∀ budget, runFrom call s base (budget + k) pos m = runFrom call s base budget next m'

/-- A run raises an error in at most `n` steps. -/
def Raises (call : Caller) (s : Script Value) (base n pos : Nat) (m : Machine) (e : EvalError)
    (m' : Machine) : Prop :=
  ∃ k ≤ n, ∀ budget, runFrom call s base (budget + k) pos m = (.error (.error e), m')

/-- From one place a run gets to another with the result above the operands of `m`, or raises the
error with something above them. -/
def Produces {α : Type} (call : Caller) (s : Script Value) (base n pos : Nat) (start m : Machine)
    (next : Nat) (operands : α → List Value) : Except EvalError α × Store → Prop
  | (.ok a, st) => Goes call s base n pos start next (m.above (operands a) st)
  | (.error e, st) => ∃ f, Raises call s base n pos start e (m.above f st)

/-- From one position to another a run computes this, whatever the operands are that it starts
with. -/
def Computes {α : Type} (call : Caller) (s : Script Value) (base : Nat) (vars : Variable → Option Value)
    (n pos next : Nat) (x : Calculation α) (operands : α → List Value) : Prop :=
  ∀ m : Machine, m.context.env.get? = vars → base ≤ m.context.stack.length →
    Produces call s base n pos m m next operands (x m.store)

variable {call : Caller} {s : Script Value} {base : Nat} {vars : Variable → Option Value}
  {n n' pos mid next : Nat} {m m' m'' : Machine} {e : EvalError}

theorem Goes.trans (h : Goes call s base n pos m mid m') (h' : Goes call s base n' mid m' next m'') :
    Goes call s base (n + n') pos m next m'' := by
  obtain ⟨k, hk, h⟩ := h
  obtain ⟨k', hk', h'⟩ := h'
  refine ⟨k + k', Nat.add_le_add hk hk', fun budget => ?_⟩
  rw [Nat.add_comm k, ← Nat.add_assoc, h, h']

theorem Goes.raises (h : Goes call s base n pos m mid m') (h' : Raises call s base n' mid m' e m'') :
    Raises call s base (n + n') pos m e m'' := by
  obtain ⟨k, hk, h⟩ := h
  obtain ⟨k', hk', h'⟩ := h'
  refine ⟨k + k', Nat.add_le_add hk hk', fun budget => ?_⟩
  rw [Nat.add_comm k, ← Nat.add_assoc, h, h']

theorem Goes.mono (h : Goes call s base n pos m next m') (hn : n ≤ n') :
    Goes call s base n' pos m next m' := by
  obtain ⟨k, hk, h⟩ := h
  exact ⟨k, Nat.le_trans hk hn, h⟩

theorem Raises.mono (h : Raises call s base n pos m e m') (hn : n ≤ n') :
    Raises call s base n' pos m e m' := by
  obtain ⟨k, hk, h⟩ := h
  exact ⟨k, Nat.le_trans hk hn, h⟩

theorem goes_of_step (h : step call s base pos m = (.ok (.goto next), m')) :
    Goes call s base 1 pos m next m' := by
  refine ⟨1, Nat.le_refl 1, fun budget => ?_⟩
  show runFrom call s base (budget + 1) pos m = _
  rw [runFrom, run_bind_ok h]

theorem raises_of_step (h : step call s base pos m = (.error (.error e), m')) :
    Raises call s base 1 pos m e m' := by
  refine ⟨1, Nat.le_refl 1, fun budget => ?_⟩
  show runFrom call s base (budget + 1) pos m = _
  rw [runFrom, run_bind_error h]

/-! ## Composing -/

variable {α β : Type} {x : Calculation α} {p : α → List Value} {q : β → List Value}

theorem Goes.produces {start start' : Machine} {out : Except EvalError α × Store}
    (h : Goes call s base n pos start mid start')
    (h' : Produces call s base n' mid start' m next p out) :
    Produces call s base (n + n') pos start m next p out := by
  rcases out with ⟨e | a, st⟩
  · obtain ⟨operands, hraises⟩ := h'
    exact ⟨operands, h.raises hraises⟩
  · exact h.trans h'

theorem Produces.mono {start : Machine} {out : Except EvalError α × Store}
    (h : Produces call s base n pos start m next p out) (hn : n ≤ n') :
    Produces call s base n' pos start m next p out := by
  rcases out with ⟨e | a, st⟩
  · obtain ⟨operands, hraises⟩ := h
    exact ⟨operands, hraises.mono hn⟩
  · exact Goes.mono h hn

/-- Going on with what was computed, which is then taken from the stack; only its possible results
count. -/
theorem Computes.bindResult {f : α → Calculation β} (hx : Computes call s base vars n pos mid x p)
    (hf : ∀ a (m : Machine), m.context.env.get? = vars → base ≤ m.context.stack.length →
      (∃ st, x st = (.ok a, m.store)) →
      Produces call s base n' mid (m.above (p a) m.store) m next q (f a m.store)) :
    Computes call s base vars (n + n') pos next (x >>= f) q := by
  intro m henv hbase
  have hx := hx m henv hbase
  rw [Calculation.run_bind]
  rcases hout : x m.store with ⟨e | a, st⟩
  · rw [hout] at hx
    exact Produces.mono hx (Nat.le_add_right n n')
  · rw [hout] at hx
    exact Goes.produces hx (hf a ⟨m.context, st⟩ henv hbase ⟨m.store, hout⟩)

/-- Going on with what was computed, which is then taken from the stack. -/
theorem Computes.bind {f : α → Calculation β} (hx : Computes call s base vars n pos mid x p)
    (hf : ∀ a (m : Machine), m.context.env.get? = vars → base ≤ m.context.stack.length →
      Produces call s base n' mid (m.above (p a) m.store) m next q (f a m.store)) :
    Computes call s base vars (n + n') pos next (x >>= f) q :=
  hx.bindResult fun a m henv hbase _ => hf a m henv hbase

/-- The same operands seen as another result. -/
theorem Computes.seenAs {g : α → β} (hx : Computes call s base vars n pos next x p)
    (hq : ∀ a, q (g a) = p a) :
    Computes call s base vars n pos next (do let a ← x; return g a) q := by
  have hsame : ∀ a (m : Machine), m.context.env.get? = vars → base ≤ m.context.stack.length →
      Produces call s base 0 next (m.above (p a) m.store) m next q
        ((return g a : Calculation β) m.store) := by
    intro a m _ _
    refine ⟨0, Nat.le_refl 0, fun budget => ?_⟩
    rw [hq]
    rfl
  exact hx.bind hsame

/-- An instruction after it that only goes on. -/
theorem Computes.andThen (hx : Computes call s base vars n pos mid x p)
    (hstep : ∀ m, step call s base mid m = (.ok (.goto next), m)) :
    Computes call s base vars (n + 1) pos next x p := by
  have h : Computes call s base vars (n + 1) pos next (x >>= pure) p :=
    hx.bind fun a m _ _ => goes_of_step (hstep _)
  rw [bind_pure] at h
  exact h

/-- One thing computed above the other. -/
theorem Computes.both {y : Calculation β} (hx : Computes call s base vars n pos mid x p)
    (hy : Computes call s base vars n' mid next y q) :
    Computes call s base vars (n + n') pos next (do let a ← x; let b ← y; return (a, b))
      (fun r => q r.2 ++ p r.1) := by
  refine hx.bind fun a m henv hbase => ?_
  have hbase' : base ≤ (m.above (p a) m.store).context.stack.length := by
    show base ≤ (p a ++ m.context.stack).length
    rw [List.length_append]
    omega
  have hy := hy (m.above (p a) m.store) henv hbase'
  show Produces call s base n' mid _ m next _ ((y >>= fun b => pure (a, b)) m.store)
  rw [Calculation.run_bind]
  change Produces call s base n' mid _ _ next q (y m.store) at hy
  generalize y m.store = out at hy ⊢
  rcases out with ⟨e | b, st⟩
  · obtain ⟨operands, hraises⟩ := hy
    refine ⟨operands ++ p a, ?_⟩
    unfold Machine.above at hraises ⊢
    rw [List.append_assoc]
    exact hraises
  · show Goes call s base n' mid _ next (m.above (q b ++ p a) st)
    unfold Machine.above
    rw [List.append_assoc]
    exact hy

/-- An instruction that takes what was computed and pushes what an operation gives for it. -/
theorem Computes.operate {f : α → StateM Store Value} (hx : Computes call s base vars n pos mid x p)
    (hstep : ∀ a (m : Machine), base ≤ m.context.stack.length →
      step call s base mid (m.above (p a) m.store) =
        (.ok (.goto (mid + 1)), m.above [(f a m.store).1] (f a m.store).2)) :
    Computes call s base vars (n + 1) pos (mid + 1) (do let a ← x; f a) ([·]) :=
  hx.bind fun a m _ hbase => goes_of_step (hstep a m hbase)

/-! ## Instructions -/

variable {operands rest : List Value} {v : Value} {st : Store} {k : Nat}

variable (call base) in
theorem step_instr {op : Opcode} (hi : s.HasInstr pos (op, k)) :
    ∃ hk, step call s base pos = stepInstr call s base pos ⟨op, k, hk⟩ := by
  obtain ⟨hk, hi⟩ := hi
  refine ⟨hk, ?_⟩
  unfold step
  rw [hi]

theorem le_length_above (hbase : base ≤ m.context.stack.length) (operands : List Value) (st : Store) :
    base ≤ (m.above operands st).context.stack.length := by
  show base ≤ (operands ++ m.context.stack).length
  rw [List.length_append]
  omega

theorem pop_above (hbase : base ≤ m.context.stack.length) (pos : Nat) :
    pop base pos (m.above (v :: rest) st) = (.ok v, m.above rest st) := by
  have hle : base ≤ (rest ++ m.context.stack).length := le_length_above hbase rest st
  unfold pop
  rw [run_bind_ok (run_operands _)]
  show (if base ≤ (rest ++ m.context.stack).length then (do
      setOperands (rest ++ m.context.stack)
      return v) else failAt pos "stack underflow" : Run Value) (m.above (v :: rest) st) = _
  rw [if_pos hle]
  rfl

theorem top_above (hbase : base ≤ m.context.stack.length) (pos : Nat) :
    top base pos (m.above (v :: rest) st) = (.ok v, m.above (v :: rest) st) := by
  have hle : base ≤ (rest ++ m.context.stack).length := le_length_above hbase rest st
  unfold top
  rw [run_bind_ok (run_operands _)]
  show (if base ≤ (rest ++ m.context.stack).length then return v
    else failAt pos "stack underflow" : Run Value) (m.above (v :: rest) st) = _
  rw [if_pos hle]
  rfl

variable (st) in
theorem popMany_above (hbase : base ≤ m.context.stack.length) (pos : Nat)
    (hk : operands.length = k) :
    popMany base pos k (m.above operands st) = (.ok operands.reverse, m.above [] st) := by
  have hle : ¬ (operands ++ m.context.stack).length < base + k := by
    rw [List.length_append]
    omega
  subst hk
  unfold popMany
  rw [run_bind_ok (run_operands _)]
  show (if (operands ++ m.context.stack).length < base + operands.length then _ else _ : Run _) _ = _
  rw [if_neg hle]
  show (Except.ok ((operands ++ m.context.stack).take operands.length).reverse,
    (⟨{ m.context with stack := (operands ++ m.context.stack).drop operands.length }, st⟩ : Machine)) = _
  rw [List.take_left, List.drop_left]
  rfl

theorem step_pushConst (hi : s.HasInstr pos (.pushConst, k)) (hv : s.constants[k]? = some v) :
    step call s base pos m = (.ok (.goto (pos + 1)), m.above [v] m.store) := by
  obtain ⟨hk, hstep⟩ := step_instr call base hi
  have hconstant : ofExcept (s.constantAt pos k) m = (.ok v, m) := by
    rw [constantAt_eq hv]
    rfl
  rw [hstep]
  exact run_bind_ok hconstant

theorem computes_var {x : Variable} (hi : s.HasInstr pos (.getVar, x.id)) :
    Computes call s base vars 1 pos (pos + 1) ((Term.var x).evaluate vars) ([·]) := by
  rintro m rfl -
  obtain ⟨hk, hstep⟩ := step_instr call base hi
  have hread : step call s base pos m = (do
      push (← readVariable x)
      return .goto (pos + 1) : Run Next) m := congrFun hstep m
  unfold Term.evaluate
  cases hx : m.context.env.get? x with
  | some v =>
    refine goes_of_step (hread.trans ?_)
    have hvar : readVariable x m = (.ok v, m) := by
      unfold readVariable
      rw [run_bind_ok (run_context m), hx]
      rfl
    exact run_bind_ok hvar
  | none =>
    refine ⟨[], raises_of_step (hread.trans ?_)⟩
    have hvar : readVariable x m =
        (.error (.error (.unboundVariable (m.store.names.nameOf x))), m) := by
      unfold readVariable
      rw [run_bind_ok (run_context m), hx]
      rfl
    exact run_bind_error hvar

theorem step_member (hi : s.HasInstr pos (.memberC, k)) {key : Value}
    (hkey : s.constants[k]? = some key) (hbase : base ≤ m.context.stack.length) :
    step call s base pos (m.above [v] m.store) =
      (.ok (.goto (pos + 1)), m.above [v.member key] m.store) := by
  obtain ⟨hk, hstep⟩ := step_instr call base hi
  have hconstant : ofExcept (s.constantAt pos k) (m.above [v] m.store) =
      (.ok key, m.above [v] m.store) := by
    rw [constantAt_eq hkey]
    rfl
  rw [hstep]
  exact (run_bind_ok hconstant).trans (run_bind_ok (pop_above hbase pos))

theorem step_unary {op : UnaryOp} (hi : s.HasInstr pos (.unary, Family.code op))
    (hbase : base ≤ m.context.stack.length) :
    step call s base pos (m.above [v] m.store) = (.ok (.goto (pos + 1)),
      m.above [(Operator.unary op v m.store).1] (Operator.unary op v m.store).2) := by
  obtain ⟨hk, hstep⟩ := step_instr call base hi
  rw [hstep]
  exact (run_bind_ok (ofExcept_operatorAt op.find?_code pos _)).trans
    (run_bind_ok (pop_above hbase pos))

theorem step_binary {op : BinaryOp} {a b : Value} (hi : s.HasInstr pos (.binary, Family.code op))
    (hbase : base ≤ m.context.stack.length) :
    step call s base pos (m.above [b, a] m.store) = (.ok (.goto (pos + 1)),
      m.above [(Operator.binary op a b m.store).1] (Operator.binary op a b m.store).2) := by
  obtain ⟨hk, hstep⟩ := step_instr call base hi
  rw [hstep]
  exact (run_bind_ok (ofExcept_operatorAt op.find?_code pos _)).trans
    ((run_bind_ok (pop_above hbase pos)).trans (run_bind_ok (pop_above hbase pos)))

theorem step_ternary {op : TernaryOp} {a b c : Value}
    (hi : s.HasInstr pos (.ternary, Family.code op)) (hbase : base ≤ m.context.stack.length) :
    step call s base pos (m.above [c, b, a] m.store) =
      (.ok (.goto (pos + 1)), m.above [Operator.ternary op a b c] m.store) := by
  obtain ⟨hk, hstep⟩ := step_instr call base hi
  rw [hstep]
  exact (run_bind_ok (ofExcept_operatorAt op.find?_code pos _)).trans
    (run_bind_ok (popMany_above _ hbase pos rfl))

theorem step_quaternary {op : QuaternaryOp} {a b c d : Value}
    (hi : s.HasInstr pos (.quaternary, Family.code op)) (hbase : base ≤ m.context.stack.length) :
    step call s base pos (m.above [d, c, b, a] m.store) =
      (.ok (.goto (pos + 1)), m.above [Operator.quaternary op a b c d] m.store) := by
  obtain ⟨hk, hstep⟩ := step_instr call base hi
  rw [hstep]
  exact (run_bind_ok (ofExcept_operatorAt op.find?_code pos _)).trans
    (run_bind_ok (popMany_above _ hbase pos rfl))

theorem step_makeObject {values : List Value} (hi : s.HasInstr pos (.makeObject, k))
    (hlen : values.length = 2 * k) (hbase : base ≤ m.context.stack.length) :
    step call s base pos (m.above values.reverse m.store) = (.ok (.goto (pos + 1)),
      m.above [(makeObject values m.store).1] (makeObject values m.store).2) := by
  obtain ⟨hk, hstep⟩ := step_instr call base hi
  have hpop := popMany_above m.store hbase pos
    (show values.reverse.length = 2 * k by rw [List.length_reverse, hlen])
  rw [List.reverse_reverse] at hpop
  rw [hstep]
  exact run_bind_ok hpop

/-! ## Branches -/

theorem takeJump_ahead (hlt : pos < next) (hend : next ≤ s.length) (m : Machine) :
    takeJump s pos next m = (.ok (.goto next), m) := by
  unfold takeJump
  rw [if_neg (Nat.not_lt_of_le hend), if_neg (Nat.not_le_of_lt hlt)]
  rfl

variable (call v st) in
/-- A branch takes the condition from the stack. -/
theorem step_jumpIfNot (hi : s.HasInstr pos (.jumpIfNot, next)) (hlt : pos < next)
    (hend : next ≤ s.length) (hbase : base ≤ m.context.stack.length) :
    step call s base pos (m.above [v] st) = match v.toBool with
      | .ok true => (.ok (.goto (pos + 1)), m.above [] st)
      | .ok false => (.ok (.goto next), m.above [] st)
      | .error e => (.error (.error e), m.above [] st) := by
  obtain ⟨hk, hstep⟩ := step_instr call base hi
  rw [hstep]
  refine (run_bind_ok (pop_above hbase pos)).trans ?_
  rcases v.toBool with e | ⟨_ | _⟩
  · rfl
  · exact takeJump_ahead hlt hend _
  · rfl

variable (call v st) in
/-- A short circuit drops the `wanted` condition and goes on, and jumps with the other one. -/
theorem step_shortCircuit {op : Opcode} (wanted : Bool)
    (hop : op = if wanted then .jumpScAnd else .jumpScOr) (hi : s.HasInstr pos (op, next))
    (hlt : pos < next) (hend : next ≤ s.length) (hbase : base ≤ m.context.stack.length) :
    step call s base pos (m.above [v] st) = match v.toBool with
      | .ok b => if b = wanted then (.ok (.goto (pos + 1)), m.above [] st)
        else (.ok (.goto next), m.above [v] st)
      | .error e => (.error (.error e), m.above [v] st) := by
  subst hop
  obtain ⟨hk, hstep⟩ := step_instr call base hi
  rw [hstep]
  have hpop : pop base pos (m.above [v] st) = (.ok v, m.above [] st) := pop_above hbase pos
  have hdrop := run_bind_ok (f := fun _ => return Next.goto (pos + 1)) hpop
  have hjump := takeJump_ahead hlt hend (m.above [v] st)
  cases wanted with
  | true =>
    refine (run_bind_ok (top_above hbase pos)).trans ?_
    rcases v.toBool with e | ⟨_ | _⟩
    · rfl
    · exact hjump
    · exact hdrop
  | false =>
    refine (run_bind_ok (top_above hbase pos)).trans ?_
    rcases v.toBool with e | ⟨_ | _⟩
    · rfl
    · exact hdrop
    · exact hjump

theorem step_jump (hi : s.HasInstr pos (.jump, next)) (hlt : pos < next) (hend : next ≤ s.length)
    (m : Machine) : step call s base pos m = (.ok (.goto next), m) := by
  obtain ⟨hk, hstep⟩ := step_instr call base hi
  rw [hstep]
  exact takeJump_ahead hlt hend m

/-- The calculation stops on a condition that is no truth value. -/
theorem choose_error (h : v.toBool = .error e) (t f : Calculation α) :
    (Calculation.choose v t f) st = (.error e, st) := by
  unfold Calculation.choose
  rw [h]
  rfl

/-- The calculation goes on with the wanted part. -/
theorem choose_ok {b : Bool} (h : v.toBool = .ok b) (t f : Calculation α) :
    Calculation.choose v t f = if b then t else f := by
  unfold Calculation.choose
  rw [h]
  cases b <;> rfl

/-- A condition and the two parts of which it takes one; the first part jumps over the second. -/
theorem Computes.choice {x t f : Calculation Value} {last n₁ n₂ : Nat}
    (hx : Computes call s base vars n pos mid x ([·]))
    (hi : s.HasInstr mid (.jumpIfNot, last + 1)) (hmid : mid ≤ last)
    (ht : Computes call s base vars n₁ (mid + 1) last t ([·]))
    (hj : s.HasInstr last (.jump, next)) (hlast : last < next) (hend : next ≤ s.length)
    (hf : Computes call s base vars n₂ (last + 1) next f ([·])) :
    Computes call s base vars (n + (n₁ + n₂ + 2)) pos next (x >>= fun v => .choose v t f) ([·]) := by
  refine hx.bind fun v m henv hbase => ?_
  have hstep := step_jumpIfNot call v m.store hi
    (Nat.lt_succ_of_le hmid) (Nat.le_trans hlast hend) hbase
  cases hv : v.toBool with
  | error e =>
    rw [hv] at hstep
    rw [choose_error hv]
    exact ⟨[], (raises_of_step hstep).mono (by omega)⟩
  | ok b =>
    rw [hv] at hstep
    rw [choose_ok hv]
    cases b with
    | true =>
      have hpart := ht.andThen (step_jump hj hlast hend) m henv hbase
      exact ((goes_of_step hstep).produces hpart).mono (by omega)
    | false => exact ((goes_of_step hstep).produces (hf m henv hbase)).mono (by omega)

/-- A short-circuit term goes on with its second part if the first is as `wanted`, and keeps the
first otherwise. -/
theorem Computes.shortCircuit {op : Opcode} (wanted : Bool) {x y : Calculation Value}
    (hop : op = if wanted then .jumpScAnd else .jumpScOr)
    (hx : Computes call s base vars n pos mid x ([·])) (hi : s.HasInstr mid (op, next))
    (hlt : mid < next) (hend : next ≤ s.length)
    (hy : Computes call s base vars n' (mid + 1) next y ([·])) :
    Computes call s base vars (n + n' + 1) pos next
      (x >>= fun v => .choose v (if wanted then y else return v) (if wanted then return v else y))
      ([·]) := by
  rw [Nat.add_assoc, Nat.add_comm n']
  refine hx.bind fun v m henv hbase => ?_
  have hstep := step_shortCircuit call v m.store wanted hop hi hlt hend hbase
  cases hv : v.toBool with
  | error e =>
    rw [hv] at hstep
    rw [choose_error hv]
    exact ⟨[v], (raises_of_step hstep).mono (Nat.le_add_right 1 n')⟩
  | ok b =>
    rw [hv] at hstep
    rw [choose_ok hv]
    dsimp only at hstep
    by_cases hb : b = wanted
    · rw [if_pos hb] at hstep
      have hpart := (goes_of_step hstep).produces (hy m henv hbase)
      cases b <;> cases hb <;> exact hpart
    · rw [if_neg hb] at hstep
      have hkept := (goes_of_step hstep).mono (Nat.le_add_right 1 n')
      cases b <;> cases wanted <;> first | exact hkept | exact absurd rfl hb

/-! ## Terms -/

theorem bind_eq_ok {x : Calculation α} {f : α → Calculation β} {b : β} {st' : Store}
    (h : (x >>= f) st = (.ok b, st')) :
    ∃ a st₁, x st = (.ok a, st₁) ∧ f a st₁ = (.ok b, st') := by
  rw [Calculation.run_bind] at h
  rcases hx : x st with ⟨e | a, st₁⟩
  · rw [hx] at h
    cases h
  · rw [hx] at h
    exact ⟨a, st₁, rfl, h⟩

theorem length_evaluate {pairs : TermPairs} {values : List Value} {st st' : Store}
    (h : pairs.evaluate vars st = (.ok values, st')) : values.length = 2 * pairs.count := by
  match pairs with
  | .nil =>
    cases h
    rfl
  | .cons key value rest =>
    obtain ⟨k, st₁, -, h⟩ := bind_eq_ok h
    obtain ⟨v, st₂, -, h⟩ := bind_eq_ok h
    obtain ⟨others, st₃, hrest, h⟩ := bind_eq_ok h
    cases h
    rw [List.length_cons, List.length_cons, length_evaluate hrest, TermPairs.count]
    omega

/-- Where the parts of a short-circuit term are. -/
theorem hasCode_shortCircuit {op : Opcode} {a b : Term} {pos n : Nat}
    (hcode : s.HasCode pos (a.code pos n ++ (op, pos + a.size + 1 + b.size) ::
      b.code (pos + a.size + 1) (n + a.constants.length))) :
    s.HasCode pos (a.code pos n) ∧ s.HasInstr (pos + a.size) (op, pos + a.size + 1 + b.size) ∧
      s.HasCode (pos + a.size + 1) (b.code (pos + a.size + 1) (n + a.constants.length)) ∧
      pos + a.size + 1 + b.size ≤ s.length := by
  have hend := hcode.end_le (by simp)
  obtain ⟨hca, hop, hcb⟩ := eachAt_append.1 hcode
  rw [Term.length_code] at hop hcb
  simp only [List.length_append, List.length_cons, Term.length_code] at hend
  exact ⟨hca, hop, hcb, by omega⟩

mutual

/-- The code of a term computes its value. -/
theorem computes_term (t : Term) {pos n : Nat} (hcode : s.HasCode pos (t.code pos n))
    (hconst : s.HasConstants n t.constants) :
    Computes call s base vars t.size pos (pos + t.size) (t.evaluate vars) ([·]) := by
  cases t with
  | const v => exact fun m _ _ => goes_of_step (step_pushConst hcode.1 hconst.1)
  | var x => exact computes_var hcode.1
  | member a key =>
    obtain ⟨hcode, hop⟩ := eachAt_append.1 hcode
    obtain ⟨hconst, hkey⟩ := eachAt_append.1 hconst
    rw [Term.length_code] at hop
    have ha := computes_term a hcode hconst
    exact ha.bind fun v m _ hbase => goes_of_step (step_member hop.1 hkey.1 hbase)
  | unary op a =>
    obtain ⟨hcode, hop⟩ := eachAt_append.1 hcode
    rw [Term.length_code] at hop
    exact (computes_term a hcode hconst).operate fun v m hbase => step_unary hop.1 hbase
  | binary op a b =>
    obtain ⟨hcode, hop⟩ := eachAt_append.1 hcode
    obtain ⟨hca, hcb⟩ := eachAt_append.1 hcode
    obtain ⟨hka, hkb⟩ := eachAt_append.1 hconst
    simp only [List.length_append, Term.length_code, Term.size, ← Nat.add_assoc] at hop hcb ⊢
    have hab := (computes_term a hca hka).both (computes_term b hcb hkb)
    have h := hab.operate (f := fun r => Operator.binary op r.1 r.2)
      fun r m hbase => step_binary hop.1 hbase
    simp only [bind_assoc, pure_bind] at h
    exact h
  | ternary op a b c =>
    obtain ⟨hcode, hop⟩ := eachAt_append.1 hcode
    obtain ⟨hcode, hcc⟩ := eachAt_append.1 hcode
    obtain ⟨hca, hcb⟩ := eachAt_append.1 hcode
    obtain ⟨hconst, hkc⟩ := eachAt_append.1 hconst
    obtain ⟨hka, hkb⟩ := eachAt_append.1 hconst
    simp only [List.length_append, Term.length_code, Term.size, ← Nat.add_assoc]
      at hop hcb hcc hkc ⊢
    have habc := ((computes_term a hca hka).both (computes_term b hcb hkb)).both
      (computes_term c hcc hkc)
    have h := habc.operate (f := fun r => pure (Operator.ternary op r.1.1 r.1.2 r.2))
      fun r m hbase => step_ternary hop.1 hbase
    simp only [bind_assoc, pure_bind] at h
    exact h
  | quaternary op a b c d =>
    obtain ⟨hcode, hop⟩ := eachAt_append.1 hcode
    obtain ⟨hcode, hcd⟩ := eachAt_append.1 hcode
    obtain ⟨hcode, hcc⟩ := eachAt_append.1 hcode
    obtain ⟨hca, hcb⟩ := eachAt_append.1 hcode
    obtain ⟨hconst, hkd⟩ := eachAt_append.1 hconst
    obtain ⟨hconst, hkc⟩ := eachAt_append.1 hconst
    obtain ⟨hka, hkb⟩ := eachAt_append.1 hconst
    simp only [List.length_append, Term.length_code, Term.size, ← Nat.add_assoc]
      at hop hcb hcc hcd hkc hkd ⊢
    have habcd := (((computes_term a hca hka).both (computes_term b hcb hkb)).both
      (computes_term c hcc hkc)).both (computes_term d hcd hkd)
    have h := habcd.operate (f := fun r => pure (Operator.quaternary op r.1.1.1 r.1.1.2 r.1.2 r.2))
      fun r m hbase => step_quaternary hop.1 hbase
    simp only [bind_assoc, pure_bind] at h
    exact h
  | object pairs =>
    obtain ⟨hcode, hop⟩ := eachAt_append.1 hcode
    rw [TermPairs.length_code] at hop
    have hpairs := computes_pairs pairs hcode hconst
    exact hpairs.bindResult fun values m _ hbase hv =>
      goes_of_step (step_makeObject hop.1 (length_evaluate hv.choose_spec) hbase)
  | ite c t f =>
    have hend := hcode.end_le (by simp [Term.code])
    obtain ⟨hcc, hif, hcode⟩ := eachAt_append.1 hcode
    obtain ⟨hct, hjump, hcf⟩ := eachAt_append.1 hcode
    obtain ⟨hconst, hkf⟩ := eachAt_append.1 hconst
    obtain ⟨hkc, hkt⟩ := eachAt_append.1 hconst
    have hnext : pos + (c.ite t f).size = pos + c.size + 1 + t.size + 1 + f.size := by
      rw [Term.size]
      omega
    rw [Term.length_code, hnext] at hend
    rw [hnext, Term.size, Nat.add_assoc c.size, Nat.add_assoc c.size]
    simp only [List.length_append, Term.length_code, ← Nat.add_assoc] at hif hct hjump hcf hkf
    exact (computes_term c hcc hkc).choice hif (by omega) (computes_term t hct hkt) hjump
      (by omega) hend (computes_term f hcf hkf)
  | and a b =>
    obtain ⟨hca, hop, hcb, hend⟩ := hasCode_shortCircuit hcode
    obtain ⟨hka, hkb⟩ := eachAt_append.1 hconst
    have h := (computes_term a hca hka).shortCircuit true rfl hop (by omega) hend
      (computes_term b hcb hkb)
    have hnext : pos + a.size + 1 + b.size = pos + (a.and b).size := by
      rw [Term.size]
      omega
    rw [hnext] at h
    exact h
  | or a b =>
    obtain ⟨hca, hop, hcb, hend⟩ := hasCode_shortCircuit hcode
    obtain ⟨hka, hkb⟩ := eachAt_append.1 hconst
    have h := (computes_term a hca hka).shortCircuit false rfl hop (by omega) hend
      (computes_term b hcb hkb)
    have hnext : pos + a.size + 1 + b.size = pos + (a.or b).size := by
      rw [Term.size]
      omega
    rw [hnext] at h
    exact h

/-- The code of keys and values computes them. -/
theorem computes_pairs (pairs : TermPairs) {pos n : Nat} (hcode : s.HasCode pos (pairs.code pos n))
    (hconst : s.HasConstants n pairs.constants) :
    Computes call s base vars pairs.size pos (pos + pairs.size) (pairs.evaluate vars)
      List.reverse := by
  cases pairs with
  | nil => exact fun m _ _ => ⟨0, Nat.le_refl 0, fun budget => rfl⟩
  | cons key value rest =>
    obtain ⟨hcode, hcr⟩ := eachAt_append.1 hcode
    obtain ⟨hck, hcv⟩ := eachAt_append.1 hcode
    obtain ⟨hconst, hkr⟩ := eachAt_append.1 hconst
    obtain ⟨hkk, hkv⟩ := eachAt_append.1 hconst
    simp only [List.length_append, Term.length_code, TermPairs.size, ← Nat.add_assoc]
      at hcv hcr hkr ⊢
    have hall := ((computes_term key hck hkk).both (computes_term value hcv hkv)).both
      (computes_pairs rest hcr hkr)
    have h := hall.seenAs (q := List.reverse) (g := fun r => r.1.1 :: r.1.2 :: r.2) (by simp)
    simp only [bind_assoc, pure_bind] at h
    exact h

end

/-! ## Scripts of terms -/

theorem leaveScope_enterScope (env : Environment) :
    env.enterScope.2.leaveScope env.hiddenCount = env := by
  obtain ⟨slots, shadowed, level⟩ := env
  unfold Environment.leaveScope Environment.unwindTo
  cases shadowed with
  | nil => rfl
  | cons hidden rest =>
    show (_ : Environment) = _
    simp [Environment.enterScope, Environment.hiddenCount, Environment.unwind]

theorem step_ret (hi : s.HasInstr pos (.ret, k)) (hbase : base = m.context.stack.length) :
    step call s base pos (m.above [v] st) = (.ok (.leave (.done v)), m.above [] st) := by
  obtain ⟨hk, hstep⟩ := step_instr call base hi
  have hframe : frameResult base pos (m.above [v] st) = (.ok v, m.above [] st) := by
    refine (run_bind_ok (pop_above (Nat.le_of_eq hbase) pos)).trans ?_
    subst hbase
    show (Except.ok v, (⟨{ m.context with
      stack := m.context.stack.drop (m.context.stack.length - m.context.stack.length) }, st⟩ :
        Machine)) = _
    rw [Nat.sub_self]
    rfl
  rw [hstep]
  exact run_bind_ok hframe

variable {t : Term} {budget : Nat}

variable (call) in
/-- The script of a term runs to its end with the value of the term, or raises its error. -/
theorem runFrom_term (hcode : s.HasCode 0 (t.code 0 0 ++ [(.ret, 0)]))
    (hconst : s.HasConstants 0 t.constants) (hbudget : t.size < budget) (m : Machine) :
    match t.evaluate m.context.env.get? m.store with
    | (.ok v, st) =>
      runFrom call s m.context.stack.length budget 0 m = (.ok (.done v), m.above [] st)
    | (.error e, st) =>
      ∃ f, runFrom call s m.context.stack.length budget 0 m = (.error (.error e), m.above f st) := by
  obtain ⟨hcode, hret, -⟩ := eachAt_append.1 hcode
  rw [Term.length_code] at hret
  have hproduces : Computes call s m.context.stack.length m.context.env.get? t.size 0 _
    (t.evaluate m.context.env.get?) ([·]) := computes_term t hcode hconst
  have hproduces := hproduces m rfl (Nat.le_refl _)
  rcases hout : t.evaluate m.context.env.get? m.store with ⟨e | v, st⟩
  · rw [hout] at hproduces
    obtain ⟨f, k, hk, hrun⟩ := hproduces
    refine ⟨f, ?_⟩
    obtain ⟨rest, rfl⟩ := Nat.exists_eq_add_of_le' (Nat.le_trans hk (Nat.le_of_lt hbudget))
    exact hrun rest
  · rw [hout] at hproduces
    obtain ⟨k, hk, hrun⟩ := hproduces
    obtain ⟨rest, rfl⟩ := Nat.exists_eq_add_of_le' (Nat.lt_of_le_of_lt hk hbudget)
    show runFrom call s m.context.stack.length (rest + (k + 1)) 0 m = _
    rw [Nat.add_comm k, ← Nat.add_assoc, hrun, runFrom, run_bind_ok (step_ret hret rfl)]
    rfl

variable (call) in
/-- A frame of the script of a term: the value or the error of the term, and the scope closed. -/
theorem execute_term (hcode : s.HasCode 0 (t.code 0 0 ++ [(.ret, 0)]))
    (hconst : s.HasConstants 0 t.constants) (hbudget : t.size < budget) (scope : Option Nat)
    (m : Machine) :
    execute call budget s scope m =
      ((t.evaluate m.context.env.get? m.store).1.mapError .error,
        ⟨{ m.context with env := closeScope scope m.context.env },
          (t.evaluate m.context.env.get? m.store).2⟩) := by
  have hrun := runFrom_term call hcode hconst hbudget m
  obtain ⟨rounds, rfl⟩ := Nat.exists_eq_add_one_of_ne_zero (Nat.ne_zero_of_lt hbudget)
  unfold execute
  rw [run_bind_ok (run_height m)]
  rcases hout : t.evaluate m.context.env.get? m.store with ⟨e | v, st⟩
  · rw [hout] at hrun
    obtain ⟨f, hrun⟩ := hrun
    have hchain : runChain call (rounds + 1) m.context.stack.length (rounds + 1) s scope m =
        (.ok (.error e, scope), m.above f st) := by
      unfold runChain
      exact run_bind_ok (run_attempt_error hrun)
    have hstack : (f ++ m.context.stack).drop
        ((f ++ m.context.stack).length - m.context.stack.length) = m.context.stack := by
      rw [List.length_append, Nat.add_sub_cancel, List.drop_left]
    have htruncate : ∀ env, truncate m.context.stack.length
        ⟨{ m.context with env := env, stack := f ++ m.context.stack }, st⟩ =
          (.ok (), ⟨{ m.context with env := env }, st⟩) := fun env => by
      unfold truncate
      rw [run_change]
      dsimp only
      rw [hstack]
    rw [run_bind_ok hchain]
    cases scope with
    | none => exact run_bind_ok (htruncate _)
    | some mark => exact (run_bind_ok (run_change _ _)).trans (run_bind_ok (htruncate _))
  · rw [hout] at hrun
    have hchain : runChain call (rounds + 1) m.context.stack.length (rounds + 1) s scope m =
        (.ok (.ok v, scope), m.above [] st) := by
      unfold runChain
      exact run_bind_ok (run_attempt_ok hrun)
    rw [run_bind_ok hchain]
    cases scope <;> rfl

/-- At the outermost evaluation the calls of an earlier error are forgotten first. -/
theorem run_forgetting (x : Run α) (m : Machine) :
    (do
      if (← context).callDepth = 0 then forgetFrames
      x) m = x ⟨{ m.context with
        backtrace := if m.context.callDepth = 0 then [] else m.context.backtrace }, m.store⟩ := by
  rw [run_bind_ok (run_context m)]
  by_cases h : m.context.callDepth = 0
  · simp only [if_pos h]
    exact run_bind_ok (run_change _ m)
  · simp only [if_neg h]

variable (call) in
/-- The result of the frame, which is not a delayed error. -/
theorem execute_result (hcode : s.HasCode 0 (t.code 0 0 ++ [(.ret, 0)]))
    (hconst : s.HasConstants 0 t.constants) (hbudget : t.size < budget) (scope : Option Nat)
    (m : Machine) :
    (do ofExcept (← execute call budget s scope).force) m =
      ((t.result m.context.env.get? m.store).1.mapError .error,
        ⟨{ m.context with env := closeScope scope m.context.env },
          (t.result m.context.env.get? m.store).2⟩) := by
  have hexecute := execute_term call hcode hconst hbudget scope m
  have hresult : t.result m.context.env.get? m.store = _ := Calculation.run_bind _ _ _
  rw [hresult]
  rcases hout : t.evaluate m.context.env.get? m.store with ⟨e | v, st⟩
  · rw [hout] at hexecute
    exact run_bind_error hexecute
  · rw [hout] at hexecute
    refine (run_bind_ok hexecute).trans ?_
    rw [run_ofExcept]
    dsimp only
    cases v.force <;> rfl

/-- Evaluating the code of a term gives what the term means. -/
theorem eval_term (hcode : s.HasCode 0 (t.code 0 0 ++ [(.ret, 0)]))
    (hconst : s.HasConstants 0 t.constants) (hbudget : t.size < budget) (ownScope : Bool)
    (m : Machine) :
    eval budget s ownScope m =
      ((t.result m.context.env.get? m.store).1.mapError .error,
        ⟨{ m.context with
            backtrace := if m.context.callDepth = 0 then [] else m.context.backtrace },
          (t.result m.context.env.get? m.store).2⟩) := by
  have hresult := execute_result (callFor budget) hcode hconst hbudget
  refine (run_forgetting _ m).trans ?_
  generalize (if m.context.callDepth = 0 then [] else m.context.backtrace) = frames
  cases ownScope with
  | false => exact hresult none _
  | true =>
    -- The scope of its own is left as it was entered.
    refine (hresult (some m.context.env.hiddenCount)
      ⟨{ m.context with env := m.context.env.enterScope.2, backtrace := frames }, m.store⟩).trans ?_
    rw [closeScope, leaveScope_enterScope]
    rfl

/-- **Evaluating what is built from a term gives what the term means**: its value, or its error, with
the store that evaluating it leaves; the machine is otherwise the same, but for the calls noted for
an earlier error. -/
theorem eval_built {st st' : Store} {b : Builder}
    (hbuild : t.assemble.build st = ((.ok s, b), st')) (hbudget : t.size < budget)
    (ownScope : Bool) (m : Machine) :
    eval budget s ownScope m =
      ((t.result m.context.env.get? m.store).1.mapError .error,
        ⟨{ m.context with
            backtrace := if m.context.callDepth = 0 then [] else m.context.backtrace },
          (t.result m.context.env.get? m.store).2⟩) := by
  obtain ⟨hcode, hconst⟩ := Term.built_eq hbuild
  exact eval_term (Script.hasCode_of_ops hcode) (Script.hasConstants_of_toList hconst) hbudget
    ownScope m

/-- A term in which the second variable has no value but is never read. -/
def guarded : Term :=
  .ite (.or (.unary .not (.var ⟨0⟩)) (.var ⟨1⟩))
    (.binary .member (.object (.cons (.const (.string "a")) (.var ⟨0⟩) .nil)) (.const (.string "a")))
    (.var ⟨1⟩)

/-- The script of the term. -/
def guardedScript : Script Value := ⟨0, guarded.assemble.code, guarded.assemble.constants⟩

theorem eval_built_guarded :
    guarded.size < 20 ∧ (eval 20 guardedScript true machineInScope).1 = .ok (.bool false) := by
  have hbuild : guarded.assemble.build .empty =
      ((.ok guardedScript, .empty), { Store.empty with nextIdent := 1 }) := rfl
  have hsize : guarded.size < 20 := by decide
  refine ⟨hsize, ?_⟩
  rw [eval_built hbuild hsize]
  rfl

end Run

end ReactiveScript
