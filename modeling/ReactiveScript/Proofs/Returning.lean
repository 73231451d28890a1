import ReactiveScript.Proofs.Run

/-
  The height of the stack after a script.

  A script comes to a value only by RET or at the end of its code, and both drop its frame
  (`step_empties`). So after a script that came to a value, and after a call of one, the stack is as
  high as it was before (`execute_height`, `callFor_height`), whatever happened to scopes on the way.
-/

namespace ReactiveScript.Run

variable {α β : Type} {call : Caller} {s : Script Value} {base pos : Nat} {m m' : Machine}
  {v : Value}

/-- If the evaluation returns from a frame, the frame is empty. -/
def Empties (base : Nat) (x : Run Next) : Prop :=
  ∀ m v m', x m = (.ok (.leave (.done v)), m') → m'.context.stack.length = base

theorem Empties.bind (x : Run α) {f : α → Run Next} (h : ∀ a, Empties base (f a)) :
    Empties base (x >>= f) := by
  intro m v m' hx
  obtain ⟨a, m₁, -, h₂⟩ := run_bind_eq_ok hx
  exact h a m₁ v m' h₂

theorem empties_goto (p : Nat) : Empties base (pure (.goto p)) := fun _ _ _ h => by cases h

theorem empties_tail (target : Script Value) (bindings : Bindings) :
    Empties base (pure (.leave (.tail target bindings))) := fun _ _ _ h => by cases h

theorem empties_fail (e : EvalError) : Empties base (fail e) := fun _ _ _ h => by cases h

theorem empties_takeJump (target : Nat) : Empties base (takeJump s pos target) :=
  takeJump_cases empties_fail (fun _ => Empties.bind _ fun _ => empties_goto _)
    fun _ => empties_goto _

theorem empties_pushThen (v : Value) (p : Nat) : Empties base (do
    push v
    return Next.goto p) :=
  Empties.bind _ fun _ => empties_goto p

theorem empties_stepLoop (target : Nat) (withKey : Bool) :
    Empties base (stepLoop s base pos target withKey) := by
  refine Empties.bind _ fun _ => Empties.bind _ fun stack => ?_
  rcases stack with _ | ⟨accumulator, _ | ⟨slot, rest⟩⟩
  · exact empties_fail _
  · exact empties_fail _
  · by_cases h : rest.length < base
    · simp only [if_pos h]
      exact empties_fail _
    · simp only [if_neg h]
      cases slot with
      | iterator handle =>
        refine Empties.bind _ fun drawn => ?_
        rcases drawn with _ | ⟨key, v⟩
        · exact Empties.bind _ fun _ => empties_takeJump target
        · cases withKey with
          | false => exact empties_pushThen v _
          | true => exact Empties.bind _ fun _ => empties_pushThen v _
      | _ => exact empties_fail _

theorem empties_stepCall (n : Nat) (op : Opcode) :
    Empties base (stepCall call s base pos n op) := by
  refine Empties.bind _ fun params => Empties.bind _ fun args => Empties.bind _ fun function => ?_
  by_cases h : op = .closure
  · simp only [if_pos h]
    exact Empties.bind _ fun v => empties_pushThen v _
  · simp only [if_neg h]
    refine Empties.bind _ fun height => ?_
    split
    · exact empties_tail _ _
    · refine Empties.bind _ fun result => ?_
      cases result with
      | ok v => exact empties_pushThen v _
      | error e => exact Empties.bind _ fun _ => Empties.bind _ fun _ => empties_fail e

theorem frameResult_height (h : frameResult base pos m = (.ok v, m')) :
    m'.context.stack.length = base := by
  unfold frameResult at h
  obtain ⟨w, m₁, hpop, h⟩ := run_bind_eq_ok h
  cases h
  have hbase : base ≤ m₁.context.stack.length := by
    unfold pop at hpop
    rw [run_bind_ok (run_operands m)] at hpop
    rcases hs : m.context.stack with _ | ⟨top, rest⟩
    · rw [hs] at hpop
      cases hpop
    · rw [hs] at hpop
      by_cases hrest : base ≤ rest.length
      · simp only [if_pos hrest] at hpop
        cases hpop
        exact hrest
      · simp only [if_neg hrest] at hpop
        cases hpop
  show (m₁.context.stack.drop (m₁.context.stack.length - base)).length = base
  rw [List.length_drop]
  omega

theorem empties_return (base pos : Nat) : Empties base (do
    return .leave (.done (← frameResult base pos))) := by
  intro m v m' h
  obtain ⟨w, m₁, hframe, h⟩ := run_bind_eq_ok h
  cases h
  exact frameResult_height hframe

theorem stepInstr_empties (i : Instruction) : Empties base (stepInstr call s base pos i) := by
  rcases i with ⟨op, n, hn⟩
  cases op with
  | nop => exact empties_goto _
  | pushConst => exact Empties.bind _ fun v => empties_pushThen v _
  | pop => exact Empties.bind _ fun _ => empties_goto _
  | dup =>
    refine Empties.bind _ fun stack => ?_
    by_cases h : n ≥ stack.length - base
    · simp only [if_pos h]
      exact empties_fail _
    · simp only [if_neg h]
      exact empties_pushThen _ _
  | jump => exact empties_takeJump n
  | jumpIfNot =>
    refine Empties.bind _ fun condition => Empties.bind _ fun b => ?_
    cases b
    · exact empties_takeJump n
    · exact empties_goto _
  | jumpScAnd =>
    refine Empties.bind _ fun v => Empties.bind _ fun b => ?_
    cases b
    · exact empties_takeJump n
    · exact Empties.bind _ fun _ => empties_goto _
  | jumpScOr =>
    refine Empties.bind _ fun v => Empties.bind _ fun b => ?_
    cases b
    · exact Empties.bind _ fun _ => empties_goto _
    · exact empties_takeJump n
  | loop => exact empties_stepLoop n false
  | loopWithKey => exact empties_stepLoop n true
  | ret => exact empties_return base pos
  | getVar => exact Empties.bind _ fun v => empties_pushThen v _
  | setVar => exact Empties.bind _ fun v => Empties.bind _ fun _ => empties_goto _
  | memberC => exact Empties.bind _ fun key => Empties.bind _ fun object => empties_pushThen _ _
  | makeObject => exact Empties.bind _ fun values => Empties.bind _ fun v => empties_pushThen v _
  | call => exact empties_stepCall n .call
  | closure => exact empties_stepCall n .closure
  | tailCall => exact empties_stepCall n .tailCall
  | unary =>
    exact Empties.bind _ fun op => Empties.bind _ fun a => Empties.bind _ fun v =>
      empties_pushThen v _
  | binary =>
    exact Empties.bind _ fun op => Empties.bind _ fun a => Empties.bind _ fun b =>
      Empties.bind _ fun v => empties_pushThen v _
  | ternary =>
    refine Empties.bind _ fun op => Empties.bind _ fun args => ?_
    split
    · exact empties_pushThen _ _
    · exact empties_goto _
  | quaternary =>
    refine Empties.bind _ fun op => Empties.bind _ fun args => ?_
    split
    · exact empties_pushThen _ _
    · exact empties_goto _

/-- An instruction that returns from the frame leaves it empty. -/
theorem step_empties (call : Caller) (s : Script Value) (base pos : Nat) :
    Empties base (step call s base pos) := by
  unfold step
  cases s.code[pos]? with
  | some i => exact stepInstr_empties i
  | none => exact empties_return base s.length

theorem runFrom_height {k : Nat} (h : runFrom call s base k pos m = (.ok (.done v), m')) :
    m'.context.stack.length = base := by
  induction k generalizing pos m with
  | zero => cases h
  | succ k ih =>
    obtain ⟨next, m₁, hstep, h⟩ := run_bind_eq_ok h
    cases next with
    | goto next => exact ih h
    | leave exit =>
      cases h
      exact step_empties call s base pos m v _ hstep

theorem runChain_height {steps chain : Nat} {scope scope' : Option Nat}
    (h : runChain call steps base chain s scope m = (.ok (.ok v, scope'), m')) :
    m'.context.stack.length = base := by
  induction chain generalizing s scope m with
  | zero => cases h
  | succ chain ih =>
    obtain ⟨result, m₁, hrun, h⟩ := run_bind_eq_ok h
    rcases result with e | w | ⟨target, bindings⟩
    · cases h
    · cases h
      exact runFrom_height (attempt_eq_ok hrun)
    · obtain ⟨heeded, m₂, -, h⟩ := run_bind_eq_ok h
      cases heeded with
      | error e => cases h
      | ok u =>
        obtain ⟨mark, m₃, -, h⟩ := run_bind_eq_ok h
        exact ih h

/-- After a script that came to a value the stack is as high as before. -/
theorem execute_height {budget : Nat} {scope : Option Nat}
    (h : execute call budget s scope m = (.ok v, m')) :
    m'.context.stack.length = m.context.stack.length := by
  unfold execute at h
  rw [run_bind_ok (run_height m)] at h
  obtain ⟨⟨result, scope'⟩, m₁, hchain, h⟩ := run_bind_eq_ok h
  cases result with
  | ok w =>
    have hheight := runChain_height hchain
    cases scope' <;> cases h <;> exact hheight
  | error e => cases scope' <;> cases h

theorem callScript_height {budget : Nat} {args : Bindings}
    (h : callScript call budget s args m = (.ok v, m')) :
    m'.context.stack.length = m.context.stack.length := by
  unfold callScript at h
  obtain ⟨u, m₁, hbegin, h⟩ := run_bind_eq_ok h
  rw [run_bind_ok (run_enterScope m₁), run_bind_ok (run_bindAll _ _)] at h
  obtain ⟨result, m₂, hrun, h⟩ := run_bind_eq_ok h
  cases result with
  | error e => cases h
  | ok w =>
    cases h
    refine (execute_height (attempt_eq_ok hrun)).trans ?_
    rcases beginCall_cases m with ⟨-, he⟩ | ⟨-, he⟩
    · cases hbegin.symm.trans he
    · cases hbegin.symm.trans he
      rfl

/-- Calling a function that a tail call can continue with runs a script. -/
theorem callFor_height {function : Value} {bindings args : Bindings} {target : Script Value}
    (ht : tailScript? function bindings = some (target, args)) {budget : Nat}
    (h : callFor budget function bindings m = (.ok v, m')) :
    m'.context.stack.length = m.context.stack.length := by
  unfold tailScript? at ht
  split at ht
  · cases ht
    obtain _ | budget := budget
    · cases h
    · exact callScript_height h
  · cases ht
    obtain _ | _ | budget := budget
    · cases h
    · cases h
    · exact callScript_height h
  · cases ht

end ReactiveScript.Run
