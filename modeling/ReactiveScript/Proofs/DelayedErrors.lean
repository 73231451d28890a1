import Mathlib.Data.List.Basic
import ReactiveScript.Proofs.TermRun

/-
  Errors that are delayed.

  What goes wrong in an operator is delayed in the value that it gives, so an instruction that
  applies a known operator to operands that are there always goes on (`step_application`). An
  erroneous operand makes the result erroneous, and that of an operator on one or two operands is the
  error itself (`isError_result`, `result_eq_firstError`), except for OR_ELSE. So an error that comes
  up somewhere is carried through any chain of such operators (`Carries.evaluate`) and stands on the
  left of the next OR_ELSE as what it was.
-/

namespace ReactiveScript

/-! ## Operators with their operands -/

namespace Operator

/-- An operator of any of the four families with its operands. -/
inductive Application
  | unary (op : UnaryOp) (a : Value)
  | binary (op : BinaryOp) (a b : Value)
  | ternary (op : TernaryOp) (a b c : Value)
  | quaternary (op : QuaternaryOp) (a b c d : Value)

namespace Application

/-- The opcode of the operator's family. -/
def opcode : Application → Opcode
  | .unary .. => .unary
  | .binary .. => .binary
  | .ternary .. => .ternary
  | .quaternary .. => .quaternary

/-- The number of the operator in its family. -/
def code : Application → Nat
  | .unary op _ => Family.code op
  | .binary op _ _ => Family.code op
  | .ternary op _ _ _ => Family.code op
  | .quaternary op _ _ _ _ => Family.code op

/-- The operands from left to right. -/
def operands : Application → List Value
  | .unary _ a => [a]
  | .binary _ a b => [a, b]
  | .ternary _ a b c => [a, b, c]
  | .quaternary _ a b c d => [a, b, c, d]

/-- What the operator gives. -/
def result : Application → StateM Store Value
  | .unary op a => Operator.unary op a
  | .binary op a b => Operator.binary op a b
  | .ternary op a b c => return Operator.ternary op a b c
  | .quaternary op a b c d => return Operator.quaternary op a b c d

/-- The operator looks at errors. -/
def recovers : Application → Bool
  | .binary .orElse _ _ => true
  | _ => false

end Application

/-! ## Errors among the operands -/

theorem eq_error_of_isError {v : Value} (h : v.isError = true) : ∃ e, v = .error e := by
  unfold Value.isError at h
  split at h
  · exact ⟨_, rfl⟩
  · cases h

theorem unary_error (op : UnaryOp) (e : EvalError) : unary op (.error e) = pure (.error e) := rfl

theorem binary_orElse (a b : Value) : binary .orElse a b = pure (if a.isError then b else a) := rfl

/-- All operators but OR_ELSE give an erroneous left operand. -/
theorem binary_error_left {op : BinaryOp} (hop : op ≠ .orElse) (e : EvalError) (b : Value) :
    binary op (.error e) b = pure (.error e) := by
  unfold binary
  split
  · exact absurd rfl hop
  · rfl

/-- They give an erroneous right operand if the left one is no error. -/
theorem binary_error_right {op : BinaryOp} (hop : op ≠ .orElse) {a : Value} (ha : a.isError = false)
    (e : EvalError) : binary op a (.error e) = pure (.error e) := by
  unfold binary
  split
  · exact absurd rfl hop
  · split
    · cases ha
    · next h => cases h; rfl
    · next h => exact absurd rfl (h e)

/-- What is made of channels is erroneous if the value of one of them is. -/
theorem exists_channel_error {v : Value} (h : v.isError = true) : ∃ e, channel v = .error e := by
  obtain ⟨e, rfl⟩ := eq_error_of_isError h
  exact ⟨e, rfl⟩

theorem isError_ternary (op : TernaryOp) {a b c : Value}
    (h : a.isError = true ∨ b.isError = true ∨ c.isError = true) :
    (ternary op a b c).isError = true := by
  unfold ternary
  rcases ha : channel a with e | r
  · rfl
  rcases hb : channel b with e | g
  · rfl
  rcases hc : channel c with e | u
  · rfl
  exfalso
  rcases h with h | h | h <;> obtain ⟨e, he⟩ := exists_channel_error h
  · rw [ha] at he; cases he
  · rw [hb] at he; cases he
  · rw [hc] at he; cases he

theorem isError_quaternary (op : QuaternaryOp) {a b c d : Value}
    (h : a.isError = true ∨ b.isError = true ∨ c.isError = true ∨ d.isError = true) :
    (quaternary op a b c d).isError = true := by
  unfold quaternary
  rcases ha : channel a with e | r
  · rfl
  rcases hb : channel b with e | g
  · rfl
  rcases hc : channel c with e | u
  · rfl
  rcases hd : channel d with e | t
  · rfl
  exfalso
  rcases h with h | h | h | h <;> obtain ⟨e, he⟩ := exists_channel_error h
  · rw [ha] at he; cases he
  · rw [hb] at he; cases he
  · rw [hc] at he; cases he
  · rw [hd] at he; cases he

namespace Application

variable {ap : Application}

/-- The first erroneous operand of an operator on one or two is its result, and nothing else
happens. -/
theorem result_eq_firstError (hfew : ap.operands.length ≤ 2) (hop : ap.recovers = false) {v : Value}
    (h : ap.operands.find? Value.isError = some v) : ap.result = pure v := by
  match ap with
  | .unary op a =>
    obtain ⟨ha, rfl⟩ : a.isError = true ∧ a = v := by simpa [operands] using h
    obtain ⟨e, rfl⟩ := eq_error_of_isError ha
    exact unary_error op e
  | .binary op a b =>
    have hne : op ≠ .orElse := by
      rintro rfl
      cases hop
    by_cases ha : a.isError = true
    · obtain rfl : a = v := by simpa [operands, ha] using h
      obtain ⟨e, rfl⟩ := eq_error_of_isError ha
      exact binary_error_left hne e b
    · rw [Bool.not_eq_true] at ha
      obtain ⟨hb, rfl⟩ : b.isError = true ∧ b = v := by simpa [operands, ha] using h
      obtain ⟨e, rfl⟩ := eq_error_of_isError hb
      exact binary_error_right hne ha e
  | .ternary .. => simp [operands] at hfew
  | .quaternary .. => simp [operands] at hfew

/-- An error among the operands makes the result an error. -/
theorem isError_result (hop : ap.recovers = false) {v : Value} (hv : v ∈ ap.operands)
    (herror : v.isError = true) (st : Store) : (ap.result st).1.isError = true := by
  have hsome : (ap.operands.find? Value.isError).isSome = true :=
    List.find?_isSome.2 ⟨v, hv, herror⟩
  obtain ⟨first, hfirst⟩ := Option.isSome_iff_exists.1 hsome
  by_cases hfew : ap.operands.length ≤ 2
  · rw [result_eq_firstError hfew hop hfirst]
    exact List.find?_some hfirst
  · match ap with
    | .unary .. | .binary .. => exact absurd (by simp [operands]) hfew
    | .ternary op a b c =>
      refine isError_ternary op ?_
      rcases List.mem_cons.1 hv with rfl | hv
      · exact .inl herror
      rcases List.mem_cons.1 hv with rfl | hv
      · exact .inr (.inl herror)
      · exact .inr (.inr (List.mem_singleton.1 hv ▸ herror))
    | .quaternary op a b c d =>
      refine isError_quaternary op ?_
      rcases List.mem_cons.1 hv with rfl | hv
      · exact .inl herror
      rcases List.mem_cons.1 hv with rfl | hv
      · exact .inr (.inl herror)
      rcases List.mem_cons.1 hv with rfl | hv
      · exact .inr (.inr (.inl herror))
      · exact .inr (.inr (.inr (List.mem_singleton.1 hv ▸ herror)))

end Application

end Operator

/-! ## Instructions that apply operators -/

/-- The operations of a family are listed in the order of their numbers. -/
theorem Family.eq_code {α : Type} [Family α]
    (hordered : ∀ i : Fin (all : List α).length, code ((all : List α).get i) = i) {n : Nat} {op : α}
    (h : find? n = some op) : n = code op := by
  obtain ⟨hlt, hget⟩ := List.getElem?_eq_some_iff.1 h
  exact ((congrArg code hget).symm.trans (hordered ⟨n, hlt⟩)).symm

/-- The number of operands of the operator that an instruction applies, if it names one. -/
def Instruction.operandCount? (i : Instruction) : Option Nat :=
  match i.opcode with
  | .unary => (Family.find? i.operand : Option UnaryOp).map fun _ => 1
  | .binary => (Family.find? i.operand : Option BinaryOp).map fun _ => 2
  | .ternary => (Family.find? i.operand : Option TernaryOp).map fun _ => 3
  | .quaternary => (Family.find? i.operand : Option QuaternaryOp).map fun _ => 4
  | _ => none

open Operator

/-- An instruction that names an operator applies it to the operands on top of the stack. -/
theorem exists_application {i : Instruction} {k : Nat} (hi : i.operandCount? = some k)
    {stack : List Value} (hlen : k ≤ stack.length) :
    ∃ ap : Application, ap.opcode = i.opcode ∧ ap.code = i.operand ∧
      ap.operands = (stack.take k).reverse := by
  have hcount : (stack.take k).reverse.length = k := by
    rw [List.length_reverse, List.length_take, Nat.min_eq_left hlen]
  obtain ⟨opcode, n, hn⟩ := i
  unfold Instruction.operandCount? at hi
  dsimp only at hi
  split at hi
  · obtain ⟨op, hop, rfl⟩ := Option.map_eq_some_iff.1 hi
    obtain ⟨a, hoperands⟩ := List.length_eq_one_iff.1 hcount
    exact ⟨.unary op a, rfl, (Family.eq_code (by decide) hop).symm, hoperands.symm⟩
  · obtain ⟨op, hop, rfl⟩ := Option.map_eq_some_iff.1 hi
    obtain ⟨a, b, hoperands⟩ := List.length_eq_two.1 hcount
    exact ⟨.binary op a b, rfl, (Family.eq_code (by decide) hop).symm, hoperands.symm⟩
  · obtain ⟨op, hop, rfl⟩ := Option.map_eq_some_iff.1 hi
    obtain ⟨a, b, c, hoperands⟩ := List.length_eq_three.1 hcount
    exact ⟨.ternary op a b c, rfl, (Family.eq_code (by decide) hop).symm, hoperands.symm⟩
  · obtain ⟨op, hop, rfl⟩ := Option.map_eq_some_iff.1 hi
    obtain ⟨a, b, c, d, hoperands⟩ := List.length_eq_four.1 hcount
    exact ⟨.quaternary op a b c d, rfl, (Family.eq_code (by decide) hop).symm, hoperands.symm⟩
  · cases hi

namespace Run

variable {call : Caller} {s : Script Value} {base pos : Nat} {m : Machine}

theorem step_operands (ap : Application) (hi : s.HasInstr pos (ap.opcode, ap.code))
    (hbase : base ≤ m.context.stack.length) :
    step call s base pos (m.above ap.operands.reverse m.store) = (.ok (.goto (pos + 1)),
      m.above [(ap.result m.store).1] (ap.result m.store).2) := by
  match ap with
  | .unary op a => exact step_unary hi hbase
  | .binary op a b => exact step_binary hi hbase
  | .ternary op a b c => exact step_ternary hi hbase
  | .quaternary op a b c d => exact step_quaternary hi hbase

variable (call m) in
/-- An instruction that names an operator goes on if the frame has the operands: the result of the
operator takes their place, and only the store may be another one besides. -/
theorem step_application {i : Instruction} {k : Nat} (hi : s.code[pos]? = some i)
    (hk : i.operandCount? = some k) (hframe : base + k ≤ m.context.stack.length) :
    ∃ ap : Application, ap.opcode = i.opcode ∧ ap.code = i.operand ∧
      ap.operands = (m.context.stack.take k).reverse ∧
      step call s base pos m = (.ok (.goto (pos + 1)),
        ⟨{ m.context with stack := (ap.result m.store).1 :: m.context.stack.drop k },
          (ap.result m.store).2⟩) := by
  have hlen : k ≤ m.context.stack.length := by omega
  obtain ⟨ap, hopcode, hcode, hoperands⟩ := exists_application hk hlen
  refine ⟨ap, hopcode, hcode, hoperands, ?_⟩
  let rest : Machine := { m with context := { m.context with stack := m.context.stack.drop k } }
  have hm : m = rest.above ap.operands.reverse rest.store := by
    show m = ⟨{ m.context with stack := ap.operands.reverse ++ m.context.stack.drop k }, m.store⟩
    rw [hoperands, List.reverse_reverse, List.take_append_drop]
  have hinstr : s.HasInstr pos (ap.opcode, ap.code) := by
    rw [hopcode, hcode]
    exact ⟨i.operand_lt, hi⟩
  have hbase : base ≤ rest.context.stack.length := by
    show base ≤ (m.context.stack.drop k).length
    rw [List.length_drop]
    omega
  have hstep : step call s base pos (rest.above ap.operands.reverse rest.store) = _ :=
    step_operands ap hinstr hbase
  rw [← hm] at hstep
  exact hstep

end Run

/-! ## Chains of operators -/

/-- Evaluating the term from one store to another brings up a delayed error somewhere in it, and from
there to the whole term there are only operators on one or two operands. The other operand of such an
operator is evaluated as well; if it stands on the left, it is no error. -/
inductive Term.Carries (vars : Variable → Option Value) (e : EvalError) : Term → Store → Store → Prop
  | here {t : Term} {st st' : Store} :
    t.evaluate vars st = (.ok (.error e), st') → Carries vars e t st st'
  | unary {t : Term} {st st' : Store} (op : UnaryOp) :
    Carries vars e t st st' → Carries vars e (.unary op t) st st'
  | left {t other : Term} {st st₁ st' : Store} {op : BinaryOp} {v : Value} : op ≠ .orElse →
    Carries vars e t st st₁ → other.evaluate vars st₁ = (.ok v, st') →
    Carries vars e (.binary op t other) st st'
  | right {t other : Term} {st st₁ st' : Store} {op : BinaryOp} {v : Value} : op ≠ .orElse →
    other.evaluate vars st = (.ok v, st₁) → v.isError = false → Carries vars e t st₁ st' →
    Carries vars e (.binary op other t) st st'

variable {vars : Variable → Option Value} {e : EvalError} {t : Term} {st st' : Store}

/-- The error comes out of the chain as it came up. -/
theorem Term.Carries.evaluate (h : t.Carries vars e st st') :
    t.evaluate vars st = (.ok (.error e), st') := by
  induction h with
  | here h => exact h
  | unary op _ ih =>
    unfold Term.evaluate
    rw [Calculation.run_bind, ih]
    rfl
  | left hop _ hother ih =>
    unfold Term.evaluate
    rw [Calculation.run_bind, ih]
    dsimp only
    rw [Calculation.run_bind, hother]
    dsimp only
    rw [binary_error_left hop]
    rfl
  | right hop hother hsound _ ih =>
    unfold Term.evaluate
    rw [Calculation.run_bind, hother]
    dsimp only
    rw [Calculation.run_bind, ih]
    dsimp only
    rw [binary_error_right hop hsound]
    rfl

/-- OR_ELSE gives what stands on its right for an error on its left. -/
theorem Term.evaluate_orElse (h : t.evaluate vars st = (.ok (.error e), st')) (fallback : Term) :
    (Term.binary .orElse t fallback).evaluate vars st = fallback.evaluate vars st' := by
  show (do
    let x ← t.evaluate vars
    let y ← fallback.evaluate vars
    Operator.binary .orElse x y : Calculation Value) st = _
  rw [Calculation.run_bind, h]
  dsimp only
  rw [Calculation.run_bind]
  rcases fallback.evaluate vars st' with ⟨e | v, st''⟩
  · rfl
  · rfl

namespace Run

/-- The script of a chain gets to where its OR_ELSE, if that comes next, takes the error from the
stack as its left operand. -/
theorem goes_of_carries {call : Caller} {s : Script Value} {base pos n : Nat} {m : Machine}
    (hcode : s.HasCode pos (t.code pos n)) (hconst : s.HasConstants n t.constants)
    (hbase : base ≤ m.context.stack.length)
    (h : t.Carries m.context.env.get? e m.store st') :
    Goes call s base t.size pos m (pos + t.size) (m.above [.error e] st') := by
  have hcomputes : Produces call s base t.size pos m m (pos + t.size) ([·]) _ :=
    computes_term t hcode hconst m rfl hbase
  rw [h.evaluate] at hcomputes
  exact hcomputes

/-- **Operators never fail and never lose an error.** An instruction that names an operator goes on
whatever the operands are, and leaves what the operator gives. An error among the operands makes that
an error, on one or two operands the first of them as it is, except for OR_ELSE, which gives its
right operand just if the left one is an error. So through a chain of operators on one or two
operands an error gets to the next OR_ELSE as it came up. -/
theorem operators_keep_errors :
    (∀ (call : Caller) (s : Script Value) (base pos : Nat) (m : Machine) (i : Instruction) (k : Nat),
      s.code[pos]? = some i → i.operandCount? = some k → base + k ≤ m.context.stack.length →
        ∃ ap : Application, ap.opcode = i.opcode ∧ ap.code = i.operand ∧
          ap.operands = (m.context.stack.take k).reverse ∧
          step call s base pos m = (.ok (.goto (pos + 1)),
            ⟨{ m.context with stack := (ap.result m.store).1 :: m.context.stack.drop k },
              (ap.result m.store).2⟩)) ∧
    (∀ ap : Application, ap.recovers = false →
      (∀ v ∈ ap.operands, v.isError = true → ∀ st, (ap.result st).1.isError = true) ∧
      (ap.operands.length ≤ 2 → ∀ v, ap.operands.find? Value.isError = some v →
        ap.result = pure v)) ∧
    (∀ a b : Value, Application.result (.binary .orElse a b) = pure (if a.isError then b else a)) ∧
    (∀ (vars : Variable → Option Value) (e : EvalError) (t fallback : Term) (st st' : Store),
      t.Carries vars e st st' →
        t.evaluate vars st = (.ok (.error e), st') ∧
        (Term.binary .orElse t fallback).evaluate vars st = fallback.evaluate vars st' ∧
        ∀ (call : Caller) (s : Script Value) (base pos n : Nat) (m : Machine),
          s.HasCode pos (t.code pos n) → s.HasConstants n t.constants →
          base ≤ m.context.stack.length → m.context.env.get? = vars → m.store = st →
            Goes call s base t.size pos m (pos + t.size) (m.above [.error e] st')) := by
  refine ⟨fun call s base pos m i k hi hk hframe => step_application call m hi hk hframe,
    fun ap hop => ⟨fun v hv herror st => Application.isError_result hop hv herror st,
      fun hfew v hfirst => Application.result_eq_firstError hfew hop hfirst⟩, binary_orElse, ?_⟩
  intro vars e t fallback st st' h
  refine ⟨h.evaluate, Term.evaluate_orElse h.evaluate fallback, ?_⟩
  intro call s base pos n m hcode hconst hbase hvars hst
  subst hvars hst
  exact goes_of_carries hcode hconst hbase h

/-- A quotient without value, negated and added to 2. -/
def spoiledSum : Term :=
  .binary .add (.const (.int 2)) (.unary .negate (.binary .div (.const (.int 1)) (.const (.int 0))))

/-- The code of `spoiledSum` with the operator that recovers from its error. -/
def recoveringScript : Script Value :=
  let b := (Term.binary .orElse spoiledSum (.const (.int 5))).assemble
  ⟨0, b.code, b.constants⟩

theorem operators_keep_errors_spoiledSum :
    (Term.binary .orElse spoiledSum (.const (.int 5))).evaluate machineInScope.context.env.get?
        machineInScope.store = (.ok (.int 5), machineInScope.store) ∧
      Goes (callFor 8) recoveringScript 0 spoiledSum.size 0 machineInScope spoiledSum.size
        (machineInScope.above [.error .divisionByZero] machineInScope.store) ∧
      (Application.result (.binary .div (.int 1) (.error .integerOverflow))
        machineInScope.store).1 = .error .integerOverflow ∧
      ∃ m, step (callFor 8) recoveringScript 0 3 ⟨{ machineInScope.context with
        stack := [.int 0, .int 1, .int 2] }, machineInScope.store⟩ = (.ok (.goto 4), m) := by
  obtain ⟨hstep, herror, -, hchain⟩ := operators_keep_errors
  have hquotient : (Term.binary .div (.const (.int 1)) (.const (.int 0))).Carries
      machineInScope.context.env.get? .divisionByZero machineInScope.store machineInScope.store :=
    .here rfl
  have hspoiled : spoiledSum.Carries machineInScope.context.env.get? .divisionByZero
      machineInScope.store machineInScope.store :=
    .right (by decide) rfl rfl (.unary .negate hquotient)
  obtain ⟨-, hrecovered, hgoes⟩ := hchain _ _ _ (.const (.int 5)) _ _ hspoiled
  have hcode : recoveringScript.HasCode 0
      (spoiledSum.code 0 0 ++ [(.pushConst, 3), (.binary, 20), (.ret, 0)]) :=
    Script.hasCode_of_ops rfl
  have hconst : recoveringScript.HasConstants 0 (spoiledSum.constants ++ [.int 5]) :=
    Script.hasConstants_of_toList rfl
  refine ⟨hrecovered, hgoes (callFor 8) recoveringScript 0 0 0 machineInScope
    (eachAt_append.1 hcode).1 (eachAt_append.1 hconst).1 (Nat.zero_le _) rfl rfl, ?_, ?_⟩
  · rw [(herror (.binary .div (.int 1) (.error .integerOverflow)) rfl).2 (Nat.le_refl 2) _ rfl]
    rfl
  · obtain ⟨ap, -, -, -, h⟩ := hstep (callFor 8) recoveringScript 0 3 ⟨{ machineInScope.context with
      stack := [.int 0, .int 1, .int 2] }, machineInScope.store⟩ _ 2 rfl rfl (by decide)
    exact ⟨_, h⟩

end Run

end ReactiveScript
