import Mathlib.Data.List.Basic
import ReactiveScript.Proofs.Balance
import ReactiveScript.Proofs.CallSwap

/-
  What instructions do to the height of a frame.

  `heightAlong` follows the height through a piece of code by the table of what each instruction
  takes and leaves. The table says what running an instruction does whenever it goes on behind it
  (`step_height`): an instruction that is no call by what its parts take and leave (`Moves`), a call
  because the function that it calls leaves the operands alone. So the heights are those of a run
  through the piece (`Arrives.height`).
-/

namespace ReactiveScript

/-! ## Heights -/

/-- A run goes on behind the instruction, if at all: it is no jump, loop or return. -/
def Opcode.isStraight : Opcode → Bool
  | .jump | .jumpIfNot | .jumpScAnd | .jumpScOr | .loop | .loopWithKey | .ret => false
  | _ => true

/-- The height above a floor after an instruction, unless it takes a value from below the floor. -/
def Instruction.heightAfter (i : Instruction) (height : Nat) : Option Nat :=
  if i.popsAndPushes.1 ≤ height then some (height - i.popsAndPushes.1 + i.popsAndPushes.2) else none

/-- The height above a floor after some instructions, unless one of them takes a value from below
the floor. -/
def heightAlong : List Instruction → Nat → Option Nat
  | [], height => some height
  | i :: rest, height => (i.heightAfter height).bind (heightAlong rest)

theorem heightAlong_append (code code' : List Instruction) (height : Nat) :
    heightAlong (code ++ code') height = (heightAlong code height).bind (heightAlong code') := by
  induction code generalizing height with
  | nil => rfl
  | cons i rest ih =>
    show (i.heightAfter height).bind (heightAlong (rest ++ code')) = _
    rw [funext ih]
    exact (Option.bind_assoc ..).symm

theorem Instruction.heightAfter_eq {i : Instruction} {height : Nat} (height' : Nat)
    (htakes : i.popsAndPushes.1 ≤ height)
    (h : height' + i.popsAndPushes.1 = height + i.popsAndPushes.2) :
    i.heightAfter height = some height' := by
  unfold heightAfter
  rw [if_pos htakes]
  congr 1
  omega

/-- Records of argument names take and leave nothing. -/
theorem heightAlong_records {records : List Instruction}
    (h : ∀ r ∈ records, r.opcode = .setVar) (height : Nat) :
    heightAlong records height = some height := by
  induction records with
  | nil => rfl
  | cons r rest ih =>
    obtain ⟨hr, hrest⟩ := List.forall_mem_cons.1 h
    have hnone : r.popsAndPushes = (0, 0) := by
      unfold Instruction.popsAndPushes
      rw [hr]
    show (r.heightAfter height).bind _ = _
    rw [Instruction.heightAfter_eq height (by rw [hnone]; omega) (by rw [hnone])]
    exact ih hrest

namespace Script

variable {α : Type} {s : Script α} {start mid stop : Nat} {i : Instruction}

/-- The instructions from a position up to another one. -/
def between (s : Script α) (start stop : Nat) : List Instruction :=
  (s.code.toList.drop start).take (stop - start)

/-- No instruction is a jump, a loop or a return. -/
def IsStraight (s : Script α) : Prop := ∀ i ∈ s.code, i.opcode.isStraight = true

theorem IsStraight.get (hs : s.IsStraight) {pos : Nat} (hi : s.code[pos]? = some i) :
    i.opcode.isStraight = true :=
  hs i (Array.mem_of_getElem? hi)

variable (s) in
theorem between_self (pos : Nat) : s.between pos pos = [] := by
  unfold between
  rw [Nat.sub_self, List.take_zero]

theorem between_cons (hi : s.code[start]? = some i) (hlt : start < stop) :
    s.between start stop = i :: s.between (start + 1) stop := by
  obtain ⟨hstart, rfl⟩ := Array.getElem?_eq_some_iff.1 hi
  have hcons : s.code.toList.drop start = s.code[start] :: s.code.toList.drop (start + 1) :=
    List.drop_eq_getElem_cons hstart
  unfold between
  rw [hcons, show stop - start = stop - (start + 1) + 1 by omega, List.take_succ_cons]

theorem between_append (hmid : start ≤ mid) (hstop : mid ≤ stop) :
    s.between start stop = s.between start mid ++ s.between mid stop := by
  unfold between
  rw [show stop - start = (mid - start) + (stop - mid) by omega, List.take_add, List.drop_drop,
    Nat.add_sub_of_le hmid]

theorem mem_between (hi : i ∈ s.between start stop) :
    ∃ k, start ≤ k ∧ k < stop ∧ s.code[k]? = some i := by
  obtain ⟨k, hk⟩ := List.mem_iff_getElem?.1 hi
  unfold between at hk
  rw [List.getElem?_take] at hk
  split at hk
  · rw [List.getElem?_drop, Array.getElem?_toList] at hk
    exact ⟨start + k, by omega, by omega, hk⟩
  · cases hk

/-- What a call reads as names of its arguments are such records. -/
theorem params_records {s : Script Value} {n pos : Nat} {params : List Variable}
    (h : s.params pos n = .ok params) : ∀ r ∈ s.between pos (pos + n), r.opcode = .setVar := by
  induction n generalizing pos params with
  | zero =>
    intro r hr
    rw [Nat.add_zero, between_self] at hr
    cases hr
  | succ n ih =>
    unfold Script.params at h
    split at h
    · next i hi =>
      split at h
      · next hset =>
        rcases hrest : s.params (pos + 1) n with e | rest
        · rw [hrest] at h
          cases h
        · rw [between_cons hi (by omega), show pos + (n + 1) = pos + 1 + n by omega]
          exact List.forall_mem_cons.2 ⟨hset, ih hrest⟩
      · cases h
    · cases h

end Script

namespace Run

variable {α β : Type} {base pos : Nat}

/-! ## What parts of an instruction take and leave -/

/-- If the evaluation comes to a value, then one that `post` admits, and it has taken `pops` values
from the frame and left `pushes` other ones. -/
def Moves (base pops pushes : Nat) (post : α → Prop) (x : Run α) : Prop :=
  ∀ ⦃m : Machine⦄ ⦃a : α⦄ ⦃m' : Machine⦄, base ≤ m.context.stack.length → x m = (.ok a, m') →
    base + pops ≤ m.context.stack.length ∧
      m'.context.stack.length + pops = m.context.stack.length + pushes ∧ post a

/-- No condition on a value. -/
def anyResult (_ : α) : Prop := True

variable {pops pops' pushes pushes' : Nat} {P : α → Prop} {Q : β → Prop}

/-- The second part may take values that the first one left. -/
theorem Moves.bind {x : Run α} {f : α → Run β} (hx : Moves base pops pushes P x)
    (hf : ∀ a, P a → Moves base pops' pushes' Q (f a)) :
    Moves base (pops + (pops' - pushes)) (pushes' + (pushes - pops')) Q (x >>= f) := by
  intro m b m'' hbase h
  obtain ⟨a, m', hxm, hfm⟩ := run_bind_eq_ok h
  obtain ⟨htakes, hlen, ha⟩ := hx hbase hxm
  obtain ⟨htakes', hlen', hb⟩ := hf a ha (by omega) hfm
  exact ⟨by omega, by omega, hb⟩

theorem moves_pure {a : α} (h : P a) : Moves base 0 0 P (pure a : Run α) := by
  intro m b m' hbase hb
  cases hb
  exact ⟨hbase, rfl, h⟩

theorem moves_goto (next : Nat) : Moves base 0 0 (· = Next.goto next) (pure (.goto next)) :=
  moves_pure rfl

theorem moves_fail (e : EvalError) : Moves base pops pushes P (fail e : Run α) := by
  intro m a m' _ h
  cases h

theorem Neutral.moves {x : Run α} (h : Neutral x) : Moves base 0 0 anyResult x := by
  intro m a m' hbase hx
  have hstack := (h.of_ok hx).1.stack
  exact ⟨hbase, congrArg List.length hstack, trivial⟩

theorem moves_push (v : Value) : Moves base 0 1 anyResult (push v) := by
  intro m a m' hbase h
  cases h
  exact ⟨hbase, rfl, trivial⟩

theorem moves_pop : Moves base 1 0 anyResult (pop base pos) := by
  intro m a m' _ h
  rw [pop, run_bind_ok (run_operands m)] at h
  cases hstack : m.context.stack with
  | nil =>
    rw [hstack] at h
    cases h
  | cons v rest =>
    rw [hstack] at h
    dsimp only at h
    by_cases hle : base ≤ rest.length
    · rw [if_pos hle] at h
      cases h
      exact ⟨Nat.succ_le_succ hle, rfl, trivial⟩
    · rw [if_neg hle] at h
      cases h

theorem moves_popMany (n : Nat) :
    Moves base n 0 (fun values => values.length = n) (popMany base pos n) := by
  intro m a m' _ h
  rw [popMany, run_bind_ok (run_operands m)] at h
  by_cases hlt : m.context.stack.length < base + n
  · rw [if_pos hlt] at h
    cases h
  · rw [if_neg hlt] at h
    cases h
    refine ⟨by omega, ?_, ?_⟩
    · show (m.context.stack.drop n).length + n = m.context.stack.length
      rw [List.length_drop]
      omega
    · show (m.context.stack.take n).reverse.length = n
      rw [List.length_reverse, List.length_take]
      omega

theorem Moves.of_eq {x : Run α} (h : Moves base pops' pushes' P x) (hpops : pops' = pops)
    (hpushes : pushes' = pushes) : Moves base pops pushes P x := by
  subst hpops hpushes
  exact h

/-- A value is pushed, and the run goes on. -/
theorem moves_pushed (v : Value) (next : Nat) :
    Moves base 0 1 (· = Next.goto next) (do
      push v
      return Next.goto next) :=
  (moves_push v).bind fun _ _ => moves_goto next

/-- What comes from the store is pushed, and the run goes on. -/
theorem moves_pushStored (x : StateM Store Value) (next : Nat) :
    Moves base 0 1 (· = Next.goto next) (do
      push (← store x)
      return Next.goto next) :=
  (neutral_store x).moves.bind fun v _ => moves_pushed v next

/-! ## Instructions -/

variable {call : Caller} {s : Script Value} {m m' : Machine} {next n : Nat}

/-- An instruction that is no call, jump, loop or return takes and leaves what the table says. -/
theorem moves_stepInstr (call : Caller) (s : Script Value) (base pos : Nat) {i : Instruction}
    (hstraight : i.opcode.isStraight = true)
    (hcall : i.opcode ≠ .call ∧ i.opcode ≠ .closure ∧ i.opcode ≠ .tailCall) :
    Moves base i.popsAndPushes.1 i.popsAndPushes.2 (· = .goto (pos + 1))
      (stepInstr call s base pos i) := by
  obtain ⟨op, n, hn⟩ := i
  cases op with
  | jump | jumpIfNot | jumpScAnd | jumpScOr | loop | loopWithKey | ret => cases hstraight
  | call => exact absurd rfl hcall.1
  | closure => exact absurd rfl hcall.2.1
  | tailCall => exact absurd rfl hcall.2.2
  | nop => exact moves_goto _
  | pushConst => exact ((neutral_ofExcept _).moves.bind fun v _ => moves_pushed v _).of_eq rfl rfl
  | pop => exact (moves_pop.bind fun _ _ => moves_goto _).of_eq rfl rfl
  | dup =>
    have hcopy : ∀ stack : List Value, Moves base 0 1 (· = Next.goto (pos + 1))
        (if n ≥ stack.length - base then failAt pos "DUP below frame" else do
          push (stack[n]?.getD .nil)
          return Next.goto (pos + 1)) := by
      intro stack
      split
      · exact moves_fail _
      · exact moves_pushed _ _
    exact (neutral_operands.moves.bind fun stack _ => hcopy stack).of_eq rfl rfl
  | getVar => exact ((neutral_readVariable _).moves.bind fun v _ => moves_pushed v _).of_eq rfl rfl
  | setVar =>
    have hbind : ∀ v, Moves base 0 0 anyResult (bindVariable ⟨n⟩ v) := by
      intro v m a m' hbase h
      cases h
      exact ⟨hbase, rfl, trivial⟩
    exact ((neutral_top base pos).moves.bind fun v _ =>
      (hbind v).bind fun _ _ => moves_goto _).of_eq rfl rfl
  | memberC =>
    exact ((neutral_ofExcept _).moves.bind fun key _ =>
      moves_pop.bind fun object _ => moves_pushed _ _).of_eq rfl rfl
  | makeObject =>
    exact ((moves_popMany (2 * n)).bind fun values _ => moves_pushStored _ _).of_eq rfl rfl
  | unary =>
    exact ((neutral_ofExcept _).moves.bind fun op _ =>
      moves_pop.bind fun a _ => moves_pushStored _ _).of_eq rfl rfl
  | binary =>
    exact ((neutral_ofExcept _).moves.bind fun op _ =>
      moves_pop.bind fun b _ => moves_pop.bind fun a _ => moves_pushStored _ _).of_eq rfl rfl
  | ternary =>
    refine ((neutral_ofExcept _).moves.bind fun op _ => (moves_popMany 3).bind fun values hlen =>
      (?_ : Moves base 0 1 (· = Next.goto (pos + 1)) _)).of_eq rfl rfl
    obtain ⟨a, b, c, rfl⟩ := List.length_eq_three.1 hlen
    exact moves_pushed _ _
  | quaternary =>
    refine ((neutral_ofExcept _).moves.bind fun op _ => (moves_popMany 4).bind fun values hlen =>
      (?_ : Moves base 0 1 (· = Next.goto (pos + 1)) _)).of_eq rfl rfl
    obtain ⟨a, b, c, d, rfl⟩ := List.length_eq_four.1 hlen
    exact moves_pushed _ _

/-- A called function leaves the operands alone, and its result comes to stand on them. -/
theorem moves_stepPlainCall (hneutral : ∀ f args, Neutral (call f args)) (next : Nat)
    (function : Value) (bindings : Bindings) :
    Moves base 0 1 (· = .goto next) (stepPlainCall call s pos next function bindings) := by
  have hattempt : Neutral (attempt (call function bindings)) := (hneutral function bindings).attempt
  refine (hattempt.moves.bind fun r _ => (?_ : Moves base 0 1 (· = Next.goto next) _)).of_eq rfl rfl
  cases r with
  | ok v => exact moves_pushed v next
  | error e =>
    have hfail : Moves base 0 1 (· = Next.goto next) (fail e : Run Next) := moves_fail e
    exact ((neutral_store _).moves.bind fun frame _ =>
      (neutral_noteFrame frame).moves.bind fun _ _ => hfail).of_eq rfl rfl

/-- The parts of a call are its arguments and the function below them. -/
theorem moves_callParts (s : Script Value) (base pos n : Nat) :
    Moves base (n + 1) 0 (fun _ => ∃ params, s.params (pos + 1) n = .ok params)
      (callParts s base pos n) := by
  intro m parts m' hbase h
  unfold callParts at h
  obtain ⟨params, m₁, hparams, hrest⟩ := run_bind_eq_ok h
  have hread : s.params (pos + 1) n = .ok params ∧ m₁ = m := by
    rw [run_ofExcept] at hparams
    cases hp : s.params (pos + 1) n with
    | ok params' =>
      rw [hp] at hparams
      cases hparams
      exact ⟨rfl, rfl⟩
    | error e =>
      rw [hp] at hparams
      cases hparams
  obtain ⟨hread, rfl⟩ := hread
  have hparts : Moves base (n + 1) 0 anyResult (do
      let args ← popMany base pos n
      let function ← pop base pos
      return (function, params.zip args)) :=
    ((moves_popMany n).bind fun args _ => moves_pop.bind fun function _ =>
      moves_pure trivial).of_eq rfl rfl
  obtain ⟨htakes, hlen, -⟩ := hparts hbase hrest
  exact ⟨htakes, hlen, params, hread⟩

theorem stepCall_closure (call : Caller) (s : Script Value) (base pos n : Nat) :
    stepCall call s base pos n .closure = (do
      let parts ← callParts s base pos n
      push (← store (partialApply parts.1 parts.2))
      return .goto (pos + 1 + n)) := by
  unfold stepCall callParts
  simp only [bind_assoc, pure_bind]
  rfl

/-- A call that goes on takes its parts and leaves one value, and goes on behind the records of its
arguments. -/
theorem stepCall_height (hneutral : ∀ f args, Neutral (call f args)) {op : Opcode}
    (hop : op = .call ∨ op = .closure ∨ op = .tailCall) (hbase : base ≤ m.context.stack.length)
    (h : stepCall call s base pos n op m = (.ok (.goto next), m')) :
    next = pos + 1 + n ∧ (∃ params, s.params (pos + 1) n = .ok params) ∧
      base + (n + 1) ≤ m.context.stack.length ∧
      m'.context.stack.length + (n + 1) = m.context.stack.length + 1 := by
  have hrest : ∃ f : Value × Bindings → Run Next,
      (callParts s base pos n >>= f) m = (.ok (.goto next), m') ∧
      ∀ parts m₁, base ≤ m₁.context.stack.length → f parts m₁ = (.ok (.goto next), m') →
        m'.context.stack.length = m₁.context.stack.length + 1 ∧ next = pos + 1 + n := by
    have hgoes : ∀ {x : Run Next} {m₁ : Machine}, Moves base 0 1 (· = .goto (pos + 1 + n)) x →
        base ≤ m₁.context.stack.length → x m₁ = (.ok (.goto next), m') →
        m'.context.stack.length = m₁.context.stack.length + 1 ∧ next = pos + 1 + n := by
      intro x m₁ hx hbase h
      obtain ⟨-, hlen, hnext⟩ := hx hbase h
      cases hnext
      exact ⟨hlen, rfl⟩
    rcases hop with rfl | rfl | rfl
    · rw [stepCall_call] at h
      exact ⟨_, h, fun parts m₁ hbase h => hgoes (moves_stepPlainCall hneutral _ _ _) hbase h⟩
    · rw [stepCall_closure] at h
      exact ⟨_, h, fun parts m₁ hbase h => hgoes (moves_pushStored _ _) hbase h⟩
    · rw [stepCall_tailCall] at h
      refine ⟨_, h, fun parts m₁ hbase h => ?_⟩
      rw [run_bind_ok (run_height m₁)] at h
      cases htarget : (if m₁.context.stack.length == base then tailScript? parts.1 parts.2
        else none) with
      | some target =>
        rw [htarget] at h
        cases h
      | none =>
        rw [htarget] at h
        exact hgoes (moves_stepPlainCall hneutral _ _ _) hbase h
  obtain ⟨f, hf, hmoves⟩ := hrest
  obtain ⟨parts, m₁, hparts, hf⟩ := run_bind_eq_ok hf
  obtain ⟨htakes, hlen, hparams⟩ := moves_callParts s base pos n hbase hparts
  obtain ⟨hlen', hnext⟩ := hmoves parts m₁ (by omega) hf
  exact ⟨hnext, hparams, htakes, by omega⟩

/-- **The table of effects is right.** Whenever a run goes on behind an instruction, the height of
its frame is the one that the table gives for the instruction and the records behind it. -/
theorem step_height (hneutral : ∀ f args, Neutral (call f args)) {i : Instruction}
    (hi : s.code[pos]? = some i) (hstraight : i.opcode.isStraight = true)
    (hbase : base ≤ m.context.stack.length)
    (h : step call s base pos m = (.ok (.goto next), m')) :
    pos < next ∧ base ≤ m'.context.stack.length ∧
      heightAlong (s.between pos next) (m.context.stack.length - base) =
        some (m'.context.stack.length - base) := by
  unfold step at h
  rw [hi] at h
  dsimp only at h
  have hafter : ∀ {k : Nat}, next = pos + 1 + k →
      (∀ r ∈ s.between (pos + 1) next, r.opcode = .setVar) →
      base + i.popsAndPushes.1 ≤ m.context.stack.length →
      m'.context.stack.length + i.popsAndPushes.1 = m.context.stack.length + i.popsAndPushes.2 →
      pos < next ∧ base ≤ m'.context.stack.length ∧
        heightAlong (s.between pos next) (m.context.stack.length - base) =
          some (m'.context.stack.length - base) := by
    intro k hnext hrecords htakes hlen
    refine ⟨by omega, by omega, ?_⟩
    rw [Script.between_cons hi (by omega)]
    show (i.heightAfter _).bind _ = _
    rw [Instruction.heightAfter_eq (m'.context.stack.length - base) (by omega) (by omega)]
    exact heightAlong_records hrecords _
  by_cases hcall : i.opcode = .call ∨ i.opcode = .closure ∨ i.opcode = .tailCall
  · have hcalled : stepCall call s base pos i.operand i.opcode m = (.ok (.goto next), m') ∧
        i.popsAndPushes = (i.operand + 1, 1) := by
      obtain ⟨op, n, hn⟩ := i
      rcases hcall with rfl | rfl | rfl <;> exact ⟨h, rfl⟩
    obtain ⟨hstep, heffect⟩ := hcalled
    obtain ⟨hnext, ⟨params, hparams⟩, htakes, hlen⟩ := stepCall_height hneutral hcall hbase hstep
    have hrecords := Script.params_records hparams
    rw [← hnext] at hrecords
    refine hafter hnext hrecords ?_ ?_
    · rw [heffect]
      exact htakes
    · rw [heffect]
      exact hlen
  · simp only [not_or] at hcall
    obtain ⟨htakes, hlen, hnext⟩ := moves_stepInstr call s base pos hstraight hcall hbase h
    cases hnext
    have hrecords : ∀ r ∈ s.between (pos + 1) (pos + 1), r.opcode = .setVar := by
      rw [Script.between_self]
      exact fun r hr => by cases hr
    exact hafter (Nat.add_zero _).symm hrecords htakes hlen

/-- At the end of the code a run leaves. -/
theorem exists_instr_of_goto (h : step call s base pos m = (.ok (.goto next), m')) :
    ∃ i, s.code[pos]? = some i := by
  unfold step at h
  cases hi : s.code[pos]? with
  | some i => exact ⟨i, rfl⟩
  | none =>
    rw [hi] at h
    obtain ⟨v, m₁, -, h⟩ := run_bind_eq_ok h
    cases h

/-- The heights along a piece of code are those of a run through it. -/
theorem Arrives.height {k goal : Nat} (hneutral : ∀ f args, Neutral (call f args))
    (hs : s.IsStraight) (h : Arrives call s base k pos m goal m')
    (hbase : base ≤ m.context.stack.length) :
    pos ≤ goal ∧ base ≤ m'.context.stack.length ∧
      heightAlong (s.between pos goal) (m.context.stack.length - base) =
        some (m'.context.stack.length - base) := by
  induction h with
  | here pos m =>
    refine ⟨Nat.le_refl pos, hbase, ?_⟩
    rw [Script.between_self]
    rfl
  | step hstep _ ih =>
    obtain ⟨i, hi⟩ := exists_instr_of_goto hstep
    obtain ⟨hlt, hbase₁, hheight⟩ := step_height hneutral hi (hs.get hi) hbase hstep
    obtain ⟨hle, hbase₂, hheight₂⟩ := ih hbase₁
    refine ⟨by omega, hbase₂, ?_⟩
    rw [Script.between_append (Nat.le_of_lt hlt) hle, heightAlong_append, hheight]
    exact hheight₂

end Run

end ReactiveScript
