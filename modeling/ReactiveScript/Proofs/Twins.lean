import Mathlib.Data.List.Induction
import ReactiveScript.Proofs.Retention
import ReactiveScript.Proofs.Run

/-
  Machines that an evaluation can not tell apart.

  An evaluation sees the values of variables, but not the scopes that they are bound in, and it sees
  how deep calls are nested only where it comes to the limit. Two machines are twins if they agree on
  what is seen, and go on to do so when the open scopes are closed (`Machine.Twins`). The
  scopes may hide the same bindings in another order. An instruction comes to the same on twins
  (`step_alike`), except that the left evaluation may run out of budget first and that the one in
  which calls are nested deeper may be the only one that hits a limit.
-/

namespace ReactiveScript

/-! ## Listings of arguments -/

/-- The first delayed error among the arguments of a call. -/
def firstError? (args : Bindings) : Option Value := (args.find? fun b => b.2.isError).map Prod.snd

/-- Two listings of bindings give each variable the same last value. -/
def SameLast (bindings others : Bindings) : Prop :=
  ∀ var, Assoc.find? var bindings.reverse = Assoc.find? var others.reverse

namespace SameLast

variable {xs ys zs xs' ys' : Bindings}

theorem refl (xs : Bindings) : SameLast xs xs := fun _ => rfl

theorem symm (h : SameLast xs ys) : SameLast ys xs := fun var => (h var).symm

theorem trans (h : SameLast xs ys) (h' : SameLast ys zs) : SameLast xs zs :=
  fun var => (h var).trans (h' var)

theorem append (h : SameLast xs xs') (h' : SameLast ys ys') : SameLast (xs ++ ys) (xs' ++ ys') := by
  intro var
  rw [List.reverse_append, List.reverse_append, Assoc.find?_append, Assoc.find?_append, h var,
    h' var]

end SameLast

/-! ## Variables of the same slots -/

namespace Environment

/-- Of several values for a variable the last one is bound. -/
theorem slot?_setAll_last (env : Environment) (bindings : Bindings) (var : Variable) :
    (env.setAll bindings).slot? var =
      ((Assoc.find? var bindings.reverse).map (Slot.mk env.level)).or (env.slot? var) := by
  induction bindings using List.reverseRecOn with
  | nil => rfl
  | append_singleton rest b ih =>
    have hset : env.setAll (rest ++ [b]) = (env.setAll rest).set b.1 b.2 := List.foldl_append ..
    rw [hset, slot?_set, level_setAll, ih, List.reverse_append, Assoc.find?_append]
    by_cases hb : b.1 = var
    · simp [Assoc.find?, hb]
    · simp [Assoc.find?, hb]

/-- Variables can not be told apart: they have the same slots. They also do when the scopes with the
given marks are closed, the innermost first; what a scope hid may stand in another order. -/
inductive Twins : List (Nat × Nat) → Environment → Environment → Prop
  | outer {marks : List (Nat × Nat)} {e f : Environment} : e.Same f →
    (∀ mark ∈ marks, mark.1 = mark.2) → Twins marks e f
  | within {marks : List (Nat × Nat)} {o p e f : Environment} : Twins marks o p → o.Nested e →
    p.Nested f → (∀ var, f.slot? var = e.slot? var) →
    Twins ((o.hiddenCount, p.hiddenCount) :: marks) e f

variable {marks : List (Nat × Nat)} {e f e' f' : Environment}

namespace Twins

theorem slot? (h : Twins marks e f) (var : Variable) : f.slot? var = e.slot? var := by
  cases h with
  | outer h _ => exact (h.slots var).symm
  | within _ _ _ hslots => exact hslots var

theorem level (h : Twins marks e f) : f.level = e.level := by
  induction h with
  | outer h _ => exact h.level.symm
  | within _ he hf _ ih => rw [he.level, hf.level, ih]

theorem boundedAt (h : Twins marks e f) (var : Variable) :
    f.BoundedAt var ↔ e.BoundedAt var := by
  unfold BoundedAt
  rw [h.slot? var, h.level]

theorem set (h : Twins marks e f) (var : Variable) (v : Value) :
    Twins marks (e.set var v) (f.set var v) := by
  have hslots : ∀ x, (f.set var v).slot? x = (e.set var v).slot? x := fun x => by
    rw [slot?_set, slot?_set, h.slot? x, h.level]
  cases h with
  | outer h hmarks => exact .outer (h.set var v) hmarks
  | within ho he hf _ => exact .within ho (he.set var v) (hf.set var v) hslots

theorem enterScope (h : Twins marks e f) :
    Twins ((e.hiddenCount, f.hiddenCount) :: marks) e.enterScope.2 f.enterScope.2 :=
  .within h (nested_enterScope e) (nested_enterScope f) h.slot?

/-- What is retained of both has the same slots if what is bound too deep does. -/
theorem retained (h : Twins marks e f) (he : e.Retains e') (hf : f.Retains f')
    (hslots : ∀ var, f'.slot? var = e'.slot? var) : Twins marks e' f' := by
  cases h with
  | outer h hmarks =>
    refine .outer ⟨fun var => (hslots var).symm, ?_, ?_⟩ hmarks
    · rw [he.shadowed, hf.shadowed, h.shadowed]
    · rw [he.level, hf.level, h.level]
  | within ho hin hin' _ => exact .within ho (hin.retains he) (hin'.retains hf) hslots

theorem leaveScope {mark mark' : Nat} (h : Twins ((mark, mark') :: marks) e f) :
    Twins marks (e.leaveScope mark) (f.leaveScope mark') := by
  cases h with
  | outer h hmarks =>
    obtain ⟨hmark, hrest⟩ := List.forall_mem_cons.mp hmarks
    cases show mark = mark' from hmark
    exact .outer (h.leaveScope mark) hrest
  | @within _ o p _ _ ho he hf hslots =>
    refine ho.retained he.leaveScope hf.leaveScope fun var => ?_
    by_cases hb : o.BoundedAt var
    · rw [he.leaveScope.slots var hb, hf.leaveScope.slots var ((ho.boundedAt var).mpr hb),
        ho.slot? var]
    · -- what is bound too deep is left alone
      have hleft : (e.leaveScope o.hiddenCount).slot? var = e.slot? var :=
        he.unwound.2.2 var hb
      have hright : (f.leaveScope p.hiddenCount).slot? var = f.slot? var :=
        hf.unwound.2.2 var fun hb' => hb ((ho.boundedAt var).mp hb')
      rw [hleft, hright, hslots var]

theorem refl (e : Environment) : Twins [] e e := .outer (.refl e) nofun

theorem get? (h : Twins marks e f) (var : Variable) : f.get? var = e.get? var :=
  congrArg (Option.map Slot.value) (h.slot? var)

theorem setAll (h : Twins marks e f) (bindings : Bindings) :
    Twins marks (e.setAll bindings) (f.setAll bindings) := by
  induction bindings generalizing e f with
  | nil => exact h
  | cons b rest ih => exact ih (h.set b.1 b.2)

/-- A new scope shows of its bindings the last value of each variable. -/
theorem enterWith (h : Twins marks e f) {bindings others : Bindings}
    (hsame : SameLast bindings others) :
    Twins ((e.hiddenCount, f.hiddenCount) :: marks) (e.enterScope.2.setAll bindings)
      (f.enterScope.2.setAll others) := by
  refine .within h ((nested_enterScope e).setAll bindings)
    ((nested_enterScope f).setAll others) fun var => ?_
  rw [slot?_setAll_last, slot?_setAll_last, hsame var, h.enterScope.level, h.enterScope.slot? var]

end Twins

end Environment

/-! ## Twins -/

/-- In which of two machines calls may be nested deeper. -/
inductive Depths
  | equal
  | rightDeeper
  | leftDeeper

/-- How the call depths of the two compare. -/
def Depths.Compare : Depths → Nat → Nat → Prop
  | equal, depth, depth' => depth = depth'
  | rightDeeper, depth, depth' => depth ≤ depth'
  | leftDeeper, depth, depth' => depth' ≤ depth

/-- Two machines that an evaluation can not tell apart, as long as no limit is hit, with the marks of
the open scopes in both. -/
structure Machine.Twins (d : Depths) (marks : List (Nat × Nat)) (m n : Machine) : Prop where
  store : n.store = m.store
  stack : n.context.stack = m.context.stack
  settings : n.context.settings = m.context.settings
  depth : d.Compare m.context.callDepth n.context.callDepth
  env : m.context.env.Twins marks n.context.env

namespace Run

variable {α β : Type} {d : Depths} {marks : List (Nat × Nat)} {m n : Machine}

theorem twins_refl (m : Machine) (d : Depths) : m.Twins d [] m :=
  ⟨rfl, rfl, rfl, by cases d <;> simp only [Depths.Compare, Nat.le_refl], .refl _⟩

theorem twins_store (h : m.Twins d marks n) (st : Store) :
    Machine.Twins d marks { m with store := st } { n with store := st } :=
  ⟨rfl, h.stack, h.settings, h.depth, h.env⟩

/-- The operands are replaced. -/
theorem twins_stack (h : m.Twins d marks n) {m' n' : Machine} (hm : m'.store = m.store)
    (hn : n'.store = n.store) {stack : List Value}
    (hcm : m'.context = { m.context with stack }) (hcn : n'.context = { n.context with stack }) :
    m'.Twins d marks n' := by
  refine ⟨hn.trans (h.store.trans hm.symm), ?_, ?_, ?_, ?_⟩
  · rw [hcm, hcn]
  · rw [hcm, hcn]
    exact h.settings
  · rw [hcm, hcn]
    exact h.depth
  · rw [hcm, hcn]
    exact h.env

/-- A limit was hit: the result is its error, or a value that carries it. -/
def Limited (carries : α → Prop) : Except Stop α → Prop
  | .ok a => carries a
  | .error (.error e) => e.isLimit = true
  | .error _ => False

/-- No value carries the error of a limit. -/
def never (_ : α) : Prop := False

/-- How the outcomes of two evaluations on twins compare. -/
inductive Meet (d : Depths) (marks : List (Nat × Nat)) (carries : α → Prop)
    (out out' : Except Stop α × Machine) : Prop
  /-- The left one ran out of budget. -/
  | exhausted : out.1 = .error .exhausted → Meet d marks carries out out'
  /-- The left one, where calls are nested deeper, hit a limit. -/
  | left : d = .leftDeeper → Limited carries out.1 → Meet d marks carries out out'
  /-- The right one, where calls are nested deeper, hit a limit. -/
  | right : d = .rightDeeper → Limited carries out'.1 → Meet d marks carries out out'
  /-- They came to the same, and left twins if they came back. -/
  | same : out'.1 = out.1 → (Returned out.1 → out.2.Twins d marks out'.2) →
    Meet d marks carries out out'

/-- On twins the evaluations come to the same. -/
def Alike (d : Depths) (marks : List (Nat × Nat)) (carries : α → Prop) (x y : Run α) : Prop :=
  ∀ m n, m.Twins d marks n → Meet d marks carries (x m) (y n)

/-! ## Rules -/

section Rules

variable {carries : α → Prop} {carries' : β → Prop} {x y : Run α} {f g : α → Run β}

theorem alike_of_eq (h : ∀ m n, m.Twins d marks n → (y n).1 = (x m).1 ∧
    ((x m).2.Twins d marks (y n).2)) : Alike d marks carries x y :=
  fun m n ht => .same (h m n ht).1 fun _ => (h m n ht).2

/-- A sequence whose second part may close scopes. A value that carries the error of a limit makes
it come to that error. -/
theorem Meet.bindFrom {inner : List (Nat × Nat)} (hx : Meet d inner carries (x m) (y n))
    (herror : ∀ e m₁ n₁, x m = (.error (.error e), m₁) → m₁.Twins d inner n₁ → m₁.Twins d marks n₁)
    (hf : ∀ a m₁ n₁, m₁.Twins d inner n₁ → Meet d marks carries' (f a m₁) (g a n₁))
    (hl : ∀ a, carries a → ∀ m, Limited carries' (f a m).1 ∧ Limited carries' (g a m).1) :
    Meet d marks carries' ((x >>= f) m) ((y >>= g) n) := by
  rw [run_bind, run_bind]
  rcases hm : x m with ⟨r, m₁⟩
  rcases hn : y n with ⟨r', n₁⟩
  rw [hm, hn] at hx
  cases hx with
  | exhausted he =>
    cases he
    exact .exhausted rfl
  | left hd hlim =>
    refine .left hd ?_
    rcases r with (e | _ | _ | _) | a
    · exact hlim
    · exact hlim
    · exact hlim
    · exact hlim
    · exact (hl a hlim m₁).1
  | right hd hlim =>
    refine .right hd ?_
    rcases r' with (e | _ | _ | _) | a
    · exact hlim
    · exact hlim
    · exact hlim
    · exact hlim
    · exact (hl a hlim n₁).2
  | same he ht =>
    cases he
    rcases r with (e | _ | _ | _) | a
    · exact .same rfl fun _ => herror e m₁ n₁ hm (ht trivial)
    · exact .same rfl fun hr => hr.elim
    · exact .same rfl fun hr => hr.elim
    · exact .exhausted rfl
    · exact hf a m₁ n₁ (ht trivial)

theorem Meet.bindWith (hx : Meet d marks carries (x m) (y n))
    (hf : ∀ a m₁ n₁, m₁.Twins d marks n₁ → Meet d marks carries' (f a m₁) (g a n₁))
    (hl : ∀ a, carries a → ∀ m, Limited carries' (f a m).1 ∧ Limited carries' (g a m).1) :
    Meet d marks carries' ((x >>= f) m) ((y >>= g) n) :=
  hx.bindFrom (fun _ _ _ _ h => h) hf hl

theorem Alike.bindWith (hx : Alike d marks carries x y)
    (hf : ∀ a, Alike d marks carries' (f a) (g a))
    (hl : ∀ a, carries a → ∀ m, Limited carries' (f a m).1 ∧ Limited carries' (g a m).1) :
    Alike d marks carries' (x >>= f) (y >>= g) :=
  fun m n h => (hx m n h).bindWith (fun a => hf a) hl

theorem Alike.bind (hx : Alike d marks never x y) (hf : ∀ a, Alike d marks carries' (f a) (g a)) :
    Alike d marks carries' (x >>= f) (y >>= g) :=
  hx.bindWith hf fun _ h => h.elim

theorem alike_pure (a : α) : Alike d marks carries (pure a) (pure a) :=
  alike_of_eq fun _ _ h => ⟨rfl, h⟩

theorem alike_throw (stop : Stop) : Alike d marks carries (throw stop) (throw stop) :=
  alike_of_eq fun _ _ h => ⟨rfl, h⟩

theorem alike_fail (e : EvalError) : Alike d marks carries (fail e) (fail e) := alike_throw _

theorem alike_ofExcept (r : Except EvalError α) :
    Alike d marks carries (ofExcept r) (ofExcept r) := by
  cases r with
  | ok a => exact alike_pure a
  | error e => exact alike_fail e

theorem alike_store (x : StateM Store α) : Alike d marks carries (store x) (store x) := by
  refine alike_of_eq fun m n h => ?_
  rw [run_store, run_store, h.store]
  exact ⟨rfl, twins_store h _⟩

/-- The result is an error of a limit, or a value that carries one. -/
def orLimit (carries : α → Prop) : Except EvalError α → Prop
  | .ok a => carries a
  | .error e => e.isLimit = true

theorem Meet.attempt (hx : Meet d marks carries (x m) (y n)) :
    Meet d marks (orLimit carries) (attempt x m) (attempt y n) := by
  rw [run_attempt, run_attempt]
  generalize x m = out at hx ⊢
  generalize y n = out' at hx ⊢
  obtain ⟨r, m₁⟩ := out
  obtain ⟨r', n₁⟩ := out'
  cases hx with
  | exhausted he =>
    cases he
    exact .exhausted rfl
  | left hd hlim =>
    refine .left hd ?_
    rcases r with (e | _ | _ | _) | a <;> exact hlim
  | right hd hlim =>
    refine .right hd ?_
    rcases r' with (e | _ | _ | _) | a <;> exact hlim
  | same he ht =>
    cases he
    rcases r with (e | _ | _ | _) | a
    · exact .same rfl fun _ => ht trivial
    · exact .same rfl fun hr => hr.elim
    · exact .same rfl fun hr => hr.elim
    · exact .exhausted rfl
    · exact .same rfl fun _ => ht trivial

theorem Alike.attempt (hx : Alike d marks carries x y) :
    Alike d marks (orLimit carries) (attempt x) (attempt y) :=
  fun m n h => (hx m n h).attempt

/-- What is attempted in inner scopes goes on where they are closed. -/
theorem Meet.scoped {inner : List (Nat × Nat)} (hx : Meet d inner carries (x m) (y n))
    {f g : Except EvalError α → Run β}
    (hf : ∀ r m₁ n₁, m₁.Twins d inner n₁ → Meet d marks carries' (f r m₁) (g r n₁))
    (hl : ∀ r, orLimit carries r → ∀ m, Limited carries' (f r m).1 ∧ Limited carries' (g r m).1) :
    Meet d marks carries' ((Run.attempt x >>= f) m) ((Run.attempt y >>= g) n) := by
  refine hx.attempt.bindFrom (fun e m₁ n₁ he _ => ?_) hf hl
  rw [run_attempt] at he
  generalize x m = out at he
  rcases out with ⟨(_ | _ | _ | _) | a, m₂⟩ <;> cases he

end Rules

/-! ## Operands and variables -/

theorem alike_operands : Alike d marks never operands operands :=
  alike_of_eq fun _ _ h => ⟨congrArg Except.ok h.stack, h⟩

theorem alike_height : Alike d marks never height height :=
  alike_of_eq fun _ _ h => ⟨congrArg (fun stack : List Value => Except.ok stack.length) h.stack, h⟩

theorem alike_setOperands (stack : List Value) :
    Alike d marks never (setOperands stack) (setOperands stack) :=
  alike_of_eq fun _ _ h => ⟨rfl, twins_stack h rfl rfl rfl rfl⟩

theorem alike_push (v : Value) : Alike d marks never (push v) (push v) := by
  refine alike_of_eq fun m n h => ⟨rfl, twins_stack h rfl rfl rfl ?_⟩
  exact congrArg (fun stack => { n.context with stack := v :: stack }) h.stack

theorem operandsClosed_alike : OperandsClosed fun x => Alike d marks never x x where
  pure := alike_pure
  fail := alike_fail
  bind := .bind
  operands := alike_operands
  setOperands := alike_setOperands

theorem alike_truncate (base : Nat) : Alike d marks never (truncate base) (truncate base) :=
  operandsClosed_alike.truncate base

theorem alike_pop (base pos : Nat) : Alike d marks never (pop base pos) (pop base pos) :=
  operandsClosed_alike.pop

theorem alike_top (base pos : Nat) : Alike d marks never (top base pos) (top base pos) :=
  operandsClosed_alike.top

theorem alike_popMany (base pos k : Nat) :
    Alike d marks never (popMany base pos k) (popMany base pos k) := operandsClosed_alike.popMany k

theorem alike_frameResult (base pos : Nat) :
    Alike d marks never (frameResult base pos) (frameResult base pos) :=
  operandsClosed_alike.frameResult

theorem alike_bindAll (bindings : Bindings) :
    Alike d marks never (bindAll bindings) (bindAll bindings) :=
  alike_of_eq fun _ _ h => ⟨rfl, h.store, h.stack, h.settings, h.depth, h.env.setAll bindings⟩

theorem alike_readVariable (var : Variable) :
    Alike d marks never (readVariable var) (readVariable var) := by
  intro m n h
  unfold readVariable
  rw [run_bind_ok (run_context m), run_bind_ok (run_context n), h.env.get? var]
  cases m.context.env.get? var with
  | some v => exact alike_pure v m n h
  | none => exact (alike_store _).bind (fun _ => alike_fail _) m n h

theorem alike_heedInterrupt : Alike d marks never heedInterrupt heedInterrupt := by
  intro m n h
  unfold heedInterrupt
  rw [run_bind_ok (run_context m), run_bind_ok (run_context n), h.settings]
  refine (alike_store _).bind (fun stopped => ?_) m n h
  cases stopped
  · exact alike_pure ()
  · exact alike_fail _

/-! ## Instructions -/

/-- Two scripts that differ at most in the instructions that they execute. -/
structure Script.SameFrame (s s' : Script Value) : Prop where
  constants : s'.constants = s.constants
  length : s'.length = s.length
  params : ∀ pos k, s'.params pos k = s.params pos k

theorem Script.SameFrame.refl (s : Script Value) : Script.SameFrame s s :=
  ⟨rfl, rfl, fun _ _ => rfl⟩

variable {s s' : Script Value} {call call' : Caller} {base pos : Nat}

theorem alike_takeJump (hs : Script.SameFrame s s') (target : Nat) :
    Alike d marks never (takeJump s pos target) (takeJump s' pos target) := by
  have hsame : takeJump s' pos target = takeJump s pos target := by
    unfold takeJump
    rw [hs.length]
  rw [hsame]
  exact takeJump_cases (P := fun x => Alike d marks never x x) alike_fail
    (fun _ => alike_heedInterrupt.bind fun _ => alike_pure _) fun _ => alike_pure _

theorem alike_stepLoop (hs : Script.SameFrame s s') (target : Nat) (withKey : Bool) :
    Alike d marks never (stepLoop s base pos target withKey)
      (stepLoop s' base pos target withKey) := by
  refine alike_heedInterrupt.bind fun _ => alike_operands.bind fun stack => ?_
  rcases stack with _ | ⟨accumulator, _ | ⟨slot, rest⟩⟩
  · exact alike_fail _
  · exact alike_fail _
  · by_cases h : rest.length < base
    · simp only [if_pos h]
      exact alike_fail _
    · simp only [if_neg h]
      cases slot with
      | iterator handle =>
        refine (alike_store _).bind fun drawn => ?_
        rcases drawn with _ | ⟨key, v⟩
        · exact (alike_setOperands _).bind fun _ => alike_takeJump hs target
        · have hpush : Alike d marks never (do
              push v
              return Next.goto (pos + 1)) (do
              push v
              return Next.goto (pos + 1)) :=
            (alike_push v).bind fun _ => alike_pure _
          cases withKey with
          | false => exact hpush
          | true => exact (alike_push key).bind fun _ => hpush
      | _ => exact alike_fail _

theorem alike_stepPlainCall
    (hcall : ∀ f args, Alike d marks never (call f args) (call' f args)) (next : Nat)
    (function : Value) (bindings : Bindings) :
    Alike d marks never (stepPlainCall call s pos next function bindings)
      (stepPlainCall call' s' pos next function bindings) := by
  unfold stepPlainCall
  refine (hcall function bindings).attempt.bindWith (fun r => ?_) fun r hr m => ?_
  · cases r with
    | ok v => exact (alike_push v).bind fun _ => alike_pure _
    | error e =>
      -- the names noted may differ, which does not show
      intro m n h
      refine .same rfl fun _ => ?_
      exact ⟨h.store, h.stack, h.settings, h.depth, h.env⟩
  · cases r with
    | ok v => exact hr.elim
    | error e => exact ⟨hr, hr⟩

theorem alike_stepCall (hs : Script.SameFrame s s')
    (hcall : ∀ f args, Alike d marks never (call f args) (call' f args)) (k : Nat) (op : Opcode) :
    Alike d marks never (stepCall call s base pos k op) (stepCall call' s' base pos k op) := by
  unfold stepCall
  rw [hs.params]
  refine (alike_ofExcept _).bind fun params => (alike_popMany _ _ _).bind fun args => ?_
  refine (alike_pop _ _).bind fun function => ?_
  by_cases h : op = .closure
  · simp only [if_pos h]
    exact (alike_store _).bind fun v => (alike_push v).bind fun _ => alike_pure _
  · simp only [if_neg h]
    refine alike_height.bind fun height => ?_
    split
    · exact alike_pure _
    · exact alike_stepPlainCall hcall _ _ _

theorem alike_pushNext {x y : Run Value} (hx : Alike d marks never x y) (p : Nat) :
    Alike d marks never (do
      push (← x)
      return Next.goto p) (do
      push (← y)
      return Next.goto p) :=
  hx.bind fun v => (alike_push v).bind fun _ => alike_pure _

/-- What works only on the operands does not depend on the calls, and of the script only on its
constants and on the names of arguments. -/
theorem stepInstr_sameFrame (hs : Script.SameFrame s s') {i : Instruction}
    (hi : worksOnOperands i.opcode = true) :
    stepInstr call' s' base pos i = stepInstr call s base pos i := by
  rcases i with ⟨op, k, hk⟩
  cases op with
  | pushConst | memberC =>
    unfold stepInstr Script.constantAt Script.constant?
    rw [hs.constants]
  | closure =>
    unfold stepInstr stepCall
    simp only [hs.params, if_true]
  | jump | jumpIfNot | jumpScAnd | jumpScOr | loop | loopWithKey | getVar | setVar | call
  | tailCall => cases hi
  | _ => rfl

/-- An instruction comes to the same on twins. -/
theorem alike_stepInstr (hs : Script.SameFrame s s')
    (hcall : ∀ f args, Alike d marks never (call f args) (call' f args)) (i : Instruction) :
    Alike d marks never (stepInstr call s base pos i) (stepInstr call' s' base pos i) := by
  have hnext : Alike d marks never (pure (Next.goto (pos + 1))) (pure (Next.goto (pos + 1))) :=
    alike_pure _
  have hpop : Alike d marks never (do
      let _ ← pop base pos
      return Next.goto (pos + 1)) (do
      let _ ← pop base pos
      return Next.goto (pos + 1)) := (alike_pop _ _).bind fun _ => hnext
  have hplain : worksOnOperands i.opcode = true →
      Alike d marks never (stepInstr call s base pos i) (stepInstr call' s' base pos i) := by
    intro hi
    rw [stepInstr_sameFrame hs hi]
    exact operandsClosed_alike.stepInstr (fun _ => alike_store _) call s base pos hi
  rcases i with ⟨op, k, hk⟩
  cases op with
  | jump => exact alike_takeJump hs k
  | jumpIfNot =>
    refine (alike_pop _ _).bind fun condition => (alike_ofExcept _).bind fun b => ?_
    cases b
    · exact alike_takeJump hs k
    · exact hnext
  | jumpScAnd =>
    refine (alike_top _ _).bind fun v => (alike_ofExcept _).bind fun b => ?_
    cases b
    · exact alike_takeJump hs k
    · exact hpop
  | jumpScOr =>
    refine (alike_top _ _).bind fun v => (alike_ofExcept _).bind fun b => ?_
    cases b
    · exact hpop
    · exact alike_takeJump hs k
  | loop => exact alike_stepLoop hs k false
  | loopWithKey => exact alike_stepLoop hs k true
  | getVar => exact alike_pushNext (alike_readVariable _) _
  | setVar => exact (alike_top _ _).bind fun v => (alike_bindAll [(⟨k⟩, v)]).bind fun _ => hnext
  | call => exact alike_stepCall hs hcall k .call
  | tailCall => exact alike_stepCall hs hcall k .tailCall
  | _ => exact hplain rfl

/-- Where two scripts have the same instruction, or both end, they come to the same. -/
theorem step_alike (hs : Script.SameFrame s s')
    (hcall : ∀ f args, Alike d marks never (call f args) (call' f args))
    (hcode : s'.code[pos]? = s.code[pos]?) :
    Alike d marks never (step call s base pos) (step call' s' base pos) := by
  unfold step
  rw [hcode]
  cases s.code[pos]? with
  | some i => exact alike_stepInstr hs hcall i
  | none =>
    dsimp only
    rw [hs.length]
    exact (alike_frameResult _ _).bind fun _ => alike_pure _

end Run

end ReactiveScript
