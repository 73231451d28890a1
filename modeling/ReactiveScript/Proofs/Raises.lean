import ReactiveScript.Proofs.Traced

/-
  What becomes of the errors that an evaluation raises.

  Of the errors raised so far at most the last one is on its way, in the outcome of an evaluation or
  in a value that carries it to where it goes on; all others were given up, and those are never
  errors of limits (`Accounts`). Meanwhile every call site that an error unwinds through is noted, so
  the sites noted are those of all errors raised (`Sound`). One rule for each combinator, then one
  lemma for each function of the evaluator.
-/

namespace ReactiveScript.Traced

open Run (Returned NoFailure HostResult hostResult run_bind_ok run_bind_error)

variable {α β : Type} {m m' : Machine}

/-! ## Accounts -/

/-- All errors but the one on its way were given up, and none of those is the error of a limit. -/
def Accounts (errors : List EvalError) (onItsWay : Option EvalError) : Prop :=
  ∃ givenUp, errors = givenUp ++ onItsWay.toList ∧ ∀ e ∈ givenUp, e.isLimit = false

variable {errors later : List EvalError} {pending onItsWay : Option EvalError}

theorem accounts_self (pending : Option EvalError) : Accounts pending.toList pending :=
  ⟨[], rfl, nofun⟩

theorem Accounts.andThen (h : Accounts errors pending)
    (h' : Accounts (pending.toList ++ later) onItsWay) : Accounts (errors ++ later) onItsWay := by
  obtain ⟨givenUp, rfl, hgivenUp⟩ := h
  obtain ⟨givenUp', heq, hgivenUp'⟩ := h'
  refine ⟨givenUp ++ givenUp', ?_, ?_⟩
  · rw [List.append_assoc, heq, List.append_assoc]
  · intro e he
    exact (List.mem_append.mp he).elim (hgivenUp e) (hgivenUp' e)

/-- The error that is on its way after an evaluation, where `carried` tells which one a value
carries. -/
def inFlight (carried : α → Option EvalError) : Except Stop α → Option EvalError
  | .ok a => carried a
  | .error (.error e) => some e
  | .error _ => none

/-- The value carries no error. -/
def nothing (_ : α) : Option EvalError := none

/-- The error of a result, or the one that its value carries. -/
def failure (carried : α → Option EvalError) : Except EvalError α → Option EvalError
  | .ok a => carried a
  | .error e => some e

/-! ## Evaluations that leave calls alone -/

/-- The call depth and the call sites noted are the same. -/
structure SameCalls (m m' : Machine) : Prop where
  callDepth : m'.context.callDepth = m.context.callDepth
  backtrace : m'.context.backtrace = m.context.backtrace

/-- The evaluation counts no call and notes no call site. -/
def KeepsCalls (x : Run α) : Prop := ∀ m, SameCalls m (x m).2

theorem KeepsCalls.bind {x : Run α} {f : α → Run β} (hx : KeepsCalls x)
    (hf : ∀ a, KeepsCalls (f a)) : KeepsCalls (x >>= f) := by
  intro m
  have hx := hx m
  rw [Run.run_bind]
  generalize x m = out at hx ⊢
  rcases out with ⟨stop | a, m₁⟩
  · exact hx
  · have hf := hf a m₁
    exact ⟨hf.callDepth.trans hx.callDepth, hf.backtrace.trans hx.backtrace⟩

theorem keepsCalls_pure (a : α) : KeepsCalls (pure a : Run α) := fun _ => ⟨rfl, rfl⟩

theorem keepsCalls_throw (stop : Stop) : KeepsCalls (throw stop : Run α) := fun _ => ⟨rfl, rfl⟩

theorem keepsCalls_fail (e : EvalError) : KeepsCalls (Run.fail e : Run α) := fun _ => ⟨rfl, rfl⟩

theorem keepsCalls_context : KeepsCalls Run.context := fun _ => ⟨rfl, rfl⟩

theorem keepsCalls_store (x : StateM Store α) : KeepsCalls (Run.store x) := fun _ => ⟨rfl, rfl⟩

theorem keepsCalls_operands : KeepsCalls Run.operands := fun _ => ⟨rfl, rfl⟩

theorem keepsCalls_setOperands (stack : List Value) : KeepsCalls (Run.setOperands stack) :=
  fun _ => ⟨rfl, rfl⟩

theorem keepsCalls_push (v : Value) : KeepsCalls (Run.push v) := fun _ => ⟨rfl, rfl⟩

theorem operandsClosed_keepsCalls : Run.OperandsClosed KeepsCalls :=
  ⟨keepsCalls_pure, keepsCalls_fail, .bind, keepsCalls_operands, keepsCalls_setOperands⟩

theorem keepsCalls_ofExcept (r : Except EvalError α) : KeepsCalls (Run.ofExcept r) :=
  operandsClosed_keepsCalls.ofExcept r

theorem keepsCalls_readVariable (var : Variable) : KeepsCalls (Run.readVariable var) := by
  refine keepsCalls_context.bind fun c => ?_
  cases c.env.get? var with
  | some v => exact keepsCalls_pure v
  | none => exact (keepsCalls_store _).bind fun _ => keepsCalls_fail _

theorem keepsCalls_heedInterrupt : KeepsCalls Run.heedInterrupt := by
  refine keepsCalls_context.bind fun c => (keepsCalls_store _).bind fun interrupted => ?_
  cases interrupted with
  | true => exact keepsCalls_fail _
  | false => exact keepsCalls_pure _

variable {s : Script Value} {base pos : Nat}

theorem keepsCalls_pop : KeepsCalls (Run.pop base pos) := operandsClosed_keepsCalls.pop

theorem keepsCalls_top : KeepsCalls (Run.top base pos) := operandsClosed_keepsCalls.top

theorem keepsCalls_popMany (n : Nat) : KeepsCalls (Run.popMany base pos n) :=
  operandsClosed_keepsCalls.popMany n

theorem keepsCalls_frameResult : KeepsCalls (Run.frameResult base pos) :=
  operandsClosed_keepsCalls.frameResult

theorem keepsCalls_callParts (n : Nat) : KeepsCalls (Run.callParts s base pos n) :=
  (keepsCalls_ofExcept _).bind fun _ => (keepsCalls_popMany n).bind fun _ =>
    keepsCalls_pop.bind fun _ => keepsCalls_pure _

theorem keepsCalls_tested {x : Run Value} (hx : KeepsCalls x) :
    KeepsCalls (do Run.ofExcept (← x).toBool) :=
  hx.bind fun _ => keepsCalls_ofExcept _

/-! ## Sound evaluations -/

/-- From a machine on which the error `pending` is on its way to one on which `onItsWay` is, with
`raises` in between: all errors are accounted for, and if an evaluation returned with this, calls
are as deep as before and the sites that the errors unwound through are noted. -/
structure Unwinds (pending : Option EvalError) (raises : List Raise)
    (onItsWay : Option EvalError) (returned : Prop) (m m' : Machine) : Prop where
  accounts : Accounts (pending.toList ++ raises.map (·.error)) onItsWay
  callDepth : returned → m'.context.callDepth = m.context.callDepth
  backtrace : returned → m'.context.backtrace = m.context.backtrace ++ raises.flatMap (·.sites)

theorem Unwinds.trans {raises raises' : List Raise} {between : Option EvalError} {returned : Prop}
    {m m₁ m₂ : Machine} (h : Unwinds pending raises between True m m₁)
    (h' : Unwinds between raises' onItsWay returned m₁ m₂) :
    Unwinds pending (raises ++ raises') onItsWay returned m m₂ := by
  refine ⟨?_, fun hr => (h'.callDepth hr).trans (h.callDepth trivial), fun hr => ?_⟩
  · rw [List.map_append, ← List.append_assoc]
    exact h.accounts.andThen h'.accounts
  · rw [h'.backtrace hr, h.backtrace trivial, List.flatMap_append, List.append_assoc]

/-- Nothing is raised, and the error on its way stays so. -/
theorem SameCalls.unwinds {returned : Prop} (h : SameCalls m m') (pending : Option EvalError) :
    Unwinds pending [] pending returned m m' := by
  refine ⟨?_, fun _ => h.callDepth, fun _ => h.backtrace.trans (List.append_nil _).symm⟩
  rw [List.map_nil, List.append_nil]
  exact accounts_self pending

/-- The error on its way is the last one that was raised: it is the one that unwinds. -/
theorem Unwinds.through {raises : List Raise} {e : EvalError}
    (h : Unwinds none raises (some e) True m m') (site : String) :
    Unwinds none (raises.modifyLast (Raise.through site)) (some e) True m
      (Run.noteFrame site m').2 := by
  obtain ⟨givenUp, heq, hgivenUp⟩ := h.accounts
  obtain ⟨earlier, last, rfl, rfl, hlast⟩ := List.map_eq_append_iff.mp heq
  obtain ⟨raise, rfl, hraise⟩ := List.map_eq_singleton_iff.mp hlast
  rw [List.modifyLast_concat]
  refine ⟨⟨_, ?_, hgivenUp⟩, fun _ => h.callDepth trivial, fun _ => ?_⟩
  · rw [List.map_append, ← hraise]
    rfl
  · show m'.context.backtrace ++ [site] = _
    rw [h.backtrace trivial, List.flatMap_append, List.flatMap_append]
    simp only [List.flatMap_cons, List.flatMap_nil, List.append_nil, List.append_assoc,
      Raise.through]

/-- The same of the outcome of an evaluation. -/
def UnwindsTo (pending : Option EvalError) (raises : List Raise) (m : Machine)
    (carried : α → Option EvalError) (out : Except Stop α × Machine) : Prop :=
  Unwinds pending raises (inFlight carried out.1) (Returned out.1) m out.2

/-- What an evaluation does from every machine with a depth of calls in `Depth` on which `pending`
is on its way. -/
def Sound (Depth : Nat → Prop) (pending : Option EvalError) (carried : α → Option EvalError)
    (x : Traced α) : Prop :=
  ∀ m, Depth m.context.callDepth → UnwindsTo pending (x.raises m) m carried (x.run m)

variable {Depth : Nat → Prop} {carried : α → Option EvalError} {x : Traced α}

theorem bind_ok {f : α → Traced β} {a : α} (h : x.run m = (.ok a, m')) :
    (x >>= f).run m = (f a).run m' ∧ (x >>= f).raises m = x.raises m ++ (f a).raises m' := by
  refine ⟨run_bind_ok h, ?_⟩
  rw [raises_bind, h]

theorem bind_error {f : α → Traced β} {stop : Stop} (h : x.run m = (.error stop, m')) :
    (x >>= f).run m = (.error stop, m') ∧ (x >>= f).raises m = x.raises m := by
  refine ⟨run_bind_error h, ?_⟩
  rw [raises_bind, h]
  exact List.append_nil _

/-- What follows begins with the error that the value of the first part carries. -/
theorem Sound.bind {carried' : β → Option EvalError} {f : α → Traced β}
    (hx : Sound Depth pending carried x) (hf : ∀ a, Sound Depth (carried a) carried' (f a)) :
    Sound Depth pending carried' (x >>= f) := by
  intro m hm
  have hx := hx m hm
  rcases hrun : x.run m with ⟨stop | a, m₁⟩
  · obtain ⟨hbind, hraises⟩ := bind_error (f := f) hrun
    rw [hrun] at hx
    rw [hbind, hraises]
    cases stop <;> exact hx
  · obtain ⟨hbind, hraises⟩ := bind_ok (f := f) hrun
    rw [hrun] at hx
    rw [hbind, hraises]
    have hdepth : m₁.context.callDepth = m.context.callDepth := hx.callDepth trivial
    exact hx.trans (hf a m₁ (hdepth ▸ hm))

theorem sound_return {a : α} (h : carried a = pending) :
    Sound Depth pending carried (pure a : Traced α) := by
  subst h
  exact fun m _ => SameCalls.unwinds ⟨rfl, rfl⟩ _

theorem once_error {x : Run α} {e : EvalError} (h : x m = (.error (.error e), m')) :
    (once x).raises m = [⟨e, []⟩] := by
  unfold once
  dsimp only
  rw [h]

theorem once_ok {x : Run α} {a : α} (h : x m = (.ok a, m')) : (once x).raises m = [] := by
  unfold once
  dsimp only
  rw [h]

/-- An error is on its way from where it is raised. -/
theorem sound_once {x : Run α} (hx : KeepsCalls x) : Sound Depth none nothing (once x) := by
  intro m _
  have hx := hx m
  unfold once
  dsimp only
  generalize x m = out at hx ⊢
  rcases out with ⟨(e | _ | _ | _) | a, m₁⟩
  · exact ⟨accounts_self (some e), fun _ => hx.callDepth,
      fun _ => hx.backtrace.trans (List.append_nil _).symm⟩
  · exact hx.unwinds none
  · exact hx.unwinds none
  · exact hx.unwinds none
  · exact hx.unwinds none

/-- The error that was on its way still is. -/
theorem sound_quiet {x : Run α} (hx : KeepsCalls x)
    (hpending : ∀ m, inFlight carried (x m).1 = pending) :
    Sound Depth pending carried (quiet x) := by
  intro m _
  show Unwinds pending [] (inFlight carried (x m).1) (Returned (x m).1) m (x m).2
  rw [hpending m]
  exact (hx m).unwinds pending

/-- A result keeps the error on its way. -/
theorem Sound.attempt (hx : Sound Depth pending carried x) :
    Sound Depth pending (failure carried) (attempt x) := by
  intro m hm
  have hx := hx m hm
  show UnwindsTo pending (x.raises m) m (failure carried) (Run.attempt x.run m)
  rw [Run.run_attempt]
  generalize x.run m = out at hx ⊢
  rcases out with ⟨(e | _ | _ | _) | a, m₁⟩ <;> exact hx

theorem Sound.map {carried' : β → Option EvalError} {f : α → β}
    (hx : Sound Depth pending carried x) (hf : ∀ a, carried' (f a) = carried a) :
    Sound Depth pending carried' (f <$> x) := by
  intro m hm
  have hx := hx m hm
  show UnwindsTo pending (x.raises m) m carried' ((f <$> x.run) m)
  rw [Run.run_map]
  generalize x.run m = out at hx ⊢
  rcases out with ⟨(e | _ | _ | _) | a, m₁⟩
  · exact hx
  · exact hx
  · exact hx
  · exact hx
  · show Unwinds pending (x.raises m) (carried' (f a)) True m m₁
    rw [hf a]
    exact hx

theorem Sound.atSite (hx : Sound Depth none nothing x) (site : StateM Store String) :
    Sound Depth none nothing (atSite site x) := by
  intro m hm
  have hx := hx m hm
  unfold Traced.atSite
  dsimp only
  rw [Run.run_bind, Run.run_attempt]
  generalize x.run m = out at hx ⊢
  rcases out with ⟨(e | _ | _ | _) | a, m₁⟩
  · have hnamed : Unwinds none (x.raises m) (some e) True m
        { m₁ with store := (site m₁.store).2 } := ⟨hx.accounts, hx.callDepth, hx.backtrace⟩
    exact hnamed.through (site m₁.store).1
  · exact hx
  · exact hx
  · exact hx
  · exact hx

/-- What never fails raises nothing. -/
theorem sound_aside {x : Run α} (hx : KeepsCalls x) (hn : NoFailure x) :
    Sound Depth none nothing (quiet x) := by
  refine sound_quiet hx fun m => ?_
  have hn := hn m
  rcases hout : (x m).1 with (e | _ | _ | _) | a
  · exact absurd hout (hn e)
  · rfl
  · rfl
  · rfl
  · rfl

/-- What goes on does not depend on an error. -/
theorem sound_after {x : Run α} {f : α → Traced β} {carried : β → Option EvalError}
    (hx : KeepsCalls x) (hn : NoFailure x) (hf : ∀ a, Sound Depth none carried (f a)) :
    Sound Depth none carried (quiet x >>= f) :=
  (sound_aside hx hn).bind hf

/-! ## Instructions -/

variable {call : Caller} {s : Script Value} {base pos : Nat}

theorem sound_takeJump (target : Nat) : Sound Depth none nothing (takeJump s pos target) := by
  unfold takeJump
  by_cases hrange : target > s.length
  · simp only [if_pos hrange]
    exact sound_once (keepsCalls_fail _)
  · by_cases hback : target ≤ pos
    · simp only [if_neg hrange, if_pos hback]
      exact (sound_once keepsCalls_heedInterrupt).bind fun _ => sound_return rfl
    · simp only [if_neg hrange, if_neg hback]
      exact sound_return rfl

theorem sound_drawOrJump (target : Nat) (withKey : Bool) (stack : List Value) :
    Sound Depth none nothing (drawOrJump s base pos target withKey stack) := by
  have hfail : ∀ e, Sound Depth none nothing (once (Run.fail e : Run Next)) := fun e =>
    sound_once (keepsCalls_fail e)
  rcases stack with _ | ⟨accumulator, _ | ⟨slot, rest⟩⟩
  · exact hfail _
  · exact hfail _
  · unfold drawOrJump
    by_cases hframe : rest.length < base
    · simp only [if_pos hframe]
      exact hfail _
    · simp only [if_neg hframe]
      cases slot with
      | iterator handle =>
        refine sound_after (keepsCalls_store _) (Run.noFailure_store _) fun drawn => ?_
        cases drawn with
        | some entry =>
          refine sound_aside ?_ ?_
          · cases withKey <;> exact fun _ => ⟨rfl, rfl⟩
          · cases withKey <;> exact fun _ _ h => nomatch h
        | none =>
          exact sound_after (keepsCalls_setOperands _) (fun _ _ h => nomatch h) fun _ =>
            sound_takeJump target
      | _ => exact hfail _

theorem sound_stepLoop (target : Nat) (withKey : Bool) :
    Sound Depth none nothing (stepLoop s base pos target withKey) :=
  (sound_once keepsCalls_heedInterrupt).bind fun _ =>
    sound_after keepsCalls_operands (fun _ _ h => nomatch h) fun stack =>
      sound_drawOrJump target withKey stack

theorem sound_stepCall (hcall : ∀ f args, Sound Depth none nothing (call f args)) (n : Nat)
    (op : Opcode) : Sound Depth none nothing (stepCall call s base pos n op) := by
  refine (sound_once (keepsCalls_callParts n)).bind fun parts => ?_
  refine sound_after (fun _ => ⟨rfl, rfl⟩) (fun _ _ h => nomatch h) fun height => ?_
  split
  · exact sound_return rfl
  · exact ((hcall _ _).atSite _).bind fun v =>
      sound_after (keepsCalls_push v) (fun _ _ h => nomatch h) fun _ => sound_return rfl

theorem sound_readVariable (var : Variable) : Sound Depth none nothing (readVariable var) :=
  sound_once (keepsCalls_readVariable var)

theorem sound_stepInstr (hcall : ∀ f args, Sound Depth none nothing (call f args))
    (i : Instruction) : Sound Depth none nothing (stepInstr call s base pos i) := by
  have hplain : Run.worksOnOperands i.opcode = true →
      Sound Depth none nothing (once (Run.stepInstr call.run s base pos i)) := fun h =>
    sound_once (operandsClosed_keepsCalls.stepInstr (fun _ => keepsCalls_store _) _ _ _ _ h)
  rcases i with ⟨opcode, n⟩
  have hpop : KeepsCalls (do let _ ← Run.pop base pos; return Next.goto (pos + 1)) :=
    keepsCalls_pop.bind fun _ => keepsCalls_pure _
  have hbranch : ∀ holds : Bool, Sound Depth none nothing
      (if holds then return .goto (pos + 1) else takeJump s pos n) := fun holds => by
    cases holds
    · exact sound_takeJump n
    · exact sound_return rfl
  cases opcode with
  | jump => exact sound_takeJump n
  | jumpIfNot => exact (sound_once (keepsCalls_tested keepsCalls_pop)).bind hbranch
  | jumpScAnd =>
    refine (sound_once (keepsCalls_tested keepsCalls_top)).bind fun holds => ?_
    cases holds
    · exact sound_takeJump n
    · exact sound_once hpop
  | jumpScOr =>
    refine (sound_once (keepsCalls_tested keepsCalls_top)).bind fun holds => ?_
    cases holds
    · exact sound_once hpop
    · exact sound_takeJump n
  | loop => exact sound_stepLoop n false
  | loopWithKey => exact sound_stepLoop n true
  | call => exact sound_stepCall hcall n .call
  | tailCall => exact sound_stepCall hcall n .tailCall
  | getVar =>
    exact (sound_readVariable _).bind fun v =>
      sound_after (keepsCalls_push v) (fun _ _ h => nomatch h) fun _ => sound_return rfl
  | setVar =>
    exact (sound_once keepsCalls_top).bind fun v =>
      sound_after (fun _ => ⟨rfl, rfl⟩) (fun _ _ h => nomatch h) fun _ => sound_return rfl
  | _ => exact hplain rfl

theorem sound_step (hcall : ∀ f args, Sound Depth none nothing (call f args)) :
    Sound Depth none nothing (step call s base pos) := by
  unfold step
  cases s.code[pos]? with
  | some i => exact sound_stepInstr hcall i
  | none => exact sound_once (keepsCalls_frameResult.bind fun _ => keepsCalls_pure _)

/-! ## Scripts -/

theorem sound_exhausted : Sound Depth none carried (quiet (throw .exhausted)) :=
  sound_quiet (keepsCalls_throw _) fun _ => rfl

theorem sound_runFrom (hcall : ∀ f args, Sound Depth none nothing (call f args))
    (budget pos : Nat) : Sound Depth none nothing (runFrom call s base budget pos) := by
  induction budget generalizing pos with
  | zero => exact sound_exhausted
  | succ budget ih =>
    refine (sound_step hcall).bind fun next => ?_
    cases next with
    | goto pos => exact ih pos
    | leave exit => exact sound_return rfl

/-- The result of a chain of scripts carries the error on its way. -/
theorem sound_runChain (hcall : ∀ f args, Sound Depth none nothing (call f args))
    (steps budget : Nat) (s : Script Value) (scope : Option Nat) :
    Sound Depth none (fun ended => failure nothing ended.1)
      (runChain call steps base budget s scope) := by
  induction budget generalizing s scope with
  | zero => exact sound_exhausted
  | succ budget ih =>
    refine (sound_runFrom hcall steps 0).attempt.bind fun left => ?_
    rcases left with e | v | ⟨target, bindings⟩
    · exact sound_return rfl
    · exact sound_return rfl
    · refine (sound_once keepsCalls_heedInterrupt).attempt.bind fun heeded => ?_
      cases heeded with
      | error e => exact sound_return rfl
      | ok _ =>
        refine sound_after ?_ ?_ fun mark => ih target (some mark)
        · intro m
          rw [Run.run_switchScope]
          exact ⟨rfl, rfl⟩
        · intro m e h
          rw [Run.run_switchScope] at h
          cases h

theorem sound_finish (result : Except EvalError Value) (scope : Option Nat) :
    Sound Depth (failure nothing result) nothing (quiet (Run.finish base result scope)) := by
  refine sound_quiet (fun m => ?_) fun m => ?_
  · cases scope <;> cases result <;> exact ⟨rfl, rfl⟩
  · cases scope <;> cases result <;> rfl

theorem sound_execute (hcall : ∀ f args, Sound Depth none nothing (call f args)) (budget : Nat)
    (s : Script Value) (scope : Option Nat) :
    Sound Depth none nothing (execute call budget s scope) := by
  refine sound_after (fun _ => ⟨rfl, rfl⟩) (fun _ _ h => nomatch h) fun base => ?_
  exact (sound_runChain hcall budget budget s scope).bind fun ended => sound_finish _ _

theorem sound_result (hcall : ∀ f args, Sound Depth none nothing (call f args)) (budget : Nat)
    (s : Script Value) (ownScope : Bool) :
    Sound Depth none nothing (result call budget s ownScope) := by
  refine sound_after ?_ ?_ fun scope => ?_
  · cases ownScope <;> exact fun _ => ⟨rfl, rfl⟩
  · cases ownScope <;> exact fun _ _ h => nomatch h
  · exact (sound_execute hcall budget s scope).bind fun v => sound_once (keepsCalls_ofExcept _)

/-- The machine without the call sites noted before, if no call is open. -/
def forgotten (m : Machine) : Machine :=
  if m.context.callDepth = 0 then (Run.forgetFrames m).2 else m

variable (call s) in
theorem evalWith_eq (budget : Nat) (ownScope : Bool) (m : Machine) :
    (evalWith call budget s ownScope).run m = (result call budget s ownScope).run (forgotten m) ∧
    (evalWith call budget s ownScope).raises m =
      (result call budget s ownScope).raises (forgotten m) := by
  unfold evalWith forgotten
  obtain ⟨hrun, hraises⟩ := bind_ok (x := quiet Run.context) (f := fun c =>
    if c.callDepth = 0 then do
      quiet Run.forgetFrames
      result call budget s ownScope
    else result call budget s ownScope) (Run.run_context m)
  by_cases hdepth : m.context.callDepth = 0
  · simp only [if_pos hdepth] at hrun hraises ⊢
    obtain ⟨hrun', hraises'⟩ := bind_ok (x := quiet Run.forgetFrames)
      (f := fun _ => result call budget s ownScope) (m := m) rfl
    exact ⟨hrun.trans hrun', hraises.trans hraises'⟩
  · simp only [if_neg hdepth] at hrun hraises ⊢
    exact ⟨hrun, hraises⟩

/-- Inside a call nothing is forgotten. -/
theorem sound_evalWith (hcall : ∀ f args, Sound (· ≠ 0) none nothing (call f args)) (budget : Nat)
    (s : Script Value) (ownScope : Bool) :
    Sound (· ≠ 0) none nothing (evalWith call budget s ownScope) := by
  intro m hm
  obtain ⟨hrun, hraises⟩ := evalWith_eq call s budget ownScope m
  rw [hrun, hraises, forgotten, if_neg hm]
  exact sound_result hcall budget s ownScope m hm

/-! ## Host functions -/

variable {evaluator : Script Value → Bool → Traced Value}

theorem failingWith_hostResult (result : Except EvalError Value) :
    failingWith (hostResult result) = failure nothing result := by
  cases result <;> rfl

/-- Contexts do not change which error a host function fails with. -/
theorem failingWith_addContexts (contexts : List String) (result : HostResult) :
    failingWith (result.mapError (·.addContexts contexts)) = failingWith result := by
  rcases result with ⟨_ | _, _⟩ | v <;> rfl

theorem sound_host (result : HostResult) : Sound Depth none failingWith (host result) := by
  intro m _
  rcases result with ⟨e | text, contexts⟩ | v
  · exact ⟨accounts_self (some e), fun _ => rfl, fun _ => (List.append_nil _).symm⟩
  · exact SameCalls.unwinds ⟨rfl, rfl⟩ none
  · exact SameCalls.unwinds ⟨rfl, rfl⟩ none

theorem sound_perform (hcall : ∀ f args, Sound Depth none nothing (call f args))
    (heval : ∀ s ownScope, Sound Depth none nothing (evaluator s ownScope))
    (action : HostAction Value) : Sound Depth none failingWith (perform call evaluator action) := by
  have hplain : ∀ {x : Run HostResult}, KeepsCalls x →
      (∀ m, inFlight failingWith (x m).1 = none) → Sound Depth none failingWith (quiet x) :=
    fun hx hn => sound_quiet hx hn
  induction action with
  | fail e => exact sound_host _
  | eval s ownScope => exact (heval s ownScope).attempt.map failingWith_hostResult
  | call function args => exact (hcall function args).attempt.map failingWith_hostResult
  | get var => exact (sound_readVariable var).attempt.map failingWith_hostResult
  | within contexts action ih =>
    exact ih.bind fun result => sound_return (failingWith_addContexts contexts result)
  | gate name =>
    refine hplain (fun m => ?_) fun m => ?_
    · unfold Run.perform
      split <;> exact ⟨rfl, rfl⟩
    · unfold Run.perform
      split <;> rfl
  | _ => exact hplain (fun _ => ⟨rfl, rfl⟩) fun _ => rfl

theorem sound_performAll (hcall : ∀ f args, Sound Depth none nothing (call f args))
    (heval : ∀ s ownScope, Sound Depth none nothing (evaluator s ownScope)) (last : Value)
    (actions : List (HostAction Value)) :
    Sound Depth none failingWith (performAll call evaluator last actions) := by
  induction actions generalizing last with
  | nil => exact sound_return rfl
  | cons action rest ih =>
    refine (sound_perform hcall heval action).bind fun result => ?_
    cases result with
    | ok v => exact ih v
    | error e => exact sound_return rfl

theorem sound_input : Sound Depth none nothing input :=
  sound_after (keepsCalls_store _) (Run.noFailure_store _) sound_readVariable

theorem sound_runHost (hcall : ∀ f args, Sound Depth none nothing (call f args))
    (heval : ∀ s ownScope, Sound Depth none nothing (evaluator s ownScope))
    (body : HostBody Value) : Sound Depth none failingWith (runHost call evaluator body) := by
  cases body with
  | prelude function =>
    refine sound_input.attempt.bind fun result => ?_
    cases result with
    | ok v => exact sound_host _
    | error e => exact sound_return rfl
  | actions steps => exact sound_performAll hcall heval .nil steps

/-- A failure is delayed, and so given up, unless it is that of a limit. -/
theorem sound_settle (name : String) (result : HostResult) :
    Sound Depth (failingWith result) nothing (quiet (Run.settle name result)) := by
  rcases result with ⟨e | text, contexts⟩ | v
  · have hsettle : Run.settle name (.error ⟨.eval e, contexts⟩) =
        if e.isLimit then Run.fail e else pure (.error e) := rfl
    rw [hsettle]
    cases hlimit : e.isLimit with
    | true => exact sound_quiet (keepsCalls_fail e) fun _ => rfl
    | false =>
      intro m _
      have hgivenUp : ∀ e' ∈ [e], e'.isLimit = false := by
        intro e' he'
        rw [List.mem_singleton.mp he', hlimit]
      exact ⟨⟨[e], rfl, hgivenUp⟩, fun _ => rfl, fun _ => (List.append_nil _).symm⟩
  · exact sound_quiet (x := (pure (Value.error _) : Run Value)) (keepsCalls_pure _) fun _ => rfl
  · exact sound_quiet (keepsCalls_pure v) fun _ => rfl

/-! ## Calls -/

theorem sound_ofExcept (result : Except EvalError α) :
    Sound Depth (failure carried result) carried (quiet (Run.ofExcept result)) := by
  cases result with
  | ok a => exact sound_quiet (keepsCalls_pure a) fun _ => rfl
  | error e => exact sound_quiet (keepsCalls_fail e) fun _ => rfl

theorem Sound.inScope (hx : Sound Depth none carried x) : Sound Depth none carried (inScope x) := by
  refine sound_after (fun _ => ⟨rfl, rfl⟩) (fun _ _ h => nomatch h) fun mark => ?_
  refine hx.attempt.bind fun result => ?_
  have hleave : Sound Depth (failure carried result) (fun _ => failure carried result)
      (quiet (Run.leaveScope mark)) := sound_quiet (fun _ => ⟨rfl, rfl⟩) fun _ => rfl
  exact hleave.bind fun _ => sound_ofExcept result

/-- The count is taken back, because what is counted does not fail. -/
theorem UnwindsTo.countedDown {m₁ : Machine} (hn : NoFailure x.run)
    (hdepth : m₁.context.callDepth = m.context.callDepth + 1)
    (hsites : m₁.context.backtrace = m.context.backtrace)
    (hx : UnwindsTo none (x.raises m₁) m₁ carried (x.run m₁)) :
    UnwindsTo none ((countedDown x).raises m₁) m carried ((countedDown x).run m₁) := by
  unfold Traced.countedDown
  rcases hout : x.run m₁ with ⟨stop | a, m₂⟩
  · rw [(bind_error hout).1, (bind_error hout).2]
    rw [hout] at hx
    cases stop with
    | error e => exact absurd (congrArg Prod.fst hout) (hn m₁ e)
    | _ => exact ⟨hx.accounts, fun h => absurd h id, fun h => absurd h id⟩
  · rw [(bind_ok hout).1, (bind_ok hout).2]
    rw [hout] at hx
    show Unwinds none (x.raises m₁ ++ []) (carried a) True m { m₂ with context :=
      { m₂.context with callDepth := m₂.context.callDepth - 1 } }
    rw [List.append_nil]
    refine ⟨hx.accounts, fun _ => ?_, fun _ => ?_⟩
    · show m₂.context.callDepth - 1 = m.context.callDepth
      have hkept : m₂.context.callDepth = m₁.context.callDepth := hx.callDepth trivial
      omega
    · rw [← hsites]
      exact hx.backtrace trivial

/-- What is counted as a call runs at a greater depth. -/
theorem Sound.counted (hx : Sound (· ≠ 0) none carried x) (hn : NoFailure x.run) :
    Sound Depth none carried (counted x) := by
  intro m _
  unfold Traced.counted
  rcases Run.beginCall_cases m with ⟨-, hbegin⟩ | ⟨-, hbegin⟩
  · rw [(bind_error (x := once Run.beginCall) hbegin).1,
      (bind_error (x := once Run.beginCall) hbegin).2, once_error hbegin]
    exact ⟨accounts_self (some _), fun _ => rfl, fun _ => (List.append_nil _).symm⟩
  · rw [(bind_ok (x := once Run.beginCall) hbegin).1,
      (bind_ok (x := once Run.beginCall) hbegin).2, once_ok hbegin, List.nil_append]
    exact UnwindsTo.countedDown hn rfl rfl (hx _ (Nat.succ_ne_zero _))

theorem sound_callScript (hcall : ∀ f args, Sound (· ≠ 0) none nothing (call f args))
    (budget : Nat) (s : Script Value) (args : Bindings) :
    Sound Depth none nothing (callScript call budget s args) := by
  refine Sound.bind (Sound.counted ?_ ?_) fun result => sound_ofExcept result
  · refine sound_after (fun _ => ⟨rfl, rfl⟩) (fun _ _ h => nomatch h) fun mark => ?_
    refine sound_after (fun _ => ⟨rfl, rfl⟩) (Run.noFailure_bindAll args) fun _ => ?_
    exact (sound_execute hcall budget s (some mark)).attempt
  · exact NoFailure.bind (fun _ _ h => nomatch h) fun mark =>
      (Run.noFailure_bindAll args).bind fun _ => Run.noFailure_attempt _

theorem sound_callHost (hcall : ∀ f args, Sound (· ≠ 0) none nothing (call f args))
    (heval : ∀ s ownScope, Sound (· ≠ 0) none nothing (evaluator s ownScope))
    (function : HostFunction Value) (args : Bindings) :
    Sound Depth none nothing (callHost call evaluator function args) := by
  unfold callHost
  cases args.find? fun b => b.2.isError with
  | some b => exact sound_return rfl
  | none =>
    refine Sound.bind (Sound.counted ?_ ?_) fun result => sound_settle _ result
    · refine Sound.inScope ?_
      exact sound_after (fun _ => ⟨rfl, rfl⟩) (Run.noFailure_bindAll args) fun _ =>
        sound_runHost hcall heval function.body
    · refine Run.noFailure_inScope ?_
      refine (Run.noFailure_bindAll args).bind fun _ => ?_
      show NoFailure (runHost call evaluator function.body).run
      rw [run_runHost]
      exact Run.noFailure_runHost _

theorem sound_callWith (hcall : ∀ {Depth} f args, Sound Depth none nothing (call f args))
    (budget : Nat) (function : Value) (args : Bindings) :
    Sound Depth none nothing (callWith call budget function args) := by
  cases function with
  | script s => exact sound_callScript hcall budget s args
  | builtin _ f => exact sound_callHost hcall (sound_evalWith hcall budget) f args
  | closure _ inner captured => exact hcall inner (captured ++ args)
  | composition _ first second =>
    exact (hcall first args).bind fun intermediate =>
      sound_after (keepsCalls_store _) (Run.noFailure_store _) fun input => hcall second _
  | _ => exact sound_return rfl

/-- Calls nest: the induction is on the budget, which bounds their depth. -/
theorem sound_callFor (budget : Nat) (function : Value) (args : Bindings) :
    Sound Depth none nothing (callFor budget function args) := by
  induction budget generalizing Depth function args with
  | zero => exact sound_exhausted
  | succ budget ih => exact sound_callWith (fun f args => ih f args) budget function args

end ReactiveScript.Traced
