import ReactiveScript.Proofs.Traced

/-
  What is not looked up does not show.

  Two machines that agree on everything but some bindings of variables are told apart by an evaluation
  only if it looks up one of those, as the lists of `Traced` say. `AgreeBut unseen` relates their
  variables: only the lookups that `unseen` excludes may find other values. `InStep` relates two
  evaluations that come to the same, as long as the first one makes no such lookup, with what their
  variables are like before and after. One rule for each combinator, then one lemma for each function
  of the evaluator, up to a script in a scope of its own (`inStep_execute`): it runs the same in a scope
  entered where variables are bound that it does not look up.
-/

namespace ReactiveScript

/-! ## Variables that agree -/

namespace Environment

/-- How a variable compares in two environments: it is not to be looked up, whatever it is bound to, or
it is bound too deep in neither, and has the same value in both unless it is not to be looked up as it is
bound in the first one. -/
inductive AgreeOn (unseen : Lookup → Prop) (e f : Environment) (var : Variable) : Prop
  | excluded : (∀ level, unseen ⟨var, level⟩) → AgreeOn unseen e f var
  | bounded : e.BoundedAt var → f.BoundedAt var →
    (unseen (e.lookup var) ∨ f.get? var = e.get? var) → AgreeOn unseen e f var

/-- Variables agree, also when the scopes with the given marks are closed, the innermost first. -/
inductive AgreeBut (unseen : Lookup → Prop) : List (Nat × Nat) → Environment → Environment → Prop
  | plain {e f : Environment} : (∀ var, AgreeOn unseen e f var) → AgreeBut unseen [] e f
  | within {marks : List (Nat × Nat)} {o p e f : Environment} : AgreeBut unseen marks o p →
    o.Nested e → p.Nested f → (∀ var, AgreeOn unseen e f var) →
    AgreeBut unseen ((o.hiddenCount, p.hiddenCount) :: marks) e f

variable {unseen : Lookup → Prop} {marks : List (Nat × Nat)} {e f e' f' : Environment}
  {var : Variable}

theorem boundedAt_enterScope (h : e.BoundedAt var) : e.enterScope.2.BoundedAt var :=
  fun slot hslot => Nat.le_succ_of_le (h slot hslot)

/-- A variable still agrees if, not bound too deep, it has the slots that it had. -/
theorem AgreeOn.of_slots (h : AgreeOn unseen e f var)
    (he : e.BoundedAt var → e'.BoundedAt var ∧ e'.slot? var = e.slot? var)
    (hf : f.BoundedAt var → f'.BoundedAt var ∧ f'.slot? var = f.slot? var) :
    AgreeOn unseen e' f' var := by
  cases h with
  | excluded h => exact .excluded h
  | bounded hbe hbf h =>
    obtain ⟨hbe', hslot⟩ := he hbe
    obtain ⟨hbf', hslot'⟩ := hf hbf
    unfold lookup get? at h
    refine .bounded hbe' hbf' ?_
    unfold lookup get?
    rw [hslot, hslot']
    exact h

theorem AgreeOn.set (h : AgreeOn unseen e f var) (x : Variable) (v : Value) :
    AgreeOn unseen (e.set x v) (f.set x v) var := by
  by_cases hx : x = var
  · refine .bounded ((boundedAt_set x v).2 (.inl hx)) ((boundedAt_set x v).2 (.inl hx)) (.inr ?_)
    rw [get?_set, get?_set, if_pos hx, if_pos hx]
  · refine h.of_slots (fun hb => ⟨(boundedAt_set x v).2 (.inr hb), ?_⟩)
      (fun hb => ⟨(boundedAt_set x v).2 (.inr hb), ?_⟩) <;>
    rw [slot?_set, if_neg hx]

namespace AgreeBut

theorem on (h : AgreeBut unseen marks e f) (var : Variable) : AgreeOn unseen e f var := by
  cases h with
  | plain h => exact h var
  | within _ _ _ h => exact h var

/-- A variable that may be looked up has the same value. -/
theorem get? (h : AgreeBut unseen marks e f) (hseen : ¬ unseen (e.lookup var)) :
    f.get? var = e.get? var := by
  cases h.on var with
  | excluded h => exact absurd (h _) hseen
  | bounded _ _ h => exact h.resolve_left hseen

theorem set (h : AgreeBut unseen marks e f) (x : Variable) (v : Value) :
    AgreeBut unseen marks (e.set x v) (f.set x v) := by
  cases h with
  | plain h => exact .plain fun var => (h var).set x v
  | within ho he hf h => exact .within ho (he.set x v) (hf.set x v) fun var => (h var).set x v

theorem setAll (h : AgreeBut unseen marks e f) (bindings : Bindings) :
    AgreeBut unseen marks (e.setAll bindings) (f.setAll bindings) := by
  induction bindings generalizing e f with
  | nil => exact h
  | cons b rest ih => exact ih (h.set b.1 b.2)

theorem enterScope (h : AgreeBut unseen marks e f) :
    AgreeBut unseen ((e.hiddenCount, f.hiddenCount) :: marks) e.enterScope.2 f.enterScope.2 :=
  .within h (nested_enterScope e) (nested_enterScope f) fun var =>
    (h.on var).of_slots (fun hb => ⟨boundedAt_enterScope hb, rfl⟩)
      fun hb => ⟨boundedAt_enterScope hb, rfl⟩

theorem retained (h : AgreeBut unseen marks e f) (he : e.Retains e') (hf : f.Retains f') :
    AgreeBut unseen marks e' f' := by
  have hon : ∀ var, AgreeOn unseen e' f' var := fun var =>
    (h.on var).of_slots (fun hb => ⟨he.boundedAt hb, he.slots var hb⟩)
      fun hb => ⟨hf.boundedAt hb, hf.slots var hb⟩
  cases h with
  | plain _ => exact .plain hon
  | within ho hin hin' _ => exact .within ho (hin.retains he) (hin'.retains hf) hon

theorem leaveScope {mark mark' : Nat} (h : AgreeBut unseen ((mark, mark') :: marks) e f) :
    AgreeBut unseen marks (e.leaveScope mark) (f.leaveScope mark') := by
  cases h with
  | within ho he hf _ => exact ho.retained he.leaveScope hf.leaveScope

/-- The scope of a script is closed, if it has one. -/
theorem closed {scope scope' : Option Nat} {inner : List (Nat × Nat)}
    (h : AgreeBut unseen inner e f) (hopen : Run.Opened marks scope scope' inner) :
    AgreeBut unseen marks (Run.closeScope scope e) (Run.closeScope scope' f) := by
  cases hopen with
  | none => exact h
  | some mark mark' => exact h.leaveScope

end AgreeBut

end Environment

open Environment (AgreeBut)

/-! ## Evaluations that leave variables alone -/

namespace Run

variable {α β : Type}

/-- The evaluation depends on no variable, and changes none. -/
def EnvFree (x : Run α) : Prop := ∀ m f, x (m.withEnv f) = ((x m).1, (x m).2.withEnv f)

theorem EnvFree.env {x : Run α} (hx : EnvFree x) (m : Machine) :
    (x m).2.context.env = m.context.env := by
  have h : x m = ((x m).1, (x m).2.withEnv m.context.env) := hx m m.context.env
  rw [h]
  rfl

theorem EnvFree.bind {x : Run α} {f : α → Run β} (hx : EnvFree x) (hf : ∀ a, EnvFree (f a)) :
    EnvFree (x >>= f) := by
  intro m env
  rw [run_bind, run_bind, hx m env]
  rcases x m with ⟨stop | a, m₁⟩
  · rfl
  · exact hf a m₁ env

theorem envFree_pure (a : α) : EnvFree (pure a : Run α) := fun _ _ => rfl

theorem envFree_throw (stop : Stop) : EnvFree (throw stop : Run α) := fun _ _ => rfl

theorem envFree_fail (e : EvalError) : EnvFree (fail e : Run α) := envFree_throw _

theorem envFree_store (x : StateM Store α) : EnvFree (store x) := fun _ _ => rfl

theorem envFree_operands : EnvFree operands := fun _ _ => rfl

theorem envFree_setOperands (stack : List Value) : EnvFree (setOperands stack) := fun _ _ => rfl

theorem operandsClosed_envFree : OperandsClosed EnvFree :=
  ⟨envFree_pure, envFree_fail, .bind, envFree_operands, envFree_setOperands⟩

theorem envFree_push (v : Value) : EnvFree (push v) := operandsClosed_envFree.push v

theorem envFree_height : EnvFree height := fun _ _ => rfl

theorem envFree_heedInterrupt : EnvFree heedInterrupt := by
  intro m f
  unfold heedInterrupt
  rw [run_bind_ok (run_context _), run_bind_ok (run_context _)]
  refine (envFree_store (Store.isInterrupted m.context.settings.interrupt)).bind
    (fun interrupted => ?_) m f
  cases interrupted
  · exact envFree_pure ()
  · exact envFree_fail _

theorem envFree_beginCall : EnvFree beginCall := by
  intro m f
  unfold beginCall
  rw [run_bind_ok (run_context _), run_bind_ok (run_context _)]
  by_cases h : m.context.callDepth ≥ m.context.settings.maxCallDepth
  · have h' : (m.withEnv f).context.callDepth ≥ (m.withEnv f).context.settings.maxCallDepth := h
    rw [if_pos h, if_pos h']
    exact envFree_fail _ m f
  · have h' : ¬ (m.withEnv f).context.callDepth ≥ (m.withEnv f).context.settings.maxCallDepth := h
    rw [if_neg h, if_neg h']
    rfl

theorem envFree_tested {x : Run Value} (hx : EnvFree x) :
    EnvFree (do ofExcept (← x).toBool) := hx.bind fun _ => operandsClosed_envFree.ofExcept _

theorem envFree_callParts (s : Script Value) (base pos n : Nat) :
    EnvFree (callParts s base pos n) :=
  (operandsClosed_envFree.ofExcept _).bind fun _ => (operandsClosed_envFree.popMany n).bind fun _ =>
    operandsClosed_envFree.pop.bind fun _ => envFree_pure _

theorem envFree_settle (name : String) (result : HostResult) : EnvFree (settle name result) := by
  cases result with
  | ok v => exact envFree_pure v
  | error e =>
    unfold settle
    dsimp only
    split
    · exact envFree_fail _
    · exact envFree_pure _

end Run

/-! ## Evaluations in step -/

namespace Traced

open Run (Returned HostResult hostResult run_bind run_attempt EnvFree Opened)

variable {α α' β β' γ : Type} {unseen : Lookup → Prop}

/-- How variables compare on two machines. -/
abbrev EnvRel := Environment → Environment → Prop

/-- Two evaluations came to the same on machines that differ in their variables only: both returned, or
failed with the same error, or stopped for the same reason. -/
inductive Matched (post : α → β → EnvRel) (failed : EnvRel) :
    Except Stop α × Machine → Except Stop β × Machine → Prop
  | ok {a : α} {b : β} {m : Machine} {f : Environment} : post a b m.context.env f →
    Matched post failed (.ok a, m) (.ok b, m.withEnv f)
  | error (e : EvalError) {m : Machine} {f : Environment} : failed m.context.env f →
    Matched post failed (.error (.error e), m) (.error (.error e), m.withEnv f)
  | stopped {stop : Stop} {m : Machine} (f : Environment) : (∀ e, stop ≠ .error e) →
    Matched post failed (.error stop, m) (.error stop, m.withEnv f)

/-- From machines whose variables compare by `pre`, the evaluations come to the same, and their values
and variables compare by `post` then, or, after an error, the variables by `failed`; unless the first
one looks up what is not to be looked up. -/
def InStep (unseen : Lookup → Prop) (pre : EnvRel) (x : Traced α) (y : Traced β)
    (post : α → β → EnvRel) (failed : EnvRel) : Prop :=
  ∀ m f, pre m.context.env f → (∀ look ∈ x.lookups m, ¬ unseen look) →
    Matched post failed (x.run m) (y.run (m.withEnv f))

/-- The values are the same. -/
def same (R : EnvRel) (a b : α) (e f : Environment) : Prop := a = b ∧ R e f

/-- The evaluation is in step with itself wherever variables agree, whatever scopes are open. -/
def Blind (unseen : Lookup → Prop) (x : Traced α) : Prop :=
  ∀ marks, InStep unseen (AgreeBut unseen marks) x x (same (AgreeBut unseen marks))
    (AgreeBut unseen marks)

section Rules

variable {pre failed R : EnvRel} {Q : α → α' → EnvRel} {post : β → β' → EnvRel} {x : Traced α}
  {y : Traced α'} {f : α → Traced β} {g : α' → Traced β'}

theorem InStep.bind (hx : InStep unseen pre x y Q failed)
    (hf : ∀ a b, InStep unseen (Q a b) (f a) (g b) post failed) :
    InStep unseen pre (x >>= f) (y >>= g) post failed := by
  intro m env hpre hseen
  rw [lookups_bind] at hseen
  have hx := hx m env hpre fun look h => hseen look (List.mem_append_left _ h)
  show Matched post failed ((x.run >>= fun a => (f a).run) m)
    ((y.run >>= fun b => (g b).run) (m.withEnv env))
  rw [run_bind, run_bind]
  generalize x.run m = out at hx hseen ⊢
  generalize y.run (m.withEnv env) = out' at hx ⊢
  cases hx with
  | ok h => exact hf _ _ _ _ h fun look hl => hseen look (List.mem_append_right _ hl)
  | error e h => exact .error e h
  | stopped env' h => exact .stopped env' h

/-- What always returns never fails. -/
theorem InStep.of_ok (h : ∀ m f, pre m.context.env f → ∃ a b m' f', x.run m = (.ok a, m') ∧
      y.run (m.withEnv f) = (.ok b, m'.withEnv f') ∧ Q a b m'.context.env f') :
    InStep unseen pre x y Q failed := by
  intro m f hpre _
  obtain ⟨a, b, m', f', hx, hy, hmid⟩ := h m f hpre
  rw [hx, hy]
  exact .ok hmid

/-- A result is as good as a value, so that there is no error left. -/
theorem InStep.attempt {x y : Traced α} (hx : InStep unseen pre x y (same R) R) :
    InStep unseen pre (attempt x) (attempt y) (same R) failed := by
  intro m env hpre hseen
  have hx := hx m env hpre hseen
  show Matched (same R) failed (Run.attempt x.run m) (Run.attempt y.run (m.withEnv env))
  rw [run_attempt, run_attempt]
  generalize x.run m = out at hx ⊢
  generalize y.run (m.withEnv env) = out' at hx ⊢
  cases hx with
  | ok h => exact .ok ⟨congrArg Except.ok h.1, h.2⟩
  | error e h => exact .ok ⟨rfl, h⟩
  | @stopped stop _ env' h =>
    cases stop with
    | error e => exact absurd rfl (h e)
    | _ => exact .stopped env' nofun

theorem matched_of_env {out : Except Stop α × Machine} {env : Environment}
    (h : R out.2.context.env env) : Matched (same R) R out (out.1, out.2.withEnv env) := by
  rcases out with ⟨(e | _ | _ | _) | a, m⟩
  · exact .error e h
  · exact .stopped env nofun
  · exact .stopped env nofun
  · exact .stopped env nofun
  · exact .ok ⟨rfl, h⟩

theorem Matched.outcome {out out' : Except Stop α × Machine}
    (h : Matched (same R) failed out out') : out'.1 = out.1 := by
  cases h with
  | ok h => exact congrArg Except.ok h.1.symm
  | error e _ => rfl
  | stopped _ _ => rfl

theorem inStep_of_envFree {x : Traced α} (hx : EnvFree x.run) :
    InStep unseen R x x (same R) R := by
  intro m env hpre _
  rw [hx m env]
  rw [← hx.env m] at hpre
  exact matched_of_env hpre

end Rules

section Blind

variable {x : Traced α} {f : α → Traced β}

theorem Blind.bind (hx : Blind unseen x) (hf : ∀ a, Blind unseen (f a)) :
    Blind unseen (x >>= f) := fun marks => (hx marks).bind fun a b m env hab => by
  obtain ⟨rfl, hagree⟩ := hab
  exact hf a marks m env hagree

theorem blind_quiet {x : Run α} (hx : EnvFree x) : Blind unseen (quiet x) :=
  fun _ => inStep_of_envFree hx

theorem blind_once {x : Run α} (hx : EnvFree x) : Blind unseen (once x) :=
  fun _ => inStep_of_envFree hx

theorem blind_return (a : α) : Blind unseen (pure a : Traced α) :=
  fun _ => inStep_of_envFree (Run.envFree_pure a)

theorem Blind.attempt (hx : Blind unseen x) : Blind unseen (attempt x) :=
  fun marks => (hx marks).attempt

theorem Blind.map (hx : Blind unseen x) (g : α → β) : Blind unseen (g <$> x) := by
  intro marks m env hpre hseen
  have hx := hx marks m env hpre hseen
  show Matched _ _ ((g <$> x.run) m) ((g <$> x.run) (m.withEnv env))
  rw [Run.run_map, Run.run_map]
  generalize x.run m = out at hx ⊢
  generalize x.run (m.withEnv env) = out' at hx ⊢
  cases hx with
  | ok h => exact .ok ⟨congrArg g h.1, h.2⟩
  | error e h => exact .error e h
  | stopped env' h => exact .stopped env' h

theorem inStep_bindAll {marks : List (Nat × Nat)} {failed : EnvRel} (bindings : Bindings) :
    InStep unseen (AgreeBut unseen marks) (quiet (Run.bindAll bindings))
      (quiet (Run.bindAll bindings)) (same (AgreeBut unseen marks)) failed :=
  .of_ok fun _ _ h => ⟨_, _, _, _, rfl, rfl, rfl, h.setAll bindings⟩

theorem blind_bindAll (bindings : Bindings) : Blind unseen (quiet (Run.bindAll bindings)) :=
  fun _ => inStep_bindAll bindings

theorem blind_readVariable (var : Variable) : Blind unseen (readVariable var) := by
  intro marks m env h hseen
  have hget : env.get? var = m.context.env.get? var :=
    h.get? (hseen _ (List.mem_singleton_self _))
  show Matched _ _ (Run.readVariable var m) (Run.readVariable var (m.withEnv env))
  unfold Run.readVariable
  rw [Run.run_bind_ok (Run.run_context _), Run.run_bind_ok (Run.run_context _)]
  rw [show (m.withEnv env).context.env.get? var = m.context.env.get? var from hget]
  cases m.context.env.get? var with
  | some v => exact matched_of_env h
  | none => exact matched_of_env h

theorem Blind.atSite (hx : Blind unseen x) (site : StateM Store String) :
    Blind unseen (atSite site x) := by
  intro marks m env hpre hseen
  have hx := hx marks m env hpre hseen
  unfold Traced.atSite
  dsimp only
  rw [run_bind, run_bind, run_attempt, run_attempt]
  generalize x.run m = out at hx ⊢
  generalize x.run (m.withEnv env) = out' at hx ⊢
  cases hx with
  | ok h => exact .ok h
  | error e h => exact .error e h
  | @stopped stop _ env' h =>
    cases stop with
    | error e => exact absurd rfl (h e)
    | _ => exact .stopped env' nofun

end Blind

/-! ## Instructions -/

variable {call : Caller} {s : Script Value} {base pos : Nat}

theorem blind_takeJump (target : Nat) : Blind unseen (takeJump s pos target) := by
  unfold takeJump
  by_cases hrange : target > s.length
  · simp only [if_pos hrange]
    exact blind_once (Run.envFree_fail _)
  · by_cases hback : target ≤ pos
    · simp only [if_neg hrange, if_pos hback]
      exact (blind_once Run.envFree_heedInterrupt).bind fun _ => blind_return _
    · simp only [if_neg hrange, if_neg hback]
      exact blind_return _

theorem blind_drawOrJump (target : Nat) (withKey : Bool) (stack : List Value) :
    Blind unseen (drawOrJump s base pos target withKey stack) := by
  have hfail : ∀ e, Blind unseen (once (Run.fail e : Run Next)) := fun e =>
    blind_once (Run.envFree_fail e)
  rcases stack with _ | ⟨accumulator, _ | ⟨slot, rest⟩⟩
  · exact hfail _
  · exact hfail _
  · unfold drawOrJump
    by_cases hframe : rest.length < base
    · simp only [if_pos hframe]
      exact hfail _
    · simp only [if_neg hframe]
      cases slot with
      | iterator handle =>
        refine (blind_quiet (Run.envFree_store _)).bind fun drawn => ?_
        cases drawn with
        | some entry => cases withKey <;> exact blind_quiet fun _ _ => rfl
        | none =>
          exact (blind_quiet (Run.envFree_setOperands _)).bind fun _ => blind_takeJump target
      | _ => exact hfail _

theorem blind_stepLoop (target : Nat) (withKey : Bool) :
    Blind unseen (stepLoop s base pos target withKey) :=
  (blind_once Run.envFree_heedInterrupt).bind fun _ =>
    (blind_quiet Run.envFree_operands).bind fun stack => blind_drawOrJump target withKey stack

theorem blind_stepCall (hcall : ∀ f args, Blind unseen (call f args)) (n : Nat) (op : Opcode) :
    Blind unseen (stepCall call s base pos n op) := by
  refine (blind_once (Run.envFree_callParts _ _ _ _)).bind fun parts => ?_
  refine (blind_quiet Run.envFree_height).bind fun height => ?_
  split
  · exact blind_return _
  · exact ((hcall _ _).atSite _).bind fun v =>
      (blind_quiet (Run.envFree_push v)).bind fun _ => blind_return _

theorem blind_stepInstr (hcall : ∀ f args, Blind unseen (call f args)) (i : Instruction) :
    Blind unseen (stepInstr call s base pos i) := by
  have hplain : Run.worksOnOperands i.opcode = true →
      Blind unseen (once (Run.stepInstr call.run s base pos i)) := fun h =>
    blind_once (Run.operandsClosed_envFree.stepInstr (fun _ => Run.envFree_store _) _ _ _ _ h)
  rcases i with ⟨opcode, n⟩
  have hpop : Blind unseen (once do
      let _ ← Run.pop base pos
      return Next.goto (pos + 1)) :=
    blind_once (Run.operandsClosed_envFree.pop.bind fun _ => Run.envFree_pure _)
  have htop : EnvFree (Run.top base pos) := Run.operandsClosed_envFree.top
  have htested : ∀ {x : Run Value}, EnvFree x →
      Blind unseen (once do Run.ofExcept (← x).toBool) := fun hx =>
    blind_once (Run.envFree_tested hx)
  cases opcode with
  | jump => exact blind_takeJump n
  | jumpIfNot =>
    refine (htested Run.operandsClosed_envFree.pop).bind fun holds => ?_
    cases holds
    · exact blind_takeJump n
    · exact blind_return _
  | jumpScAnd =>
    refine (htested htop).bind fun holds => ?_
    cases holds
    · exact blind_takeJump n
    · exact hpop
  | jumpScOr =>
    refine (htested htop).bind fun holds => ?_
    cases holds
    · exact hpop
    · exact blind_takeJump n
  | loop => exact blind_stepLoop n false
  | loopWithKey => exact blind_stepLoop n true
  | call => exact blind_stepCall hcall n .call
  | tailCall => exact blind_stepCall hcall n .tailCall
  | getVar =>
    exact (blind_readVariable _).bind fun v =>
      (blind_quiet (Run.envFree_push v)).bind fun _ => blind_return _
  | setVar =>
    exact (blind_once htop).bind fun v =>
      (blind_bindAll [(⟨n⟩, v)]).bind fun _ => blind_return _
  | _ => exact hplain rfl

theorem blind_step (hcall : ∀ f args, Blind unseen (call f args)) :
    Blind unseen (step call s base pos) := by
  unfold step
  cases s.code[pos]? with
  | some i => exact blind_stepInstr hcall i
  | none =>
    exact blind_once (Run.operandsClosed_envFree.frameResult.bind fun _ => Run.envFree_pure _)

/-! ## Scripts -/

theorem blind_exhausted : Blind unseen (quiet (throw .exhausted) : Traced α) :=
  blind_quiet (Run.envFree_throw _)

theorem blind_runFrom (hcall : ∀ f args, Blind unseen (call f args)) (budget pos : Nat) :
    Blind unseen (runFrom call s base budget pos) := by
  induction budget generalizing pos with
  | zero => exact blind_exhausted
  | succ budget ih =>
    refine (blind_step hcall).bind fun next => ?_
    cases next with
    | goto pos => exact ih pos
    | leave exit => exact blind_return exit

variable {marks inner : List (Nat × Nat)} {scope scope' : Option Nat}

/-- The same result, and scopes that can be closed. -/
def EndsAlike (unseen : Lookup → Prop) (marks : List (Nat × Nat))
    (ended ended' : Except EvalError Value × Option Nat) (e f : Environment) : Prop :=
  ended.1 = ended'.1 ∧ ∃ inner, Opened marks ended.2 ended'.2 inner ∧ AgreeBut unseen inner e f

theorem inStep_ended {failed : EnvRel} (hopen : Opened marks scope scope' inner)
    (result : Except EvalError Value) : InStep unseen (AgreeBut unseen inner)
      (pure (result, scope) : Traced _) (pure (result, scope')) (EndsAlike unseen marks) failed :=
  .of_ok fun m f h => ⟨_, _, m, f, rfl, rfl, rfl, inner, hopen, h⟩

/-- The scope of a script that makes a tail call is closed, and that of its target opened. -/
theorem inStep_switchScope {failed : EnvRel} (hopen : Opened marks scope scope' inner)
    (bindings : Bindings) : InStep unseen (AgreeBut unseen inner)
      (quiet (Run.switchScope scope bindings)) (quiet (Run.switchScope scope' bindings))
      (fun mark mark' => AgreeBut unseen ((mark, mark') :: marks)) failed :=
  .of_ok fun m f h => ⟨_, _, _, _, Run.run_switchScope scope bindings m,
    Run.run_switchScope scope' bindings (m.withEnv f), (h.closed hopen).enterScope.setAll bindings⟩

theorem inStep_runChain {failed : EnvRel} (hcall : ∀ f args, Blind unseen (call f args))
    (steps budget : Nat) (s : Script Value) (hopen : Opened marks scope scope' inner) :
    InStep unseen (AgreeBut unseen inner) (runChain call steps base budget s scope)
      (runChain call steps base budget s scope') (EndsAlike unseen marks) failed := by
  induction budget generalizing s scope scope' inner with
  | zero => exact fun m f _ _ => .stopped f nofun
  | succ budget ih =>
    refine (blind_runFrom hcall steps 0 inner).attempt.bind fun left left' m f h => ?_
    obtain ⟨rfl, h⟩ := h
    rcases left with e | v | ⟨target, bindings⟩
    · exact inStep_ended hopen _ m f h
    · exact inStep_ended hopen _ m f h
    · refine InStep.bind (Q := same (AgreeBut unseen inner))
        (blind_once Run.envFree_heedInterrupt inner).attempt
        (fun heeded heeded' m f h => ?_) m f h
      obtain ⟨rfl, h⟩ := h
      cases heeded with
      | error e => exact inStep_ended hopen _ m f h
      | ok _ =>
        exact (inStep_switchScope hopen bindings).bind
          (fun mark mark' => ih target (.some mark mark')) m f h

theorem inStep_finish (hopen : Opened marks scope scope' inner) (base : Nat)
    (result : Except EvalError Value) : InStep unseen (AgreeBut unseen inner)
      (quiet (Run.finish base result scope)) (quiet (Run.finish base result scope'))
      (same (AgreeBut unseen marks)) (AgreeBut unseen marks) := by
  intro m f h _
  show Matched _ _ (Run.finish base result scope m) (Run.finish base result scope' (m.withEnv f))
  rw [Run.run_finish, Run.run_finish]
  cases result with
  | ok v => exact matched_of_env (h.closed hopen)
  | error e => exact matched_of_env (h.closed hopen)

/-- A script on a frame of its own, in a scope that may have been entered elsewhere. -/
theorem inStep_execute (hcall : ∀ f args, Blind unseen (call f args)) (budget : Nat)
    (s : Script Value) (hopen : Opened marks scope scope' inner) :
    InStep unseen (AgreeBut unseen inner) (execute call budget s scope)
      (execute call budget s scope') (same (AgreeBut unseen marks)) (AgreeBut unseen marks) := by
  refine InStep.bind (Q := same (AgreeBut unseen inner))
    (.of_ok fun m f h => ⟨_, _, m, f, rfl, rfl, rfl, h⟩) fun base base' m f h => ?_
  obtain ⟨rfl, h⟩ := h
  refine (inStep_runChain hcall budget budget s hopen).bind (fun ended ended' m f h => ?_) m f h
  obtain ⟨hresult, inner, hopen, h⟩ := h
  rw [← hresult]
  exact inStep_finish hopen base ended.1 m f h

theorem blind_result (hcall : ∀ f args, Blind unseen (call f args)) (budget : Nat)
    (s : Script Value) (ownScope : Bool) : Blind unseen (result call budget s ownScope) := by
  intro marks
  have hforce : ∀ v : Value, Blind unseen (once (Run.ofExcept v.force)) := fun v =>
    blind_once (Run.operandsClosed_envFree.ofExcept _)
  refine InStep.bind (Q := fun scope scope' e f =>
      ∃ inner, Opened marks scope scope' inner ∧ AgreeBut unseen inner e f) (.of_ok ?_)
    fun scope scope' m f h => ?_
  · intro m f h
    cases ownScope with
    | false => exact ⟨_, _, m, f, rfl, rfl, _, .none, h⟩
    | true => exact ⟨_, _, _, _, rfl, rfl, _, .some _ _, h.enterScope⟩
  · obtain ⟨inner, hopen, h⟩ := h
    refine (inStep_execute hcall budget s hopen).bind (fun v v' m f h => ?_) m f h
    obtain ⟨rfl, h⟩ := h
    exact hforce v marks m f h

theorem blind_evalWith (hcall : ∀ f args, Blind unseen (call f args)) (budget : Nat)
    (s : Script Value) (ownScope : Bool) : Blind unseen (evalWith call budget s ownScope) := by
  intro marks
  refine InStep.bind (Q := fun c c' e f => c'.callDepth = c.callDepth ∧ AgreeBut unseen marks e f)
    (.of_ok fun m f h => ⟨_, _, m, f, rfl, rfl, rfl, h⟩) fun c c' m f h => ?_
  obtain ⟨hdepth, h⟩ := h
  rw [hdepth]
  have hresult := blind_result hcall budget s ownScope
  by_cases h0 : c.callDepth = 0
  · simp only [if_pos h0]
    have hforget : EnvFree Run.forgetFrames := fun _ _ => rfl
    exact ((blind_quiet hforget).bind fun _ => hresult) marks m f h
  · simp only [if_neg h0]
    exact hresult marks m f h

/-! ## Host functions -/

variable {evaluator : Script Value → Bool → Traced Value}

/-- A variable is logged as it is bound. -/
theorem blind_logVariable (var : Variable) : Blind unseen
    (lookingUp var (quiet do Run.logVariable var; return .ok .nil) : Traced HostResult) := by
  intro marks m env h hseen
  have hget : env.get? var = m.context.env.get? var :=
    h.get? (hseen _ (List.mem_singleton_self _))
  have hlog : ∀ n : Machine, Run.logVariable var n = (.ok (), { n with store :=
      (Store.write (.variable (Store.nameOf var n.store).1 (n.context.env.get? var))
        (Store.nameOf var n.store).2).2 }) := fun _ => rfl
  show Matched _ _ ((Run.logVariable var >>= _) m) ((Run.logVariable var >>= _) (m.withEnv env))
  rw [Run.run_bind_ok (hlog m), Run.run_bind_ok (hlog (m.withEnv env)),
    show (m.withEnv env).context.env.get? var = m.context.env.get? var from hget]
  exact matched_of_env h

theorem blind_perform (hcall : ∀ f args, Blind unseen (call f args))
    (heval : ∀ s ownScope, Blind unseen (evaluator s ownScope)) (action : HostAction Value) :
    Blind unseen (perform call evaluator action) := by
  induction action with
  | fail e => exact fun _ => inStep_of_envFree (Run.envFree_pure _)
  | eval s ownScope => exact (heval s ownScope).attempt.map _
  | call function args => exact (hcall function args).attempt.map _
  | get var => exact (blind_readVariable var).attempt.map _
  | logVariable var => exact blind_logVariable var
  | set var v => exact (blind_bindAll [(var, v)]).bind fun _ => blind_return _
  | within contexts action ih => exact ih.bind fun _ => blind_return _
  | give v => exact blind_quiet (Run.envFree_pure _)
  | log text => exact blind_quiet ((Run.envFree_store _).bind fun _ => Run.envFree_pure _)
  | interrupt => exact blind_quiet fun _ _ => rfl
  | panic payload => exact blind_quiet (Run.envFree_throw _)
  | gate name =>
    refine blind_quiet fun m f => ?_
    unfold Run.perform
    by_cases hopen : m.store.openGates.contains name = true
    · have hopen' : (m.withEnv f).store.openGates.contains name = true := hopen
      rw [if_pos hopen, if_pos hopen']
    · have hopen' : ¬ (m.withEnv f).store.openGates.contains name = true := hopen
      rw [if_neg hopen, if_neg hopen']

theorem blind_performAll (hcall : ∀ f args, Blind unseen (call f args))
    (heval : ∀ s ownScope, Blind unseen (evaluator s ownScope)) (last : Value)
    (actions : List (HostAction Value)) :
    Blind unseen (performAll call evaluator last actions) := by
  induction actions generalizing last with
  | nil => exact blind_return _
  | cons action rest ih =>
    refine (blind_perform hcall heval action).bind fun result => ?_
    cases result with
    | ok v => exact ih v
    | error e => exact blind_return _

theorem blind_input : Blind unseen input :=
  (blind_quiet (Run.envFree_store _)).bind blind_readVariable

theorem blind_runHost (hcall : ∀ f args, Blind unseen (call f args))
    (heval : ∀ s ownScope, Blind unseen (evaluator s ownScope)) (body : HostBody Value) :
    Blind unseen (runHost call evaluator body) := by
  cases body with
  | prelude function =>
    refine blind_input.attempt.bind fun result => ?_
    cases result with
    | ok v => exact fun _ => inStep_of_envFree (Run.envFree_pure _)
    | error e => exact blind_return _
  | actions steps => exact blind_performAll hcall heval .nil steps

/-! ## Calls -/

theorem inStep_enterScope {failed : EnvRel} : InStep unseen (AgreeBut unseen marks)
    (quiet Run.enterScope) (quiet Run.enterScope)
    (fun mark mark' => AgreeBut unseen ((mark, mark') :: marks)) failed :=
  .of_ok fun _ _ h => ⟨_, _, _, _, rfl, rfl, h.enterScope⟩

theorem inStep_leaveScope {mark mark' : Nat} {failed : EnvRel} :
    InStep unseen (AgreeBut unseen ((mark, mark') :: marks)) (quiet (Run.leaveScope mark))
      (quiet (Run.leaveScope mark')) (fun _ _ => AgreeBut unseen marks) failed :=
  .of_ok fun _ _ h => ⟨_, _, _, _, rfl, rfl, h.leaveScope⟩

theorem Blind.inScope {x : Traced α} (hx : Blind unseen x) : Blind unseen (inScope x) := by
  intro marks
  refine inStep_enterScope.bind fun mark mark' => ?_
  refine (hx _).attempt.bind fun result result' m f h => ?_
  obtain ⟨rfl, h⟩ := h
  exact inStep_leaveScope.bind
    (fun _ _ => blind_quiet (Run.operandsClosed_envFree.ofExcept result) marks) m f h

theorem Blind.counted {x : Traced α} (hx : Blind unseen x) : Blind unseen (counted x) := by
  have hend : EnvFree Run.endCall := fun _ _ => rfl
  exact (blind_once Run.envFree_beginCall).bind fun _ => hx.bind fun _ =>
    (blind_quiet hend).bind fun _ => blind_return _

theorem blind_callScript (hcall : ∀ f args, Blind unseen (call f args)) (budget : Nat)
    (s : Script Value) (args : Bindings) : Blind unseen (callScript call budget s args) := by
  refine Blind.bind (Blind.counted fun marks => ?_) fun result =>
    blind_quiet (Run.operandsClosed_envFree.ofExcept result)
  refine inStep_enterScope.bind fun mark mark' => ?_
  refine (inStep_bindAll args).bind fun _ _ m f h => ?_
  exact (inStep_execute hcall budget s (.some mark mark')).attempt m f h.2

theorem blind_callHost (hcall : ∀ f args, Blind unseen (call f args))
    (heval : ∀ s ownScope, Blind unseen (evaluator s ownScope)) (function : HostFunction Value)
    (args : Bindings) : Blind unseen (callHost call evaluator function args) := by
  unfold callHost
  cases args.find? fun b => b.2.isError with
  | some b => exact blind_return _
  | none =>
    refine Blind.bind (Blind.counted (Blind.inScope ?_)) fun result =>
      blind_quiet (Run.envFree_settle _ result)
    exact (blind_bindAll args).bind fun _ => blind_runHost hcall heval function.body

theorem blind_callWith (hcall : ∀ f args, Blind unseen (call f args)) (budget : Nat)
    (function : Value) (args : Bindings) : Blind unseen (callWith call budget function args) := by
  cases function with
  | script s => exact blind_callScript hcall budget s args
  | builtin _ f =>
    exact blind_callHost hcall (fun s ownScope => blind_evalWith hcall budget s ownScope) f args
  | closure _ inner captured => exact hcall inner _
  | composition _ first second =>
    exact (hcall first args).bind fun _ => (blind_quiet (Run.envFree_store _)).bind fun _ =>
      hcall second _
  | _ => exact blind_return _

/-- Calls nest: the induction is on the budget. -/
theorem blind_callFor (budget : Nat) (function : Value) (args : Bindings) :
    Blind unseen (callFor budget function args) := by
  induction budget generalizing function args with
  | zero => exact blind_exhausted
  | succ budget ih => exact blind_callWith ih budget function args

end Traced

end ReactiveScript
