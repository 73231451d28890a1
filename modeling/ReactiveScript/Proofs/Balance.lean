import ReactiveScript.Proofs.Frame

/-
  Evaluations are neutral.

  However scripts, closures, compositions and host functions call one another, an evaluation that
  comes back retains the operands, the call depth and the variables it found (`callFor_neutral`,
  `eval_neutral`), also when it fails; without a scope of its own it may bind variables in the
  current one (`eval_extendsScope`). Where no variable is bound deeper than the current level, which
  is so in every context that is used properly (`Reached.stacked`), this means that nothing at all has
  changed (`callFor_balanced`, `eval_balanced`).
-/

namespace ReactiveScript.Run

variable {α β : Type} {call : Caller} {base : Nat}

/-! ## Scripts -/

/-- The frame is empty when a script has left it. -/
theorem runFrom_extendsFrame (hcall : ∀ f args, Neutral (call f args)) (s : Script Value)
    (base budget pos : Nat) :
    Upholds (ExtendsFrame base) (fun _ m => m.context.stack.length = base)
      (runFrom call s base budget pos) := by
  have hK := composes_extendsFrame base
  induction budget generalizing pos with
  | zero =>
    exact fun m hr => absurd hr id
  | succ budget ih =>
    refine (step_extendsFrame hcall).bindWith hK fun next m hleft hr => ?_
    cases next with
    | goto pos => exact ih pos m hr
    | leave exit => exact ⟨hK.of_retained (.refl m), fun _ _ => hleft⟩

/-- What closing the scope of a script will give back satisfies `back`. Without a scope this is what
is there. -/
def Closes (back : Environment → Prop) : Option Nat → Environment → Prop
  | none, env => back env
  | some mark, env => ∃ outer : Environment, back outer ∧ mark = outer.hiddenCount ∧
      Environment.Nested outer env

/-- What `back` has to allow: bindings may be added as long as there is no scope, and with an
environment every one that retains it. -/
structure Allows (back : Environment → Prop) (scope : Option Nat) : Prop where
  retains : ∀ {env other : Environment}, back env → env.Retains other → back other
  grows : scope = none → ∀ {env other : Environment}, back env → env.Extends other → back other

variable {back : Environment → Prop} {scope : Option Nat}

theorem Closes.extends (ha : Allows back scope) {env other : Environment}
    (h : Closes back scope env) (hg : env.Extends other) : Closes back scope other := by
  cases scope with
  | none => exact ha.grows rfl h hg
  | some mark =>
    obtain ⟨outer, hback, hmark, hin⟩ := h
    exact ⟨outer, hback, hmark, hin.extends hg⟩

/-- The environment when the scope of a script, if it has one, is closed. -/
def closeScope (scope : Option Nat) (env : Environment) : Environment :=
  match scope with
  | none => env
  | some mark => env.leaveScope mark

theorem Closes.gives (ha : Allows back scope) {env : Environment}
    (h : Closes back scope env) : back (closeScope scope env) := by
  cases scope with
  | none => exact h
  | some mark =>
    obtain ⟨outer, hback, rfl, hin⟩ := h
    exact ha.retains hback hin.leaveScope

theorem run_switchScope (scope : Option Nat) (bindings : Bindings) (m : Machine) :
    switchScope scope bindings m =
      (.ok (closeScope scope m.context.env).hiddenCount, { m with context := { m.context with
        env := (closeScope scope m.context.env).enterScope.2.setAll bindings } }) := by
  cases scope <;> rfl

/-- A tail call closes the scope of the caller before it opens the one of its target. -/
theorem Closes.switched (ha : Allows back scope) {env : Environment}
    (h : Closes back scope env) (bindings : Bindings) :
    Closes back (some (closeScope scope env).hiddenCount)
      ((closeScope scope env).enterScope.2.setAll bindings) :=
  ⟨_, h.gives ha, rfl, (Environment.nested_enterScope _).setAll bindings⟩

/-- What running a chain of scripts leaves: its frame, which is empty after a success, and an
environment from which the open scope can be closed. -/
structure ChainEnds (back : Environment → Prop) (base : Nat) (m : Machine)
    (result : Except EvalError Value) (scope : Option Nat) (m' : Machine) : Prop where
  below : OnFrame base m m'
  emptied : ∀ v, result = .ok v → m'.context.stack.length = base
  closes : Closes back scope m'.context.env
  allows : Allows back scope

theorem runChain_ends (hcall : ∀ f args, Neutral (call f args)) (steps budget : Nat)
    (s : Script Value) (scope : Option Nat) (m : Machine) (ha : Allows back scope)
    (h : Closes back scope m.context.env)
    (hr : Returned (runChain call steps base budget s scope m).1) :
    ∃ result scope' m', runChain call steps base budget s scope m = (.ok (result, scope'), m') ∧
      ChainEnds back base m result scope' m' := by
  induction budget generalizing s scope m with
  | zero => exact absurd hr id
  | succ budget ih =>
    have hrun := runFrom_extendsFrame hcall s base steps 0
    unfold runChain at hr ⊢
    rcases attempt_cases hr with ⟨e, m₁, hx, he⟩ | ⟨exit, m₁, hx, he⟩
    · have hk := hrun.of_error hx
      rw [he]
      exact ⟨_, _, _, rfl, hk.toOnFrame, fun v hv => (by cases hv), h.extends ha hk.env, ha⟩
    · obtain ⟨hk, hempty⟩ := hrun.of_ok hx
      have hc := h.extends ha hk.env
      rw [he] at hr ⊢
      cases exit with
      | done v =>
        exact ⟨_, _, _, rfl, hk.toOnFrame, fun _ _ => hempty, hc, ha⟩
      | tail target bindings =>
        dsimp only at hr ⊢
        rcases attempt_cases hr with ⟨e, m₂, hy, he⟩ | ⟨u, m₂, hy, he⟩
        · have hu := neutral_heedInterrupt.of_error hy
          rw [he]
          exact ⟨_, _, _, rfl, hk.toOnFrame.trans hu.onFrame, fun v hv => (by cases hv),
            hc.extends ha hu.env.extends, ha⟩
        · have hu := (neutral_heedInterrupt.of_ok hy).1
          have hc₂ := hc.extends ha hu.env.extends
          have hkept := hk.toOnFrame.trans hu.onFrame
          rw [he] at hr ⊢
          dsimp only at hr ⊢
          rw [run_bind_ok (run_switchScope scope bindings m₂)] at hr ⊢
          -- the next script runs with a scope of its own
          obtain ⟨result, scope', m₃, hrun, hends⟩ := ih target _ _
            ⟨ha.retains, fun h => by cases h⟩ (hc₂.switched ha bindings) hr
          exact ⟨result, scope', m₃, hrun, hkept.trans ⟨hends.below.callDepth, hends.below.stack,
            hends.below.analyzing⟩, hends.emptied, hends.closes, hends.allows⟩

/-- A script on a frame of its own leaves the operands and the call depth as they were. When its
scope, if it has one, is closed, the environment is one of those its scope promised. -/
theorem execute_restores (hcall : ∀ f args, Neutral (call f args)) (budget : Nat)
    (s : Script Value) (scope : Option Nat) (m : Machine) (ha : Allows back scope)
    (h : Closes back scope m.context.env)
    (hr : Returned (execute call budget s scope m).1) :
    (execute call budget s scope m).2.context.stack = m.context.stack ∧
    (execute call budget s scope m).2.context.callDepth = m.context.callDepth ∧
    back (execute call budget s scope m).2.context.env ∧
    (execute call budget s scope m).2.context.analyzing ⊆ m.context.analyzing := by
  unfold execute at hr ⊢
  rw [run_bind_ok (run_height m)] at hr ⊢
  obtain ⟨result, scope', m₁, hrun, hends⟩ :=
    runChain_ends hcall budget budget s scope m ha h hr.of_bind
  rw [run_bind_ok hrun]
  have hb' : bottom m.context.stack.length m.context.stack = m.context.stack := by
    unfold bottom
    rw [Nat.sub_self, List.drop_zero]
  obtain ⟨-, hbottom⟩ := hends.below.stack (Nat.le_refl _)
  rw [hb'] at hbottom
  have hback := hends.closes.gives hends.allows
  cases result with
  | ok v =>
    have hlen := hends.emptied v rfl
    have hstack : m₁.context.stack = m.context.stack := by
      rw [← hbottom, bottom, hlen, Nat.sub_self, List.drop_zero]
    cases scope' <;> exact ⟨hstack, hends.below.callDepth, hback, hends.below.analyzing⟩
  | error e => cases scope' <;> exact ⟨hbottom, hends.below.callDepth, hback, hends.below.analyzing⟩

/-- Without a scope of its own a script may bind variables in the current one. -/
theorem execute_extendsScope (hcall : ∀ f args, Neutral (call f args)) (budget : Nat)
    (s : Script Value) : Upholds ExtendsScope anyValue (execute call budget s none) := by
  intro m hr
  have ha : Allows m.context.env.Extends none :=
    ⟨fun h hs => h.trans hs.extends, fun _ _ _ h hg => h.trans hg⟩
  obtain ⟨h1, h2, h3, h4⟩ := execute_restores hcall budget s none m ha
    (Environment.Retains.refl _).extends hr
  exact ⟨⟨h1, h2, h3, h4⟩, fun _ _ => trivial⟩

/-- A script that is given an open scope closes it. -/
theorem execute_leavesScope (hcall : ∀ f args, Neutral (call f args)) (budget : Nat)
    (s : Script Value) {m m' : Machine} {outer : Environment} {result : Except Stop Value}
    (hin : Environment.Nested outer m.context.env)
    (hx : execute call budget s (some outer.hiddenCount) m = (result, m'))
    (hr : Returned result) :
    m'.context.stack = m.context.stack ∧ m'.context.callDepth = m.context.callDepth ∧
      outer.Retains m'.context.env ∧ m'.context.analyzing ⊆ m.context.analyzing := by
  have ha : Allows outer.Retains (some outer.hiddenCount) :=
    ⟨fun h hs => h.trans hs, fun h => by cases h⟩
  have h := execute_restores hcall budget s (some outer.hiddenCount) m ha ⟨outer, .refl _, rfl, hin⟩
  rw [hx] at h
  exact h hr

/-! ## Host functions -/

theorem neutral_inScope {x : Run α} {P : α → Machine → Prop} (h : Upholds ExtendsScope P x) :
    Neutral (inScope x) := by
  intro m hr
  unfold inScope at hr ⊢
  rw [run_bind_ok (run_enterScope m)] at hr ⊢
  have hin := Environment.nested_enterScope m.context.env
  rcases attempt_cases hr with ⟨e, m₁, hx, he⟩ | ⟨a, m₁, hx, he⟩
  · have hk := h.of_error hx
    rw [he]
    exact ⟨⟨hk.stack, hk.callDepth, (hin.extends hk.env).leaveScope, hk.analyzing⟩,
      fun _ _ => trivial⟩
  · have hk := (h.of_ok hx).1
    rw [he]
    exact ⟨⟨hk.stack, hk.callDepth, (hin.extends hk.env).leaveScope, hk.analyzing⟩,
      fun _ _ => trivial⟩

variable {evaluator : Script Value → Bool → Run Value}

theorem neutral_logVariable (var : Variable) : Neutral (logVariable var) := by
  refine (neutral_store _).bind composes_retained fun name => ?_
  exact neutral_context.bind composes_retained fun _ => neutral_store _

theorem extendsScope_perform (hcall : ∀ f args, Neutral (call f args))
    (heval : ∀ s ownScope, Upholds ExtendsScope anyValue (evaluator s ownScope))
    (action : HostAction Value) : Upholds ExtendsScope anyValue (perform call evaluator action) := by
  have hS := composes_extendsScope
  have hnil : Upholds ExtendsScope anyValue (pure (.ok .nil) : Run HostResult) :=
    (neutral_pure _).upholds hS
  induction action with
  | give v => exact (neutral_pure _).upholds hS
  | log text => exact ((neutral_store _).upholds hS).bind hS fun _ => hnil
  | logVariable var => exact ((neutral_logVariable var).upholds hS).bind hS fun _ => hnil
  | fail e => exact (neutral_pure _).upholds hS
  | eval s ownScope => exact (heval s ownScope).attempt.map hS hostResult
  | call function args => exact ((hcall function args).upholds hS).attempt.map hS hostResult
  | get var => exact ((neutral_readVariable var).upholds hS).attempt.map hS hostResult
  | set var v => exact (extendsScope_bindVariable var v).bind hS fun _ => hnil
  | interrupt =>
    refine (neutral_context.upholds hS).bind hS fun _ => ?_
    exact ((neutral_store _).upholds hS).bind hS fun _ => hnil
  | panic payload => exact (neutral_throw _).upholds hS
  | gate name =>
    intro m hr
    unfold perform at hr ⊢
    by_cases h : m.store.openGates.contains name = true
    · simp only [if_pos h]
      exact ⟨hS.of_retained (.refl m), fun _ _ => trivial⟩
    · simp only [if_neg h] at hr
      exact absurd hr id
  | within contexts action ih => exact ih.bind hS fun _ => (neutral_pure _).upholds hS

theorem extendsScope_performAll (hcall : ∀ f args, Neutral (call f args))
    (heval : ∀ s ownScope, Upholds ExtendsScope anyValue (evaluator s ownScope)) (last : Value)
    (actions : List (HostAction Value)) :
    Upholds ExtendsScope anyValue (performAll call evaluator last actions) := by
  have hS := composes_extendsScope
  induction actions generalizing last with
  | nil => exact (neutral_pure _).upholds hS
  | cons action rest ih =>
    refine (extendsScope_perform hcall heval action).bind hS fun result => ?_
    cases result with
    | ok v => exact ih v
    | error e => exact (neutral_pure _).upholds hS

theorem extendsScope_runHost (hcall : ∀ f args, Neutral (call f args))
    (heval : ∀ s ownScope, Upholds ExtendsScope anyValue (evaluator s ownScope))
    (body : HostBody Value) : Upholds ExtendsScope anyValue (runHost call evaluator body) := by
  have hS := composes_extendsScope
  cases body with
  | prelude function =>
    have hinput : Neutral input :=
      (neutral_store _).bind composes_retained fun var => neutral_readVariable var
    refine (hinput.upholds hS).attempt.bind hS fun result => ?_
    cases result <;> exact (neutral_pure _).upholds hS
  | actions steps => exact extendsScope_performAll hcall heval .nil steps

/-- The evaluation never fails: it gives the failures of its parts as values. -/
def NoFailure (x : Run α) : Prop := ∀ m e, (x m).1 ≠ .error (.error e)

theorem NoFailure.bind {x : Run α} {f : α → Run β} (hx : NoFailure x)
    (hf : ∀ a, NoFailure (f a)) : NoFailure (x >>= f) := by
  intro m e h
  have hx := hx m e
  rw [run_bind] at h
  generalize x m = out at hx h
  rcases out with ⟨stop | a, m₁⟩
  · cases h; exact hx rfl
  · exact hf a m₁ e h

theorem noFailure_pure (a : α) : NoFailure (pure a : Run α) := fun _ _ h => by cases h

theorem noFailure_store (x : StateM Store α) : NoFailure (store x) := fun _ _ h => by cases h

theorem noFailure_context : NoFailure context := fun _ _ h => by cases h

theorem noFailure_bindAll (bindings : Bindings) : NoFailure (bindAll bindings) :=
  fun _ _ h => by cases h

theorem noFailure_attempt (x : Run α) : NoFailure (attempt x) := by
  intro m e h
  rw [run_attempt] at h
  generalize x m = out at h
  rcases out with ⟨(e | _ | _ | _) | a, m₁⟩ <;> cases h

theorem noFailure_perform (action : HostAction Value) : NoFailure (perform call evaluator action) := by
  have hnil : NoFailure (pure (.ok .nil) : Run HostResult) := noFailure_pure _
  have hmap : ∀ x : Run Value, NoFailure (hostResult <$> attempt x) := fun x => by
    rw [map_eq_pure_bind]
    exact (noFailure_attempt x).bind fun _ => noFailure_pure _
  induction action with
  | give v => exact noFailure_pure _
  | log text => exact (noFailure_store _).bind fun _ => hnil
  | logVariable var =>
    refine NoFailure.bind ?_ fun _ => hnil
    exact (noFailure_store _).bind fun _ => noFailure_context.bind fun _ => noFailure_store _
  | fail e => exact noFailure_pure _
  | eval s ownScope => exact hmap _
  | call function args => exact hmap _
  | get var => exact hmap _
  | set var v => exact (noFailure_bindAll [(var, v)]).bind fun _ => hnil
  | interrupt => exact noFailure_context.bind fun _ => (noFailure_store _).bind fun _ => hnil
  | panic payload => exact fun _ _ h => by cases h
  | gate name =>
    intro m e h
    unfold perform at h
    by_cases hg : m.store.openGates.contains name = true
    · simp only [if_pos hg] at h; cases h
    · simp only [if_neg hg] at h; cases h
  | within contexts action ih => exact ih.bind fun _ => noFailure_pure _

theorem noFailure_runHost (body : HostBody Value) : NoFailure (runHost call evaluator body) := by
  cases body with
  | prelude function =>
    refine (noFailure_attempt _).bind fun result => ?_
    cases result <;> exact noFailure_pure _
  | actions steps =>
    show NoFailure (performAll call evaluator .nil steps)
    generalize Value.nil = last
    induction steps generalizing last with
    | nil => exact noFailure_pure _
    | cons action rest ih =>
      refine (noFailure_perform action).bind fun result => ?_
      cases result with
      | ok v => exact ih v
      | error e => exact noFailure_pure _

theorem noFailure_inScope {x : Run α} (hx : NoFailure x) : NoFailure (inScope x) := by
  intro m e h
  unfold inScope at h
  rw [run_bind_ok (run_enterScope m)] at h
  have hr := congrArg Returned h
  rcases attempt_cases (hr.mpr trivial) with ⟨e', m₁, hx', _⟩ | ⟨a, m₁, hx', he⟩
  · exact hx _ e' (congrArg Prod.fst hx')
  · rw [he] at h
    cases h

/-! ## Calls -/

theorem neutral_settle (name : String) (result : HostResult) : Neutral (settle name result) := by
  cases result with
  | ok v => exact neutral_pure v
  | error e =>
    by_cases h : (e.toEvalError name).isLimit = true
    · simp only [settle, if_pos h]; exact upholds_fail composes_retained _
    · simp only [settle, if_neg h]; exact neutral_pure _

/-- The count of calls is taken back, because what is counted does not fail. -/
theorem neutral_counted {x : Run α} {f : α → Run β} (hx : Neutral x) (hn : NoFailure x)
    (hf : ∀ a, Neutral (f a)) : Neutral (do
      beginCall
      let a ← x
      endCall
      f a) := by
  intro m hr
  unfold beginCall at hr ⊢
  rw [bind_assoc, run_bind_ok (run_context m)] at hr ⊢
  by_cases hdeep : m.context.callDepth ≥ m.context.settings.maxCallDepth
  · simp only [if_pos hdeep]
    exact ⟨.refl m, fun _ _ => trivial⟩
  · simp only [if_neg hdeep] at hr ⊢
    rw [run_bind_ok (run_change _ m)] at hr ⊢
    generalize hm : ({ m with context := { m.context with
      callDepth := m.context.callDepth + 1 } } : Machine) = m₁ at hr ⊢
    rcases hy : x m₁ with ⟨stop | a, m₂⟩
    · rw [run_bind_error hy] at hr
      obtain ⟨e, rfl⟩ := hr.error_of
      exact absurd (congrArg Prod.fst hy) (hn m₁ e)
    · have hu := (hx.of_ok hy).1
      rw [run_bind_ok hy, endCall, run_bind_ok (run_change _ m₂)] at hr ⊢
      generalize hm₂ : ({ m₂ with context := { m₂.context with
        callDepth := m₂.context.callDepth - 1 } } : Machine) = m₃ at hr ⊢
      have hu₃ : Retained m m₃ := by
        subst hm hm₂
        refine ⟨hu.stack, ?_, hu.env, hu.analyzing⟩
        show m₂.context.callDepth - 1 = m.context.callDepth
        rw [hu.callDepth]
        exact Nat.add_sub_cancel _ 1
      obtain ⟨h, hv⟩ := hf a m₃ hr
      exact ⟨composes_retained.trans hu₃ h, hv⟩

theorem callScript_neutral (hcall : ∀ f args, Neutral (call f args)) (budget : Nat)
    (s : Script Value) (args : Bindings) : Neutral (callScript call budget s args) := by
  have hbody : Neutral (do
      let mark ← enterScope
      bindAll args
      attempt (execute call budget s (some mark))) := by
    intro m hr
    rw [run_bind_ok (run_enterScope m), run_bind_ok (run_bindAll _ _)] at hr ⊢
    have hin : Environment.Nested m.context.env (m.context.env.enterScope.2.setAll args) :=
      (Environment.nested_enterScope m.context.env).setAll args
    rw [← bind_pure (attempt _)] at hr ⊢
    rcases attempt_cases hr with ⟨e, m₁, hx, he⟩ | ⟨v, m₁, hx, he⟩
    · obtain ⟨h1, h2, h3, h4⟩ := execute_leavesScope hcall budget s hin hx trivial
      rw [he]
      exact ⟨⟨h1, h2, h3, h4⟩, fun _ _ => trivial⟩
    · obtain ⟨h1, h2, h3, h4⟩ := execute_leavesScope hcall budget s hin hx trivial
      rw [he]
      exact ⟨⟨h1, h2, h3, h4⟩, fun _ _ => trivial⟩
  have hnone : NoFailure (do
      let mark ← enterScope
      bindAll args
      attempt (execute call budget s (some mark))) :=
    NoFailure.bind (fun _ _ h => by cases h) fun mark =>
      (noFailure_bindAll args).bind fun _ => noFailure_attempt _
  have h := neutral_counted hbody hnone neutral_ofExcept
  simp only [bind_assoc] at h
  exact h

theorem callHost_neutral (hcall : ∀ f args, Neutral (call f args))
    (heval : ∀ s ownScope, Upholds ExtendsScope anyValue (evaluator s ownScope))
    (function : HostFunction Value) (args : Bindings) :
    Neutral (callHost call evaluator function args) := by
  unfold callHost
  cases args.find? fun b => b.2.isError with
  | some b => exact neutral_pure _
  | none =>
    have hbody := (extendsScope_bindAll args).bind composes_extendsScope fun _ =>
      extendsScope_runHost hcall heval function.body
    have hnone : NoFailure (do
        bindAll args
        runHost call evaluator function.body) :=
      (noFailure_bindAll args).bind fun _ => noFailure_runHost _
    exact neutral_counted (neutral_inScope hbody) (noFailure_inScope hnone) fun result =>
      neutral_settle function.name result

/-! ## Evaluation -/

variable {R : Machine → Machine → Prop}

/-- The backtrace is forgotten at the outermost evaluation; what follows is the same. -/
theorem upholds_forgetting (hR : Composes R) {x : Run α} (hx : Upholds R anyValue x) :
    Upholds R anyValue (do
      if (← context).callDepth = 0 then forgetFrames
      x) := by
  refine (neutral_context.upholds hR).bind hR fun c => ?_
  by_cases h : c.callDepth = 0
  · simp only [if_pos h]
    exact (neutral_forgetFrames.upholds hR).bind hR fun _ => hx
  · simp only [if_neg h]
    exact hx

/-- A script without a scope of its own may bind variables in the current one. -/
theorem evalWith_extendsScope (hcall : ∀ f args, Neutral (call f args)) (budget : Nat)
    (s : Script Value) : Upholds ExtendsScope anyValue (evalWith call budget s false) := by
  have hS := composes_extendsScope
  have hrest : Upholds ExtendsScope anyValue (do
      ofExcept (← execute call budget s none).force) :=
    (execute_extendsScope hcall budget s).bind hS fun v => (neutral_ofExcept _).upholds hS
  exact upholds_forgetting hS hrest

theorem evalWith_neutral (hcall : ∀ f args, Neutral (call f args)) (budget : Nat)
    (s : Script Value) : Neutral (evalWith call budget s true) := by
  have hrest : Neutral (do
      let mark ← enterScope
      ofExcept (← execute call budget s (some mark)).force) := by
    intro m hr
    rw [run_bind_ok (run_enterScope m)] at hr ⊢
    have hin := Environment.nested_enterScope m.context.env
    generalize hm : ({ m with context := { m.context with
      env := m.context.env.enterScope.2 } } : Machine) = m₁ at hr ⊢
    have hends : Retained m (execute call budget s (some m.context.env.hiddenCount) m₁).2 := by
      subst hm
      obtain ⟨h1, h2, h3, h4⟩ := execute_leavesScope hcall budget s hin rfl hr.of_bind
      exact ⟨h1, h2, h3, h4⟩
    rw [run_bind] at hr ⊢
    generalize execute call budget s (some m.context.env.hiddenCount) m₁ = out at hends hr ⊢
    rcases out with ⟨stop | v, m₂⟩
    · exact ⟨hends, fun _ h => by cases h⟩
    · obtain ⟨h, hv⟩ := neutral_ofExcept v.force m₂ hr
      exact ⟨composes_retained.trans hends h, hv⟩
  have h : Neutral (do
      let scope ← some <$> enterScope
      ofExcept (← execute call budget s scope).force) := by
    rw [map_eq_pure_bind, bind_assoc]
    exact hrest
  exact upholds_forgetting composes_retained h

theorem callWith_neutral (hcall : ∀ f args, Neutral (call f args)) (budget : Nat)
    (function : Value) (args : Bindings) : Neutral (callWith call budget function args) := by
  have heval : ∀ s ownScope, Upholds ExtendsScope anyValue (evalWith call budget s ownScope) := by
    intro s ownScope
    cases ownScope with
    | false => exact evalWith_extendsScope hcall budget s
    | true => exact (evalWith_neutral hcall budget s).upholds composes_extendsScope
  cases function with
  | script s => exact callScript_neutral hcall budget s args
  | builtin _ f => exact callHost_neutral hcall heval f args
  | closure _ inner captured => exact hcall inner (captured ++ args)
  | composition _ first second =>
    refine (hcall first args).bind composes_retained fun intermediate => ?_
    exact (neutral_store _).bind composes_retained fun var => hcall second [(var, intermediate)]
  | _ => exact neutral_pure _

/-- Calls nest: the induction is on the budget, which bounds their depth. -/
theorem callFor_neutral (budget : Nat) (function : Value) (args : Bindings) :
    Neutral (callFor budget function args) := by
  induction budget generalizing function args with
  | zero => exact neutral_throw _
  | succ budget ih => exact callWith_neutral ih budget function args

theorem eval_neutral (budget : Nat) (s : Script Value) : Neutral (eval budget s true) :=
  evalWith_neutral (callFor_neutral budget) budget s

theorem eval_extendsScope (budget : Nat) (s : Script Value) :
    Upholds ExtendsScope anyValue (eval budget s false) :=
  evalWith_extendsScope (callFor_neutral budget) budget s

/-! ## Where no variable is bound too deep -/

/-- Nothing that outlives an evaluation has changed. -/
structure Unchanged (m m' : Machine) : Prop where
  stack : m'.context.stack = m.context.stack
  callDepth : m'.context.callDepth = m.context.callDepth
  env : m.context.env.Same m'.context.env

/-- At most bindings were added to the current scope. -/
structure KeepsScope (m m' : Machine) : Prop where
  stack : m'.context.stack = m.context.stack
  callDepth : m'.context.callDepth = m.context.callDepth
  env : m.context.env.Grows m'.context.env

/-- Whenever `x` comes back, `R` relates what it leaves to what it began with, and `post` admits the
value it came to. -/
def Relates (R : Machine → Machine → Prop) (post : α → Machine → Prop) (x : Run α) : Prop :=
  ∀ m, m.context.env.LevelsBounded → Returned (x m).1 →
    R m (x m).2 ∧ ∀ a, (x m).1 = .ok a → post a (x m).2

/-- The evaluation leaves everything as it was, whether it fails or not. -/
abbrev Balanced (x : Run α) : Prop := Relates Unchanged anyValue x

theorem Upholds.balanced {x : Run α} (h : Neutral x) : Balanced x := by
  intro m hb hr
  obtain ⟨hu, hv⟩ := h m hr
  exact ⟨⟨hu.stack, hu.callDepth, hu.env.same hb⟩, hv⟩

theorem callFor_balanced (budget : Nat) (function : Value) (args : Bindings) :
    Balanced (callFor budget function args) := (callFor_neutral budget function args).balanced

theorem eval_balanced (budget : Nat) (s : Script Value) : Balanced (eval budget s true) :=
  (eval_neutral budget s).balanced

theorem eval_keepsScope (budget : Nat) (s : Script Value) :
    Relates KeepsScope anyValue (eval budget s false) := by
  intro m hb hr
  obtain ⟨hk, hv⟩ := eval_extendsScope budget s m hr
  exact ⟨⟨hk.stack, hk.callDepth, hk.env.grows hb⟩, hv⟩

/-! ## Contexts in use -/

/-- What evaluating, calling, binding and scopes make of a machine that starts without variables,
when each scope is left with the mark of the innermost open one. The list has the environments in
which the open scopes were entered. -/
inductive Reached : List Environment → Machine → Prop
  | start {m : Machine} : m.context.env = .empty → Reached [] m
  /-- Anything that does not touch the variables. -/
  | aside {outer : List Environment} {m m' : Machine} :
    Reached outer m → m'.context.env = m.context.env → Reached outer m'
  | bind {outer : List Environment} {m : Machine} (var : Variable) (v : Value) :
    Reached outer m → Reached outer (bindVariable var v m).2
  | enter {outer : List Environment} {m : Machine} :
    Reached outer m → Reached (m.context.env :: outer) (enterScope m).2
  | leave {o : Environment} {outer : List Environment} {m : Machine} :
    Reached (o :: outer) m → Reached outer (leaveScope o.hiddenCount m).2
  | eval {outer : List Environment} {m : Machine} (budget : Nat) (s : Script Value)
    (ownScope : Bool) : Reached outer m → Returned (eval budget s ownScope m).1 →
    Reached outer (eval budget s ownScope m).2
  | call {outer : List Environment} {m : Machine} (budget : Nat) (function : Value)
    (args : Bindings) : Reached outer m → Returned (callFor budget function args m).1 →
    Reached outer (callFor budget function args m).2

theorem Reached.stacked {outer : List Environment} {m : Machine} (h : Reached outer m) :
    Environment.Stacked outer m.context.env := by
  induction h with
  | start h => exact h ▸ Environment.stacked_empty
  | aside _ he ih => exact he ▸ ih
  | bind var v _ ih => exact ih.grows (Environment.grows_setAll _ [(var, v)])
  | enter _ ih => exact ih.enter
  | leave _ ih => exact ih.leave
  | eval budget s ownScope _ hr ih =>
    cases ownScope with
    | false => exact ih.grows (eval_keepsScope budget s _ ih.levelsBounded hr).1.env
    | true => exact ih.same (eval_balanced budget s _ ih.levelsBounded hr).1.env
  | call budget function args _ hr ih =>
    exact ih.same (callFor_balanced budget function args _ ih.levelsBounded hr).1.env

/-- The operands and the call depth are the same, and the variables can not be told apart. -/
structure Restored (m m' : Machine) : Prop where
  stack : m'.context.stack = m.context.stack
  callDepth : m'.context.callDepth = m.context.callDepth
  env : m'.context.env.Alike m.context.env

theorem Unchanged.restored {m m' : Machine} (h : Unchanged m m') : Restored m m' :=
  ⟨h.stack, h.callDepth, h.env.symm.alike⟩

/-- In a context whose scopes are left in order, an evaluation in a scope of its own and a call
restore what they found whenever they come back, whether with a value or an error. An evaluation in
the current scope restores it up to bindings there, and leaving that scope still gives back what
was visible before it was entered. Levels are counted as in `Environment`: with counters of 32 bits
this is said of runs with fewer than 2^32 open scopes. -/
theorem returned_restores :
    (∀ {outer : List Environment} {m : Machine}, Reached outer m →
      Environment.Stacked outer m.context.env) ∧
    ∀ {outer : List Environment} {m : Machine}, Environment.Stacked outer m.context.env →
      ∀ budget : Nat,
      (∀ s, Returned (eval budget s true m).1 → Restored m (eval budget s true m).2) ∧
      (∀ f args, Returned (callFor budget f args m).1 →
        Restored m (callFor budget f args m).2) ∧
      ∀ s, Returned (eval budget s false m).1 →
        (∃ bindings, Restored (bindAll bindings m).2 (eval budget s false m).2) ∧
        ∀ o rest, outer = o :: rest →
          ((eval budget s false m).2.context.env.leaveScope o.hiddenCount).Alike o := by
  refine ⟨Reached.stacked, fun {outer m} hs budget => ?_⟩
  have hb := hs.levelsBounded
  refine ⟨fun s hr => ?_, fun f args hr => ?_, fun s hr => ⟨?_, fun o rest ho => ?_⟩⟩
  · exact (eval_balanced budget s m hb hr).1.restored
  · exact (callFor_balanced budget f args m hb hr).1.restored
  · have hk := (eval_keepsScope budget s m hb hr).1
    obtain ⟨bindings, hsame⟩ := hk.env
    exact ⟨bindings, hk.stack, hk.callDepth, hsame.alike⟩
  · subst ho
    have hk := (eval_keepsScope budget s m hb hr).1
    exact (hs.1.grows hs.2.levelsBounded hk.env).leaveScope.alike

/-- A script that binds the first variable to true and returns it. -/
def bindsTrue : Script Value :=
  ⟨0, #[.of .pushConst 0, .of .setVar 0, .of .ret 0], #[.bool true]⟩

/-- A machine without variables that allows one call. -/
def newMachine : Machine := ⟨.ofSettings ⟨1, false, 0⟩, .empty⟩

/-- A machine that has a scope open, in which the first variable is bound to false. -/
def machineInScope : Machine := (bindVariable ⟨0⟩ (.bool false) (enterScope newMachine).2).2

theorem machineInScope_reached : Reached [.empty] machineInScope := by
  have h : Reached [] newMachine := .start rfl
  exact .bind ⟨0⟩ (.bool false) h.enter

theorem returned_restores_bindsTrue :
    Restored machineInScope (eval 4 bindsTrue true machineInScope).2 ∧
      Restored machineInScope (callFor 5 (.script bindsTrue) [] machineInScope).2 ∧
      ((eval 4 bindsTrue false machineInScope).2.context.env.leaveScope 0).Alike .empty := by
  have hs := returned_restores.1 machineInScope_reached
  refine ⟨?_, ?_, ?_⟩
  · exact (returned_restores.2 hs 4).1 bindsTrue trivial
  · exact (returned_restores.2 hs 5).2.1 (.script bindsTrue) [] trivial
  · exact ((returned_restores.2 hs 4).2.2 bindsTrue trivial).2 .empty [] rfl

/-- With a mark that is too large, leaving a scope leaves its bindings behind at a level that is no
longer open. The next scope at that level takes them for its own. -/
theorem not_restored_after_foreign_mark :
    ¬ ∀ mark : Nat,
      Returned (eval 4 bindsTrue true (leaveScope mark machineInScope).2).1 →
      Restored (leaveScope mark machineInScope).2
        (eval 4 bindsTrue true (leaveScope mark machineInScope).2).2 := by
  intro h
  have hget := (h 1 trivial).env.get? ⟨0⟩
  have hbefore : (leaveScope 1 machineInScope).2.context.env.get? ⟨0⟩ = some (.bool false) := rfl
  have hafter : (eval 4 bindsTrue true (leaveScope 1 machineInScope).2).2.context.env.get? ⟨0⟩ =
    some (.bool true) := rfl
  rw [hbefore, hafter] at hget
  cases hget

end ReactiveScript.Run
