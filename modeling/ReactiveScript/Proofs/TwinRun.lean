import ReactiveScript.Proofs.Balance
import ReactiveScript.Proofs.Twins

/-
  Evaluations on twins.

  Scripts, host functions and calls come to the same on twins, whatever the budget of the right
  evaluation is above that of the left one (`callFor_alike`, `execute_alike`). A script that is run in
  a scope closes it, so twins have as many scopes in common as before. That a larger budget changes
  nothing is the case of one machine (`eval_alike`).
-/

namespace ReactiveScript.Run

variable {α : Type} {d : Depths} {marks inner : List (Nat × Nat)} {m n : Machine}
  {call call' : Caller} {base : Nat}

/-! ## Scripts -/

/-- More steps lead to the same exit. -/
theorem runFrom_alike (hcall : ∀ f args, Alike d marks never (call f args) (call' f args))
    (s : Script Value) {k k' : Nat} (hk : k ≤ k') (pos : Nat) :
    Alike d marks never (runFrom call s base k pos) (runFrom call' s base k' pos) := by
  induction k generalizing k' pos with
  | zero => exact fun _ _ _ => .exhausted rfl
  | succ k ih =>
    obtain ⟨k', rfl⟩ : ∃ j, k' = j + 1 := ⟨k' - 1, by omega⟩
    refine (step_alike (.refl s) hcall rfl).bind fun next => ?_
    cases next with
    | goto pos => exact ih (Nat.le_of_succ_le_succ hk) pos
    | leave exit => exact alike_pure exit

/-- The open scope of a script, in both machines. -/
inductive Opened (marks : List (Nat × Nat)) : Option Nat → Option Nat → List (Nat × Nat) → Prop
  | none : Opened marks none none marks
  | some (mark mark' : Nat) : Opened marks (some mark) (some mark') ((mark, mark') :: marks)

variable {scope scope' : Option Nat}

theorem Opened.closed (h : Opened marks scope scope' inner) {e f : Environment}
    (ht : e.Twins inner f) : (closeScope scope e).Twins marks (closeScope scope' f) := by
  cases h with
  | none => exact ht
  | some mark mark' => exact ht.leaveScope

theorem run_finish (base : Nat) (result : Except EvalError Value) (scope : Option Nat)
    (m : Machine) : finish base result scope m = (match result with
      | .ok v => pure v
      | .error e => do
        truncate base
        fail e : Run Value)
      { m with context := { m.context with env := closeScope scope m.context.env } } := by
  cases scope <;> rfl

theorem finish_meets (base : Nat) (h : Opened marks scope scope' inner) (ht : m.Twins d inner n)
    (result : Except EvalError Value) :
    Meet d marks never (finish base result scope m) (finish base result scope' n) := by
  have hclosed : Machine.Twins d marks
      { m with context := { m.context with env := closeScope scope m.context.env } }
      { n with context := { n.context with env := closeScope scope' n.context.env } } :=
    ⟨ht.store, ht.stack, ht.settings, ht.depth, h.closed ht.env⟩
  rw [run_finish, run_finish]
  cases result with
  | ok v => exact alike_pure v _ _ hclosed
  | error e => exact (alike_truncate base).bind (fun _ => alike_fail e) _ _ hclosed

/-- The error of a limit is passed on. -/
theorem limited_finish {e : EvalError} (he : e.isLimit = true) (base : Nat) (scope : Option Nat)
    (m : Machine) : Limited never (finish base (.error e) scope m).1 := by
  rw [run_finish]
  exact he

/-- A chain of scripts comes to the same if its first script does and every chain that follows. -/
theorem chain_of_runFrom {s s' : Script Value} {k k' chain chain' : Nat}
    (h : Opened marks scope scope' inner)
    (hrun : Meet d inner never (runFrom call s base k 0 m) (runFrom call' s' base k' 0 n))
    (htail : ∀ (target : Script Value) (scope scope' : Option Nat) (inner : List (Nat × Nat))
      (m n : Machine), Opened marks scope scope' inner → m.Twins d inner n → Meet d marks never
        ((runChain call k base chain target scope >>= fun ended => finish base ended.1 ended.2) m)
        ((runChain call' k' base chain' target scope' >>=
          fun ended => finish base ended.1 ended.2) n)) :
    Meet d marks never
      ((runChain call k base (chain + 1) s scope >>= fun ended => finish base ended.1 ended.2) m)
      ((runChain call' k' base (chain' + 1) s' scope' >>=
        fun ended => finish base ended.1 ended.2) n) := by
  unfold runChain
  rw [bind_assoc, bind_assoc]
  refine hrun.scoped (fun r m₁ n₁ h₁ => ?_) fun r hr m => ?_
  · rcases r with e | v | ⟨target, bindings⟩
    · exact finish_meets base h h₁ (.error e)
    · exact finish_meets base h h₁ (.ok v)
    · dsimp only
      rw [bind_assoc, bind_assoc]
      refine (alike_heedInterrupt m₁ n₁ h₁).scoped (fun r m₂ n₂ h₂ => ?_) fun r hr m => ?_
      · cases r with
        | error e => exact finish_meets base h h₂ (.error e)
        | ok u =>
          dsimp only
          rw [bind_assoc, bind_assoc, run_bind_ok (run_switchScope scope bindings m₂),
            run_bind_ok (run_switchScope scope' bindings n₂)]
          -- the target has a scope of its own where the scope of the caller is closed
          have hopen := (h.closed h₂.env).enterScope.setAll bindings
          exact htail target _ _ _ _ _ (.some _ _)
            ⟨h₂.store, h₂.stack, h₂.settings, h₂.depth, hopen⟩
      · cases r with
        | ok u => exact hr.elim
        | error e => exact ⟨limited_finish hr base scope m, limited_finish hr base scope' m⟩
  · cases r with
    | ok exit => exact hr.elim
    | error e => exact ⟨limited_finish hr base scope m, limited_finish hr base scope' m⟩

/-- A chain of scripts, the first of which runs in a scope or in none, comes to the same. -/
theorem runChain_meets (hcall : ∀ marks f args, Alike d marks never (call f args) (call' f args))
    {k k' chain chain' : Nat} (hk : k ≤ k') (hchain : chain ≤ chain') (s : Script Value)
    (h : Opened marks scope scope' inner) (ht : m.Twins d inner n) :
    Meet d marks never
      ((runChain call k base chain s scope >>= fun ended => finish base ended.1 ended.2) m)
      ((runChain call' k' base chain' s scope' >>=
        fun ended => finish base ended.1 ended.2) n) := by
  induction chain generalizing chain' s scope scope' inner m n with
  | zero => exact .exhausted rfl
  | succ chain ih =>
    obtain ⟨chain', rfl⟩ : ∃ j, chain' = j + 1 := ⟨chain' - 1, by omega⟩
    exact chain_of_runFrom h (runFrom_alike (hcall inner) s hk 0 m n ht)
      fun target _ _ _ _ _ hopen htwins => ih (Nat.le_of_succ_le_succ hchain) target hopen htwins

theorem execute_alike (hcall : ∀ marks f args, Alike d marks never (call f args) (call' f args))
    {k k' : Nat} (hk : k ≤ k') (s : Script Value) (h : Opened marks scope scope' inner)
    (ht : m.Twins d inner n) :
    Meet d marks never (execute call k s scope m) (execute call' k' s scope' n) := by
  rw [execute_eq, execute_eq, run_bind_ok (run_height m), run_bind_ok (run_height n), ht.stack]
  exact runChain_meets hcall hk hk s h ht

/-! ## Host functions -/

/-- A failure with the error of a limit as its cause. -/
def carriesLimit : HostResult → Prop
  | .ok _ => False
  | .error e => ∃ cause, e.cause = .eval cause ∧ cause.isLimit = true

/-- What runs with bindings in a scope of its own comes to the same if only the last value of each
variable does. -/
theorem alike_inScopeWith {carries : α → Prop} {x y : Run α} {args args' : Bindings}
    (hargs : SameLast args args') (hx : ∀ marks, Alike d marks carries x y) :
    Alike d marks carries (inScope do
      bindAll args
      x) (inScope do
      bindAll args'
      y) := by
  intro m n h
  rw [run_inScope, run_inScope]
  have hbound : Machine.Twins d ((m.context.env.hiddenCount, n.context.env.hiddenCount) :: marks)
      (bindAll args (enterScope m).2).2 (bindAll args' (enterScope n).2).2 :=
    ⟨h.store, h.stack, h.settings, h.depth, h.env.enterWith hargs⟩
  refine Meet.scoped (x := do
      bindAll args
      x) (y := do
      bindAll args'
      y) (hx _ _ _ hbound) (fun r m₁ n₁ h₁ => ?_) fun r hr m₁ => ?_
  · exact alike_ofExcept r _ _ ⟨h₁.store, h₁.stack, h₁.settings, h₁.depth, h₁.env.leaveScope⟩
  · cases r <;> exact ⟨hr, hr⟩

theorem alike_logVariable (var : Variable) :
    Alike d marks never (logVariable var) (logVariable var) := by
  refine (alike_store _).bind fun name m n h => ?_
  rw [run_bind_ok (run_context m), run_bind_ok (run_context n), h.env.get? var]
  exact alike_store _ m n h

variable {evaluator evaluator' : Script Value → Bool → Run Value}

theorem alike_perform (hcall : ∀ f args, Alike d marks never (call f args) (call' f args))
    (heval : ∀ s own, Alike d marks never (evaluator s own) (evaluator' s own))
    (action : HostAction Value) :
    Alike d marks carriesLimit (perform call evaluator action)
      (perform call' evaluator' action) := by
  -- what is attempted becomes a result of the host function
  have hattempt : ∀ {x y : Run Value}, Alike d marks never x y →
      Alike d marks carriesLimit (hostResult <$> attempt x) (hostResult <$> attempt y) := by
    intro x y hx
    rw [map_eq_pure_bind, map_eq_pure_bind]
    refine hx.attempt.bindWith (fun r => alike_pure _) fun r hr m => ?_
    cases r with
    | ok v => exact hr.elim
    | error e => exact ⟨⟨e, rfl, hr⟩, ⟨e, rfl, hr⟩⟩
  induction action with
  | give v => exact alike_pure _
  | log text => exact (alike_store _).bind fun _ => alike_pure _
  | logVariable var => exact (alike_logVariable var).bind fun _ => alike_pure _
  | fail e => exact alike_pure _
  | eval s own => exact hattempt (heval s own)
  | call function args => exact hattempt (hcall function args)
  | get var => exact hattempt (alike_readVariable var)
  | set var v => exact (alike_bindAll [(var, v)]).bind fun _ => alike_pure _
  | interrupt =>
    intro m n h
    show Meet d marks carriesLimit ((context >>= _) m) ((context >>= _) n)
    rw [run_bind_ok (run_context m), run_bind_ok (run_context n), h.settings]
    exact (alike_store _).bind (fun _ => alike_pure _) m n h
  | panic payload => exact alike_throw _
  | gate name =>
    intro m n h
    unfold perform
    rw [h.store]
    by_cases hopen : m.store.openGates.contains name = true
    · simp only [if_pos hopen]
      exact .same rfl fun _ => h
    · simp only [if_neg hopen]
      exact .same rfl fun hr => hr.elim
  | within contexts action ih =>
    refine ih.bindWith (fun result => alike_pure _) fun result hr m => ?_
    cases result with
    | ok v => exact hr.elim
    | error e => exact ⟨hr, hr⟩

theorem alike_performAll (hcall : ∀ f args, Alike d marks never (call f args) (call' f args))
    (heval : ∀ s own, Alike d marks never (evaluator s own) (evaluator' s own)) (last : Value)
    (actions : List (HostAction Value)) :
    Alike d marks carriesLimit (performAll call evaluator last actions)
      (performAll call' evaluator' last actions) := by
  induction actions generalizing last with
  | nil => exact alike_pure _
  | cons action rest ih =>
    refine (alike_perform hcall heval action).bindWith (fun result => ?_) fun result hr m => ?_
    · cases result with
      | ok v => exact ih v
      | error e => exact alike_pure _
    · cases result with
      | ok v => exact hr.elim
      | error e => exact ⟨hr, hr⟩

theorem alike_runHost (hcall : ∀ f args, Alike d marks never (call f args) (call' f args))
    (heval : ∀ s own, Alike d marks never (evaluator s own) (evaluator' s own))
    (body : HostBody Value) :
    Alike d marks carriesLimit (runHost call evaluator body) (runHost call' evaluator' body) := by
  cases body with
  | prelude function =>
    have hinput : Alike d marks never input input :=
      (alike_store _).bind fun var => alike_readVariable var
    refine hinput.attempt.bindWith (fun r => ?_) fun r hr m => ?_
    · cases r <;> exact alike_pure _
    · cases r with
      | ok v => exact hr.elim
      | error e => exact ⟨⟨e, rfl, hr⟩, ⟨e, rfl, hr⟩⟩
  | actions steps => exact alike_performAll hcall heval .nil steps

/-! ## Calls -/

theorem alike_beginCall : Alike d marks never beginCall beginCall := by
  intro m n h
  have hdepth := h.depth
  unfold beginCall
  rw [run_bind_ok (run_context m), run_bind_ok (run_context n), h.settings]
  by_cases hm : m.context.callDepth ≥ m.context.settings.maxCallDepth
  · simp only [if_pos hm]
    cases d with
    | equal =>
      rw [show n.context.callDepth = m.context.callDepth from hdepth.symm, if_pos hm]
      exact alike_fail _ m n h
    | rightDeeper =>
      have hn : n.context.callDepth ≥ m.context.settings.maxCallDepth := Nat.le_trans hm hdepth
      simp only [if_pos hn]
      exact .right rfl rfl
    | leftDeeper => exact .left rfl rfl
  · simp only [if_neg hm]
    by_cases hn : n.context.callDepth ≥ m.context.settings.maxCallDepth
    · simp only [if_pos hn]
      cases d with
      | equal => exact absurd (show _ ≥ _ from hdepth ▸ hn) hm
      | rightDeeper => exact .right rfl rfl
      | leftDeeper => exact absurd (Nat.le_trans hn hdepth) hm
    · simp only [if_neg hn]
      refine .same rfl fun _ => ⟨h.store, h.stack, h.settings, ?_, h.env⟩
      cases d with
      | equal => exact congrArg (· + 1) hdepth
      | rightDeeper => exact Nat.succ_le_succ hdepth
      | leftDeeper => exact Nat.succ_le_succ hdepth

theorem alike_endCall : Alike d marks never endCall endCall := by
  refine alike_of_eq fun m n h => ⟨rfl, h.store, h.stack, h.settings, ?_, h.env⟩
  have hdepth := h.depth
  cases d with
  | equal => exact congrArg (· - 1) hdepth
  | rightDeeper => exact Nat.sub_le_sub_right hdepth 1
  | leftDeeper => exact Nat.sub_le_sub_right hdepth 1

theorem alike_settle (name : String) (result : HostResult) :
    Alike d marks never (settle name result) (settle name result) := by
  cases result with
  | ok v => exact alike_pure v
  | error e =>
    unfold settle
    dsimp only
    split
    · exact alike_fail _
    · exact alike_pure _

theorem limited_settle {result : HostResult} (h : carriesLimit result) (name : String)
    (m : Machine) : Limited never (settle name result m).1 := by
  cases result with
  | ok v => exact h.elim
  | error e =>
    obtain ⟨cause, hcause, hlimit⟩ := h
    have he : e.toEvalError name = cause := by
      unfold HostError.toEvalError
      rw [hcause]
    have hsettle : settle name (.error e) = fail cause := by
      show (if (e.toEvalError name).isLimit then fail (e.toEvalError name) else _) = _
      rw [he, if_pos hlimit]
    rw [hsettle]
    exact hlimit

theorem callHost_of_error {args : Bindings} {v : Value} (h : firstError? args = some v)
    (call : Caller) (eval : Script Value → Bool → Run Value) (function : HostFunction Value) :
    callHost call eval function args = pure v := by
  unfold callHost
  obtain ⟨b, hb, rfl⟩ := Option.map_eq_some_iff.mp h
  rw [hb]

theorem callHost_of_none {args : Bindings} (h : firstError? args = none) (call : Caller)
    (eval : Script Value → Bool → Run Value) (function : HostFunction Value) :
    callHost call eval function args = (do
      beginCall
      let result ← inScope do
        bindAll args
        runHost call eval function.body
      endCall
      settle function.name result) := by
  unfold callHost
  rw [Option.map_eq_none_iff.mp h]

variable {args args' : Bindings}

theorem alike_callScript (hcall : ∀ marks f args, Alike d marks never (call f args) (call' f args))
    {k k' : Nat} (hk : k ≤ k') (s : Script Value) (hargs : SameLast args args') :
    Alike d marks never (callScript call k s args) (callScript call' k' s args') := by
  refine alike_beginCall.bind fun _ m n h => ?_
  rw [run_bind_ok (run_enterScope m), run_bind_ok (run_enterScope n), run_bind_ok (run_bindAll _ _),
    run_bind_ok (run_bindAll _ _)]
  have henter : Machine.Twins d ((m.context.env.hiddenCount, n.context.env.hiddenCount) :: marks)
      { m with context := { m.context with env := m.context.env.enterScope.2.setAll args } }
      { n with context := { n.context with env := n.context.env.enterScope.2.setAll args' } } :=
    ⟨h.store, h.stack, h.settings, h.depth, h.env.enterWith hargs⟩
  refine (execute_alike hcall hk s (.some _ _) henter).attempt.bindWith (fun r => ?_) fun r hr m => ?_
  · exact alike_endCall.bind fun _ => alike_ofExcept r
  · cases r with
    | ok v => exact hr.elim
    | error e => exact ⟨hr, hr⟩

theorem alike_callHost (hcall : ∀ marks f args, Alike d marks never (call f args) (call' f args))
    (heval : ∀ marks s own, Alike d marks never (evaluator s own) (evaluator' s own))
    (function : HostFunction Value) (hargs : SameLast args args')
    (herror : firstError? args = firstError? args') :
    Alike d marks never (callHost call evaluator function args)
      (callHost call' evaluator' function args') := by
  cases he : firstError? args with
  | some v =>
    rw [callHost_of_error he, callHost_of_error (herror ▸ he)]
    exact alike_pure v
  | none =>
    rw [callHost_of_none he, callHost_of_none (herror ▸ he)]
    refine alike_beginCall.bind fun _ => ?_
    have hbody : ∀ marks, Alike d marks carriesLimit (runHost call evaluator function.body)
        (runHost call' evaluator' function.body) := fun marks =>
      alike_runHost (hcall marks) (heval marks) function.body
    refine (alike_inScopeWith hargs hbody).bindWith (fun result => ?_) fun result hr m => ?_
    · exact alike_endCall.bind fun _ => alike_settle function.name result
    · exact ⟨limited_settle hr _ _, limited_settle hr _ _⟩

/-- Forgetting the calls noted so far does not show. -/
theorem alike_forgetting {x y : Run α} (hx : Alike d marks never x y) : Alike d marks never (do
      if (← context).callDepth = 0 then forgetFrames
      x) (do
      if (← context).callDepth = 0 then forgetFrames
      y) := by
  intro m n h
  rw [run_bind_ok (run_context m), run_bind_ok (run_context n)]
  have hleft : ∀ (x : Run α) (m : Machine), ∃ m' : Machine, (do
      if m.context.callDepth = 0 then forgetFrames
      x : Run α) m = x m' ∧ m'.store = m.store ∧
      m'.context = { m.context with backtrace := m'.context.backtrace } := by
    intro x m
    by_cases h0 : m.context.callDepth = 0
    · simp only [if_pos h0]
      exact ⟨(forgetFrames m).2, rfl, rfl, rfl⟩
    · simp only [if_neg h0]
      exact ⟨m, rfl, rfl, rfl⟩
  obtain ⟨m', hm, hms, hmc⟩ := hleft x m
  obtain ⟨n', hn, hns, hnc⟩ := hleft y n
  rw [hm, hn]
  refine hx m' n' ⟨hns.trans (h.store.trans hms.symm), ?_, ?_, ?_, ?_⟩ <;> rw [hmc, hnc]
  · exact h.stack
  · exact h.settings
  · exact h.depth
  · exact h.env

theorem alike_evalWith (hcall : ∀ marks f args, Alike d marks never (call f args) (call' f args))
    {k k' : Nat} (hk : k ≤ k') (s : Script Value) (own : Bool) :
    Alike d marks never (evalWith call k s own) (evalWith call' k' s own) := by
  refine alike_forgetting fun m n h => ?_
  cases own with
  | false =>
    exact (execute_alike hcall hk s .none h).bindWith (fun v => alike_ofExcept _) fun _ h => h.elim
  | true =>
    have henter : Machine.Twins d ((m.context.env.hiddenCount, n.context.env.hiddenCount) :: marks)
        (enterScope m).2 (enterScope n).2 :=
      ⟨h.store, h.stack, h.settings, h.depth, h.env.enterScope⟩
    exact (execute_alike hcall hk s (.some _ _) henter).bindWith (fun v => alike_ofExcept _)
      fun _ h => h.elim

theorem alike_callWith (hcall : ∀ marks f args, Alike d marks never (call f args) (call' f args))
    {k k' : Nat} (hk : k ≤ k') (function : Value) (args : Bindings) :
    Alike d marks never (callWith call k function args) (callWith call' k' function args) := by
  cases function with
  | script s => exact alike_callScript hcall hk s (.refl args)
  | builtin _ f =>
    exact alike_callHost hcall (fun marks s own => alike_evalWith hcall hk s own) f (.refl args) rfl
  | closure _ inner captured => exact hcall marks inner (captured ++ args)
  | composition _ first second =>
    refine (hcall marks first args).bind fun intermediate => ?_
    exact (alike_store _).bind fun var => hcall marks second [(var, intermediate)]
  | _ => exact alike_pure _

/-- Calls nest: the induction is on the smaller budget. -/
theorem callFor_alike {k k' : Nat} (hk : k ≤ k') (marks : List (Nat × Nat)) (function : Value)
    (args : Bindings) : Alike d marks never (callFor k function args) (callFor k' function args) := by
  induction k generalizing k' marks function args with
  | zero => exact fun _ _ _ => .exhausted rfl
  | succ k ih =>
    obtain ⟨k', rfl⟩ : ∃ j, k' = j + 1 := ⟨k' - 1, by omega⟩
    have hk := Nat.le_of_succ_le_succ hk
    exact alike_callWith (fun marks f args => ih hk marks f args) hk function args

theorem eval_alike {k k' : Nat} (hk : k ≤ k') (s : Script Value) (own : Bool) :
    Alike d marks never (eval k s own) (eval k' s own) :=
  alike_evalWith (fun marks f args => callFor_alike hk marks f args) hk s own

end ReactiveScript.Run
