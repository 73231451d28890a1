import ReactiveScript.Proofs.Balance
import ReactiveScript.Proofs.Calm

/-
  Interrupted evaluations end.

  Once the switch of a context is set, instructions lead on towards the end of the code, and nobody
  goes on with the target of a tail call. What is left are calls. A call of a script or of a host
  function uses up call depth, and a call of a closure or a composition goes on with a part of it; so
  the measure is the depth that is left, then the function (`settles_callFor`), and within a frame
  the instructions that are left (`settles_runFrom`).

  With every large budget such an evaluation comes to the same end (`Settles`): it comes back with a
  value or an error, unless a host function panics or waits at a gate that is not open.
-/

namespace ReactiveScript.Run

variable {α β : Type} {m : Machine} {B : α → Prop} {C : β → Prop}

/-! ## Evaluations that settle -/

/-- A host function put an end to the evaluation: it panicked, or it waits at a gate. -/
def StoppedByHost : Except Stop α → Prop
  | .error (.panic _) => True
  | .error (.held _) => True
  | _ => False

/-- With every large budget the evaluation comes to the same end, under the same limits if it comes
back. -/
def Settles (B : α → Prop) (x : Nat → Run α) (m : Machine) : Prop :=
  ∃ out, (∃ enough, ∀ budget ≥ enough, x budget m = out) ∧
    (Returned out.1 ∧ m.SameLimits out.2 ∧ (∀ a, out.1 = .ok a → B a) ∨ StoppedByHost out.1)

theorem Calm.settles {x : Run α} (h : Calm B x) (hm : m.Interrupted) :
    Settles B (fun _ => x) m :=
  ⟨x m, ⟨0, fun _ _ => rfl⟩, .inl (h m hm)⟩

/-- A sequence settles if its parts do. -/
theorem Settles.bind {x : Nat → Run α} {f : Nat → α → Run β} (hx : Settles B x m)
    (hm : m.Interrupted) (hf : ∀ a m', B a → m.SameLimits m' → m'.Interrupted →
      Settles C (fun k => f k a) m') : Settles C (fun k => x k >>= f k) m := by
  obtain ⟨⟨result, m₁⟩, ⟨enough, henough⟩, hout⟩ := hx
  cases result with
  | error stop =>
    refine ⟨(.error stop, m₁), ⟨enough, fun k hk => run_bind_error (henough k hk)⟩, ?_⟩
    rcases hout with ⟨hreturned, hlimits, -⟩ | hstopped
    · obtain ⟨e, rfl⟩ := hreturned.error_of
      exact .inl ⟨trivial, hlimits, fun b hb => by cases hb⟩
    · cases stop with
      | panic _ | held _ => exact .inr trivial
      | _ => exact hstopped.elim
  | ok a =>
    obtain ⟨-, hlimits, hB⟩ : Returned (.ok a) ∧ m.SameLimits m₁ ∧ _ := hout.resolve_right id
    obtain ⟨out, ⟨enough', henough'⟩, hout'⟩ :=
      hf a m₁ (hB a rfl) hlimits (hlimits.interrupted hm)
    refine ⟨out, ⟨max enough enough', fun k hk => ?_⟩, ?_⟩
    · show (x k >>= f k) m = out
      rw [run_bind_ok (henough k (by omega))]
      exact henough' k (by omega)
    · exact hout'.imp_left fun h => ⟨h.1, hlimits.trans h.2.1, h.2.2⟩

/-- The first part of a sequence makes no calls. -/
theorem Calm.andThen {x : Run α} {f : Nat → α → Run β} (hx : Calm B x) (hm : m.Interrupted)
    (hf : ∀ a m', B a → m.SameLimits m' → m'.Interrupted → Settles C (fun k => f k a) m') :
    Settles C (fun k => x >>= f k) m :=
  (hx.settles hm).bind hm hf

/-- An attempt gives the error of an evaluation as a result. -/
theorem Settles.attempt {x : Nat → Run α} (hx : Settles B x m) :
    Settles whatever (fun k => attempt (x k)) m := by
  obtain ⟨⟨result, m₁⟩, ⟨enough, henough⟩, hout⟩ := hx
  refine ⟨Run.attempt (fun _ => (result, m₁)) m, ⟨enough, fun k hk => ?_⟩, ?_⟩
  · show Run.attempt (x k) m = _
    rw [run_attempt, run_attempt, henough k hk]
  · rw [run_attempt]
    rcases result with (e | _ | _ | _) | a
    · exact .inl ⟨trivial, (hout.resolve_right id).2.1, fun _ _ => trivial⟩
    · exact .inr trivial
    · exact .inr trivial
    · exact (hout.elim (fun h => h.1) id).elim
    · exact .inl ⟨trivial, (hout.resolve_right id).2.1, fun _ _ => trivial⟩

/-- Only what happens with large budgets matters. -/
theorem Settles.of_eventually {x y : Nat → Run α} (h : Settles B y m) (enough : Nat)
    (heq : ∀ budget ≥ enough, x budget = y budget) : Settles B x m := by
  obtain ⟨out, ⟨enough', henough⟩, hout⟩ := h
  refine ⟨out, ⟨max enough enough', fun k hk => ?_⟩, hout⟩
  rw [heq k (by omega)]
  exact henough k (by omega)

theorem Settles.succ {x : Nat → Run α} (h : Settles B x m) : Settles B (fun k => x (k + 1)) m := by
  obtain ⟨out, ⟨enough, henough⟩, hout⟩ := h
  exact ⟨out, ⟨enough, fun k hk => henough (k + 1) (by omega)⟩, hout⟩

theorem Settles.of_succ {x : Nat → Run α} (h : Settles B (fun k => x (k + 1)) m) :
    Settles B x m := by
  obtain ⟨out, ⟨enough, henough⟩, hout⟩ := h
  refine ⟨out, ⟨enough + 1, fun k hk => ?_⟩, hout⟩
  obtain ⟨k, rfl⟩ : ∃ j, k = j + 1 := ⟨k - 1, by omega⟩
  exact henough k (by omega)

/-! ## Frames -/

variable {call : Nat → Caller} {s : Script Value} {base pos : Nat}

/-- From a machine on, under its limits, all calls settle. -/
def CallsSettle (call : Nat → Caller) (m : Machine) : Prop :=
  ∀ m', m.SameLimits m' → ∀ function args, Settles whatever (fun k => call k function args) m'

theorem CallsSettle.later {m' : Machine} (h : CallsSettle call m) (hlimits : m.SameLimits m') :
    CallsSettle call m' :=
  fun m'' hlimits' => h m'' (hlimits.trans hlimits')

theorem settles_stepPlainCall (hcalls : CallsSettle call m) (hm : m.Interrupted)
    (hpos : pos < s.length) {next : Nat} (hnext : pos < next) (function : Value)
    (bindings : Bindings) :
    Settles (Closer s pos) (fun k => stepPlainCall (call k) s pos next function bindings) m := by
  refine (hcalls m (.refl m) function bindings).attempt.bind hm fun result m₁ _ _ hm₁ => ?_
  refine Calm.settles ?_ hm₁
  cases result with
  | ok v => exact (calm_push v).bind fun _ _ => calm_goto hpos hnext
  | error e =>
    refine (calm_store fun _ _ h => h).bind fun frame _ => ?_
    exact (calm_noteFrame frame).bind fun _ _ => calm_fail e

theorem settles_stepCall (hcalls : CallsSettle call m) (hm : m.Interrupted)
    (hpos : pos < s.length) (n : Nat) (op : Opcode) :
    Settles (Closer s pos) (fun k => stepCall (call k) s base pos n op) m := by
  unfold stepCall
  refine (calm_ofExcept _).andThen hm fun params m₁ _ h₁ hm₁ => ?_
  refine (calm_popMany n).andThen hm₁ fun args m₂ _ h₂ hm₂ => ?_
  refine calm_pop.andThen hm₂ fun function m₃ _ h₃ hm₃ => ?_
  have hnext : pos < pos + 1 + n := by omega
  by_cases hop : op = .closure
  · simp only [if_pos hop]
    refine Calm.settles ?_ hm₃
    refine (calm_store (Store.lasting_keepsSwitches.closed.partialApply _ _)).bind fun v _ => ?_
    exact (calm_push v).bind fun _ _ => calm_goto hpos hnext
  · simp only [if_neg hop]
    refine calm_height.andThen hm₃ fun height m₄ _ h₄ hm₄ => ?_
    split
    · exact (calm_pure trivial).settles hm₄
    · have hlimits := ((h₁.trans h₂).trans h₃).trans h₄
      exact settles_stepPlainCall (hcalls.later hlimits) hm₄ hpos hnext function _

theorem settles_step (hcalls : CallsSettle call m) (hm : m.Interrupted) (pos : Nat) :
    Settles (Closer s pos) (fun k => step (call k) s base pos) m := by
  unfold step
  cases hi : s.code[pos]? with
  | none =>
    refine Calm.settles ?_ hm
    exact calm_frameResult.bind fun v _ => calm_pure trivial
  | some i =>
    have hpos : pos < s.length := (Array.getElem?_eq_some_iff.mp hi).1
    have hcalm := fun hcall htail hclosure =>
      (calm_stepInstr hpos i hcall htail hclosure : Calm _ (stepInstr (call 0) s base pos i))
    rcases i with ⟨opcode, n⟩
    cases opcode with
    | call => exact settles_stepCall hcalls hm hpos n .call
    | closure => exact settles_stepCall hcalls hm hpos n .closure
    | tailCall => exact settles_stepCall hcalls hm hpos n .tailCall
    | _ => exact (hcalm (by simp) (by simp) (by simp)).settles hm

/-- In a frame, the instructions that are left get fewer. -/
theorem settles_runFrom (hcalls : CallsSettle call m) (hm : m.Interrupted) (pos : Nat)
    (steps : Nat → Nat) (hsteps : ∃ enough, ∀ k ≥ enough, s.length - pos < steps k) :
    Settles whatever (fun k => runFrom (call k) s base (steps k) pos) m := by
  induction hleft : s.length - pos using Nat.strongRecOn generalizing pos m steps with
  | _ left ih =>
    subst hleft
    obtain ⟨enough, henough⟩ := hsteps
    have hsucc : Settles whatever (fun k => runFrom (call k) s base (steps k - 1 + 1) pos) m := by
      simp only [runFrom]
      refine (settles_step hcalls hm pos).bind hm fun next m₁ hnext h₁ hm₁ => ?_
      cases next with
      | leave exit => exact (calm_return exit).settles hm₁
      | goto pos' =>
        have hfewer : ∀ k ≥ enough, s.length - pos' < steps k - 1 := by
          intro k hk
          have := henough k hk
          have : s.length - pos' < s.length - pos := hnext
          omega
        exact ih _ hnext (hcalls.later h₁) hm₁ pos' (fun k => steps k - 1) ⟨enough, hfewer⟩ rfl
    refine hsucc.of_eventually enough fun k hk => ?_
    have := henough k hk
    rw [Nat.sub_add_cancel (by omega)]

/-- Nobody goes on with the target of a tail call. -/
theorem settles_runChain (hcalls : CallsSettle call m) (hm : m.Interrupted) (s : Script Value)
    (scope : Option Nat) :
    Settles whatever (fun k => runChain (call k) k base k s scope) m := by
  have hrun : Settles whatever (fun k => runFrom (call k) s base k 0) m :=
    settles_runFrom hcalls hm 0 (fun k => k) ⟨s.length + 1, fun k hk => by omega⟩
  refine Settles.of_succ ?_
  unfold runChain
  refine hrun.attempt.succ.bind hm fun result m₁ _ _ hm₁ => ?_
  rcases result with e | v | ⟨target, bindings⟩
  · exact (calm_return _).settles hm₁
  · exact (calm_return _).settles hm₁
  · have hheed : attempt heedInterrupt m₁ = (.ok (.error .interrupted), m₁) :=
      run_attempt_error (heedInterrupt_eq hm₁)
    exact ⟨(.ok (.error .interrupted, scope), m₁), ⟨0, fun k _ => run_bind_ok hheed⟩,
      .inl ⟨trivial, .refl m₁, fun _ _ => trivial⟩⟩

theorem calm_finish (base : Nat) (result : Except EvalError Value) (scope : Option Nat) :
    Calm whatever (finish base result scope) := by
  have hend : Calm whatever (finish base result none) := by
    cases result with
    | ok v => exact calm_return v
    | error e => exact (calm_truncate base).bind fun _ _ => calm_fail e
  cases scope with
  | none => exact hend
  | some mark => exact (calm_leaveScope mark).bind fun _ _ => hend

theorem settles_execute (hcalls : CallsSettle call m) (hm : m.Interrupted) (s : Script Value)
    (scope : Option Nat) : Settles whatever (fun k => execute (call k) k s scope) m := by
  simp only [execute_eq]
  refine calm_height.andThen hm fun base m₁ _ h₁ hm₁ => ?_
  refine (settles_runChain (hcalls.later h₁) hm₁ s scope).bind hm₁ fun ended m₂ _ _ hm₂ => ?_
  exact (calm_finish base ended.1 ended.2).settles hm₂

theorem settles_evalWith (hcalls : CallsSettle call m) (hm : m.Interrupted) (s : Script Value)
    (ownScope : Bool) : Settles whatever (fun k => evalWith (call k) k s ownScope) m := by
  have hrun : ∀ scope m', m.SameLimits m' → m'.Interrupted →
      Settles whatever (fun k => execute (call k) k s scope >>= fun v => ofExcept v.force) m' :=
    fun scope m' h hm' => (settles_execute (hcalls.later h) hm' s scope).bind hm'
      fun v _ _ _ hm'' => (calm_ofExcept _).settles hm''
  have hscoped : ∀ m', m.SameLimits m' → m'.Interrupted → Settles whatever (fun k => do
      let scope ← if ownScope then some <$> enterScope else pure none
      ofExcept (← execute (call k) k s scope).force) m' := by
    intro m' h hm'
    cases ownScope with
    | false => exact (calm_return none).andThen hm' fun scope m'' _ h' => hrun scope m'' (h.trans h')
    | true =>
      have hopen : Calm whatever (some <$> enterScope) := by
        rw [map_eq_pure_bind]
        exact calm_enterScope.bind fun _ _ => calm_return _
      exact hopen.andThen hm' fun scope m'' _ h' => hrun scope m'' (h.trans h')
  unfold evalWith
  refine calm_context.andThen hm fun c m₁ _ h₁ hm₁ => ?_
  by_cases h : c.callDepth = 0
  · simp only [if_pos h]
    exact calm_forgetFrames.andThen hm₁ fun _ m₂ _ h₂ hm₂ => hscoped m₂ (h₁.trans h₂) hm₂
  · simp only [if_neg h]
    exact hscoped m₁ h₁ hm₁

/-! ## Host functions -/

variable {evaluator : Nat → Script Value → Bool → Run Value}

theorem Settles.map {x : Nat → Run α} (hx : Settles B x m) (hm : m.Interrupted) (f : α → β) :
    Settles whatever (fun k => f <$> x k) m := by
  simp only [map_eq_pure_bind]
  exact hx.bind hm fun a _ _ _ hm' => (calm_return _).settles hm'

theorem calm_logVariable (var : Variable) : Calm whatever (logVariable var) := by
  refine (calm_store (Store.lasting_keepsSwitches.closed.nameOf var)).bind fun name _ => ?_
  exact calm_context.bind fun _ _ => calm_store (Store.lasting_keepsSwitches.write _)

theorem settles_perform (hcalls : CallsSettle call m)
    (heval : ∀ m', m.SameLimits m' → ∀ s own, Settles whatever (fun k => evaluator k s own) m')
    (hm : m.Interrupted) (action : HostAction Value) :
    Settles whatever (fun k => perform (call k) (evaluator k) action) m := by
  have hnil : Calm whatever (pure (.ok .nil) : Run HostResult) := calm_return _
  induction action with
  | give v => exact (calm_return _).settles hm
  | log text =>
    exact ((calm_store (Store.lasting_keepsSwitches.write _)).bind fun _ _ => hnil).settles hm
  | logVariable var => exact ((calm_logVariable var).bind fun _ _ => hnil).settles hm
  | fail e => exact (calm_return _).settles hm
  | eval s own => exact (heval m (.refl m) s own).attempt.map hm hostResult
  | call function args => exact (hcalls m (.refl m) function args).attempt.map hm hostResult
  | get var => exact ((calm_readVariable var).settles hm).attempt.map hm hostResult
  | set var v => exact ((calm_bindVariable var v).bind fun _ _ => hnil).settles hm
  | interrupt =>
    have hset : ∀ c : Context, Calm whatever (do
        store (Store.setInterrupt c.settings.interrupt true)
        return .ok .nil : Run HostResult) := fun c =>
      (calm_store (Store.keepsSwitches_setInterrupt _)).bind fun _ _ => hnil
    exact (calm_context.bind fun c _ => hset c).settles hm
  | panic payload => exact ⟨_, ⟨0, fun _ _ => rfl⟩, .inr trivial⟩
  | gate name =>
    by_cases hopen : m.store.openGates.contains name = true
    · refine ⟨(.ok (.ok .nil), m), ⟨0, fun _ _ => ?_⟩, .inl ⟨trivial, .refl m, fun _ _ => trivial⟩⟩
      exact if_pos hopen
    · exact ⟨(.error (.held name), m), ⟨0, fun _ _ => if_neg hopen⟩, .inr trivial⟩
  | within contexts action ih => exact ih.bind hm fun _ _ _ _ hm' => (calm_return _).settles hm'

theorem settles_performAll (hcalls : CallsSettle call m)
    (heval : ∀ m', m.SameLimits m' → ∀ s own, Settles whatever (fun k => evaluator k s own) m')
    (hm : m.Interrupted) (last : Value) (actions : List (HostAction Value)) :
    Settles whatever (fun k => performAll (call k) (evaluator k) last actions) m := by
  induction actions generalizing last m with
  | nil => exact (calm_return _).settles hm
  | cons action rest ih =>
    refine (settles_perform hcalls heval hm action).bind hm fun result m₁ _ h₁ hm₁ => ?_
    cases result with
    | ok v => exact ih (hcalls.later h₁) (fun m' h => heval m' (h₁.trans h)) hm₁ v
    | error e => exact (calm_return _).settles hm₁

theorem settles_runHost (hcalls : CallsSettle call m)
    (heval : ∀ m', m.SameLimits m' → ∀ s own, Settles whatever (fun k => evaluator k s own) m')
    (hm : m.Interrupted) (body : HostBody Value) :
    Settles whatever (fun k => runHost (call k) (evaluator k) body) m := by
  cases body with
  | prelude function =>
    have hinput : Calm whatever input :=
      (calm_store (Store.lasting_keepsSwitches.intern _)).bind fun var _ => calm_readVariable var
    refine (hinput.settles hm).attempt.bind hm fun result m₁ _ _ hm₁ => ?_
    cases result with
    | ok v => exact (calm_return _).settles hm₁
    | error e => exact (calm_return _).settles hm₁
  | actions steps => exact settles_performAll hcalls heval hm .nil steps

theorem Settles.inScope {x : Nat → Run α} (hm : m.Interrupted)
    (hx : ∀ m', m.SameLimits m' → m'.Interrupted → Settles whatever x m') :
    Settles whatever (fun k => inScope (x k)) m := by
  refine calm_enterScope.andThen hm fun mark m₁ _ h₁ hm₁ => ?_
  refine (hx m₁ h₁ hm₁).attempt.bind hm₁ fun result m₂ _ _ hm₂ => ?_
  exact ((calm_leaveScope mark).bind fun _ _ => calm_ofExcept result).settles hm₂

theorem calm_settle (name : String) (result : HostResult) : Calm whatever (settle name result) := by
  cases result with
  | ok v => exact calm_return v
  | error e =>
    unfold settle
    dsimp only
    split
    · exact calm_fail _
    · exact calm_return _

/-! ## Calls -/

/-- What is counted as a call settles if it does so one call deeper, and does not fail: then the count
is taken back. -/
theorem settles_counted {x : Nat → Run α} {f : α → Run β} (hm : m.Interrupted)
    (hx : ∀ m' : Machine, m'.Interrupted → m'.depthLeft < m.depthLeft → Settles whatever x m')
    (hfail : ∀ k, NoFailure (x k)) (hf : ∀ a, Calm whatever (f a)) :
    Settles whatever (fun k => do
      beginCall
      let a ← x k
      endCall
      f a) m := by
  rcases beginCall_cases m with ⟨-, hbegin⟩ | ⟨hless, hbegin⟩
  · exact ⟨_, ⟨0, fun k _ => run_bind_error hbegin⟩, .inl ⟨trivial, .refl m, fun _ h => by cases h⟩⟩
  · let m₁ : Machine :=
      { m with context := { m.context with callDepth := m.context.callDepth + 1 } }
    have hdepth : m₁.depthLeft < m.depthLeft := by
      show m.context.settings.maxCallDepth - (m.context.callDepth + 1) <
        m.context.settings.maxCallDepth - m.context.callDepth
      omega
    obtain ⟨⟨result, m₂⟩, ⟨enough, henough⟩, hout⟩ := hx m₁ hm hdepth
    cases result with
    | error stop =>
      refine ⟨(.error stop, m₂), ⟨enough, fun k hk => ?_⟩, ?_⟩
      · show (beginCall >>= fun _ => x k >>= fun a => endCall >>= fun _ => f a) m = _
        rw [run_bind_ok hbegin, run_bind_error (henough k hk)]
      · rcases hout with ⟨hreturned, -, -⟩ | hstopped
        · obtain ⟨e, rfl⟩ := hreturned.error_of
          exact absurd (congrArg Prod.fst (henough enough (Nat.le_refl _))) (hfail enough m₁ e)
        · cases stop with
          | panic _ | held _ => exact .inr trivial
          | _ => exact hstopped.elim
    | ok a =>
      obtain ⟨-, hlimits, -⟩ : Returned (.ok a) ∧ m₁.SameLimits m₂ ∧ _ := hout.resolve_right id
      let m₃ : Machine :=
        { m₂ with context := { m₂.context with callDepth := m₂.context.callDepth - 1 } }
      have hback : m.SameLimits m₃ := by
        refine ⟨hlimits.settings, ?_, hlimits.switches⟩
        show m₂.context.callDepth - 1 = m.context.callDepth
        rw [hlimits.callDepth]
        exact Nat.add_sub_cancel _ 1
      obtain ⟨hreturned, hend, hwhatever⟩ := hf a m₃ (hback.interrupted hm)
      refine ⟨f a m₃, ⟨enough, fun k hk => ?_⟩, .inl ⟨hreturned, hback.trans hend, hwhatever⟩⟩
      show (beginCall >>= fun _ => x k >>= fun a => endCall >>= fun _ => f a) m = _
      rw [run_bind_ok hbegin, run_bind_ok (henough k hk)]
      rfl

/-- From any interrupted machine on where fewer calls may be nested, all calls settle. -/
def DeeperCallsSettle (m : Machine) : Prop :=
  ∀ m' : Machine, m'.Interrupted → m'.depthLeft < m.depthLeft → ∀ function args,
    Settles whatever (fun k => callFor k function args) m'

theorem DeeperCallsSettle.callsSettle {m' : Machine} (h : DeeperCallsSettle m)
    (hm' : m'.Interrupted) (hdepth : m'.depthLeft < m.depthLeft) : CallsSettle callFor m' :=
  fun m'' hlimits => h m'' (hlimits.interrupted hm') (hlimits.depthLeft ▸ hdepth)

theorem settles_callScript (hdeeper : DeeperCallsSettle m) (hm : m.Interrupted) (s : Script Value)
    (args : Bindings) : Settles whatever (fun k => callScript (callFor k) k s args) m := by
  have hbody : ∀ m' : Machine, m'.Interrupted → m'.depthLeft < m.depthLeft →
      Settles whatever (fun k => do
        let mark ← enterScope
        bindAll args
        attempt (execute (callFor k) k s (some mark))) m' := by
    intro m' hm' hdepth
    refine calm_enterScope.andThen hm' fun mark m₁ _ h₁ hm₁ => ?_
    refine (calm_bindAll args).andThen hm₁ fun _ m₂ _ h₂ hm₂ => ?_
    have hcalls := (hdeeper.callsSettle hm' hdepth).later (h₁.trans h₂)
    exact (settles_execute hcalls hm₂ s (some mark)).attempt
  have hnone : ∀ k, NoFailure (do
      let mark ← enterScope
      bindAll args
      attempt (execute (callFor k) k s (some mark))) := fun k =>
    NoFailure.bind (fun _ _ h => by cases h) fun mark =>
      (noFailure_bindAll args).bind fun _ => noFailure_attempt _
  have h := settles_counted hm hbody hnone calm_ofExcept
  simp only [bind_assoc] at h
  exact h

theorem settles_callHost (hdeeper : DeeperCallsSettle m) (hm : m.Interrupted)
    (function : HostFunction Value) (args : Bindings) :
    Settles whatever (fun k => callHost (callFor k) (evalWith (callFor k) k) function args) m := by
  unfold callHost
  cases args.find? fun b => b.2.isError with
  | some b => exact (calm_return b.2).settles hm
  | none =>
    have hbody : ∀ m' : Machine, m'.Interrupted → m'.depthLeft < m.depthLeft →
        Settles whatever (fun k => inScope do
          bindAll args
          runHost (callFor k) (evalWith (callFor k) k) function.body) m' := by
      intro m' hm' hdepth
      refine Settles.inScope hm' fun m₁ h₁ hm₁ => ?_
      refine (calm_bindAll args).andThen hm₁ fun _ m₂ _ h₂ hm₂ => ?_
      have hcalls := (hdeeper.callsSettle hm' hdepth).later (h₁.trans h₂)
      refine settles_runHost hcalls (fun m₃ h₃ s own => ?_) hm₂ function.body
      exact settles_evalWith (hcalls.later h₃) (h₃.interrupted hm₂) s own
    have hnone : ∀ k, NoFailure (inScope do
        bindAll args
        runHost (callFor k) (evalWith (callFor k) k) function.body) := fun k =>
      noFailure_inScope ((noFailure_bindAll args).bind fun _ => noFailure_runHost _)
    exact settles_counted hm hbody hnone fun result => calm_settle function.name result

theorem DeeperCallsSettle.later {m' : Machine} (h : DeeperCallsSettle m)
    (hlimits : m.SameLimits m') : DeeperCallsSettle m' :=
  fun m'' hm'' hdepth => h m'' hm'' (hlimits.depthLeft ▸ hdepth)

/-- Closures and compositions call parts of themselves. -/
theorem settles_callFor_of_deeper (function : Value) (args : Bindings) (m : Machine)
    (hm : m.Interrupted) (hdeeper : DeeperCallsSettle m) :
    Settles whatever (fun k => callFor k function args) m := by
  refine Settles.of_succ ?_
  cases function with
  | script s => exact settles_callScript hdeeper hm s args
  | builtin _ f => exact settles_callHost hdeeper hm f args
  | closure _ inner captured =>
    exact settles_callFor_of_deeper inner (captured ++ args) m hm hdeeper
  | composition _ first second =>
    refine (settles_callFor_of_deeper first args m hm hdeeper).bind hm
      fun intermediate m₁ _ h₁ hm₁ => ?_
    refine (calm_store (Store.lasting_keepsSwitches.intern _)).andThen hm₁ fun var m₂ _ h₂ hm₂ => ?_
    exact settles_callFor_of_deeper second [(var, intermediate)] m₂ hm₂
      (hdeeper.later (h₁.trans h₂))
  | _ => exact (calm_return _).settles hm

/-- Calls of scripts and host functions use up call depth. -/
theorem settles_callFor (function : Value) (args : Bindings) (hm : m.Interrupted) :
    Settles whatever (fun k => callFor k function args) m := by
  induction hleft : m.depthLeft using Nat.strongRecOn generalizing m function args with
  | _ left ih =>
    subst hleft
    exact settles_callFor_of_deeper function args m hm fun m' hm' hdepth function args =>
      ih m'.depthLeft hdepth function args hm' rfl

/-- An evaluation and a call that begin with the switch set come to an end, whatever the script, the
function and the limit on the depth of calls are. They come back under the same limits, unless a host
function panics or waits at a gate that is not open. -/
theorem interrupted_ends (hm : m.Interrupted) :
    (∀ s ownScope, ∃ out enough, (∀ budget ≥ enough, eval budget s ownScope m = out) ∧
      (Returned out.1 ∧ m.SameLimits out.2 ∨ StoppedByHost out.1)) ∧
    ∀ function args, ∃ out enough, (∀ budget ≥ enough, callFor budget function args m = out) ∧
      (Returned out.1 ∧ m.SameLimits out.2 ∨ StoppedByHost out.1) := by
  have hcalls : CallsSettle callFor m := fun m' h function args =>
    settles_callFor function args (h.interrupted hm)
  refine ⟨fun s ownScope => ?_, fun function args => ?_⟩
  · obtain ⟨out, ⟨enough, henough⟩, hout⟩ := settles_evalWith hcalls hm s ownScope
    exact ⟨out, enough, henough, hout.imp_left fun h => ⟨h.1, h.2.1⟩⟩
  · obtain ⟨out, ⟨enough, henough⟩, hout⟩ := settles_callFor function args hm
    exact ⟨out, enough, henough, hout.imp_left fun h => ⟨h.1, h.2.1⟩⟩

/-- JUMP to itself. -/
def endlessLoop : Script Value := ⟨0, #[.of .jump 0], #[]⟩

/-- A machine whose switch is set. -/
def interruptedMachine : Machine :=
  ⟨.ofSettings ⟨defaultMaxCallDepth, false, 0⟩, { Store.empty with interrupts := #[true] }⟩

theorem interrupted_ends_endlessLoop :
    interruptedMachine.Interrupted ∧ ∃ out enough,
      (∀ budget ≥ enough, eval budget endlessLoop true interruptedMachine = out) ∧
        (Returned out.1 ∧ interruptedMachine.SameLimits out.2 ∨ StoppedByHost out.1) := by
  have hm : interruptedMachine.Interrupted := rfl
  exact ⟨hm, (interrupted_ends hm).1 endlessLoop true⟩

end ReactiveScript.Run
