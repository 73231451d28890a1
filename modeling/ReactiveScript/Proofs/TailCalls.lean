import ReactiveScript.Proofs.Returning
import ReactiveScript.Proofs.Unread

/-
  Tail calls and calls.

  A tail call closes the scope of its script before it continues with another one, and a call leaves
  that scope open. Variables are looked up when they are used, so the script that is called may see
  the difference (`tailCall_hides_variables`). Where it looks up nothing that it finds bound in that
  scope, unless the variable has the same value outside (`ScopeUnread`), a tail call whose result is
  returned at once comes to the same as a call in its place, whatever is called
  (`tailCall_iff_call`).
-/

namespace ReactiveScript.Run

variable {d : Depths} {marks inner : List (Nat × Nat)} {m n m₁ m₂ n₂ : Machine} {call : Caller}
  {s s' : Script Value} {base pos count k k' budget : Nat} {scope : Option Nat}
  {target : Script Value × Bindings} {r : Except Stop Value}

/-! ## Outcomes -/

/-- An evaluation comes to an outcome, if it has the budget. -/
def ComesTo (x : Nat → Run Value) (m : Machine) (r : Except Stop Value) : Prop :=
  r ≠ .error .exhausted ∧ ∃ budget, (x budget m).1 = r

/-- An evaluation hits the call depth limit or is interrupted. -/
def HitsLimit (x : Nat → Run Value) (m : Machine) : Prop := ∃ budget, Limited never (x budget m).1

/-- An outcome that is due neither to the budget nor to a limit. -/
structure Proper (r : Except Stop Value) : Prop where
  came : r ≠ .error .exhausted
  unlimited : ¬ Limited never r

/-- What settles on the left settles on the right, unless a limit is hit there. -/
theorem Meet.passes {out out' : Except Stop Value × Machine} (h : Meet d marks never out out')
    (hr : Proper out.1) : Limited never out'.1 ∨ out'.1 = out.1 := by
  cases h with
  | exhausted he => exact absurd he hr.came
  | left _ hl => exact absurd hl hr.unlimited
  | right _ hl => exact .inl hl
  | same he _ => exact .inr he

/-- What settles where calls are nested deeper settles the same where they are not. -/
theorem Meet.from_deeper {out out' : Except Stop Value × Machine}
    (h : Meet .leftDeeper marks never out out') (hr : Proper out.1) : out'.1 = out.1 := by
  cases h with
  | exhausted he => exact absurd he hr.came
  | left _ hl => exact absurd hl hr.unlimited
  | right hd _ => cases hd
  | same he _ => exact he

/-- Where calls are nested equally deep, the limits are hit in both or in neither. -/
theorem Meet.agrees {out out' : Except Stop Value × Machine}
    (h : Meet .equal marks never out out') (hr : out.1 ≠ .error .exhausted) :
    out'.1 = out.1 := by
  cases h with
  | exhausted he => exact absurd he hr
  | left hd _ => cases hd
  | right hd _ => cases hd
  | same he _ => exact he

/-- With a larger budget an evaluation comes to no other outcome. -/
theorem ComesTo.unique {x : Nat → Run Value} {r' : Except Stop Value}
    (hx : ∀ k k', k ≤ k' → Meet .equal marks never (x k m) (x k' m)) (h : ComesTo x m r)
    (h' : ComesTo x m r') : r = r' := by
  obtain ⟨hr, k, rfl⟩ := h
  obtain ⟨hr', k', rfl⟩ := h'
  rcases Nat.le_total k k' with hk | hk
  · exact ((hx k k' hk).agrees hr).symm
  · exact (hx k' k hk).agrees hr'

/-- What comes to another outcome hits no limit. -/
theorem ComesTo.not_hitsLimit {x : Nat → Run Value}
    (hx : ∀ k k', k ≤ k' → Meet .equal marks never (x k m) (x k' m)) (h : ComesTo x m r)
    (hl : ¬ Limited never r) : ¬ HitsLimit x m := by
  rintro ⟨k, hlim⟩
  have hcame : ComesTo x m (x k m).1 := ⟨fun he => by rw [he] at hlim; exact hlim, k, rfl⟩
  exact hl (h.unique hx hcame ▸ hlim)

/-! ## Running a script in a scope of its own -/

/-- A machine in a fresh scope with bindings, entered where the variables are those of `env`. -/
def entered (env : Environment) (bindings : Bindings) (m : Machine) : Machine :=
  { m with context := { m.context with env := env.enterScope.2.setAll bindings } }

/-- Run a script with its arguments in a scope entered where the variables are those of `env`. -/
def runIn (target : Script Value × Bindings) (env : Environment) (budget : Nat) : Run Value :=
  fun m => execute (callFor budget) budget target.1 (some env.hiddenCount)
    (entered env target.2 m)

/-- Run the target of a tail call, and what it tail-calls, on the frame of the caller. -/
def continueWith (call : Caller) (steps base chain : Nat) (target : Script Value × Bindings)
    (env : Environment) : Run Value := fun m =>
  (runChain call steps base chain target.1 (some env.hiddenCount) >>=
    fun ended => finish base ended.1 ended.2) (entered env target.2 m)

theorem runIn_eq (target : Script Value × Bindings) (env : Environment) (budget : Nat)
    (m : Machine) : runIn target env budget m =
      continueWith (callFor budget) budget m.context.stack.length budget target env m := rfl

theorem entered_twins (h : m.Twins d inner n) {e f : Environment} (he : e.Twins marks f)
    {bindings others : Bindings} (hsame : SameLast bindings others) :
    (entered e bindings m).Twins d ((e.hiddenCount, f.hiddenCount) :: marks) (entered f others n) :=
  ⟨h.store, h.stack, h.settings, h.depth, he.enterWith hsame⟩

/-- The target comes to the same with bindings that give each variable the same last value. -/
theorem continueWith_sameLast (h : m.Twins d inner n) {e f : Environment} (he : e.Twins marks f)
    (hk : k ≤ k') {chain chain' : Nat} (hchain : chain ≤ chain') (s : Script Value)
    {bindings others : Bindings} (hsame : SameLast bindings others) :
    Meet d marks never (continueWith (callFor k) k base chain (s, bindings) e m)
      (continueWith (callFor k') k' base chain' (s, others) f n) :=
  runChain_meets (callFor_alike hk) hk hchain s (.some _ _) (entered_twins h he hsame)

theorem continueWith_meets (h : m.Twins d inner n) {e f : Environment} (he : e.Twins marks f)
    (hk : k ≤ k') {chain chain' : Nat} (hchain : chain ≤ chain')
    (target : Script Value × Bindings) :
    Meet d marks never (continueWith (callFor k) k base chain target e m)
      (continueWith (callFor k') k' base chain' target f n) :=
  continueWith_sameLast h he hk hchain target.1 (.refl target.2)

theorem runIn_meets (h : m.Twins d inner n) {e f : Environment} (he : e.Twins marks f)
    (hk : k ≤ k') (target : Script Value × Bindings) :
    Meet d marks never (runIn target e k m) (runIn target f k' n) := by
  rw [runIn_eq, runIn_eq, h.stack]
  exact continueWith_meets h he hk hk target

/-- A machine in which calls are nested one deeper. -/
def deeper (m : Machine) : Machine :=
  { m with context := { m.context with callDepth := m.context.callDepth + 1 } }

theorem twins_deeper_right (h : Machine.Twins .equal marks m n) :
    Machine.Twins .rightDeeper marks m (deeper n) :=
  ⟨h.store, h.stack, h.settings, Nat.le_succ_of_le (Nat.le_of_eq h.depth), h.env⟩

theorem twins_deeper_left (h : Machine.Twins .equal marks m n) :
    Machine.Twins .leftDeeper marks (deeper m) n :=
  ⟨h.store, h.stack, h.settings, Nat.le_succ_of_le (Nat.le_of_eq (Eq.symm h.depth)), h.env⟩

/-- Calling a script runs it one deeper, in a scope of its own, if the depth of calls admits it. -/
theorem callScript_outcome {m : Machine}
    (hdepth : m.context.callDepth < m.context.settings.maxCallDepth) (budget : Nat)
    (target : Script Value × Bindings) :
    (callScript (callFor budget) budget target.1 target.2 m).1 =
      (runIn target m.context.env budget (deeper m)).1 := by
  have hbegin : beginCall m = (.ok (), deeper m) :=
    ((beginCall_cases m).resolve_left fun h => absurd hdepth (Nat.not_lt_of_le h.1)).2
  unfold callScript
  rw [run_bind_ok hbegin, run_bind_ok (run_enterScope _), run_bind_ok (run_bindAll _ _)]
  let body := execute (callFor budget) budget target.1 (some m.context.env.hiddenCount)
  show ((attempt body >>= _) (entered m.context.env target.2 (deeper m))).1 =
    (body (entered m.context.env target.2 (deeper m))).1
  rw [run_bind, run_attempt]
  generalize body _ = out
  rcases out with ⟨(e | _ | _ | _) | v, m'⟩ <;> rfl

/-- Calling a script hits the limit or runs it. -/
theorem callScript_runIn (budget : Nat) (target : Script Value × Bindings) (m : Machine) :
    Limited never (callScript (callFor budget) budget target.1 target.2 m).1 ∨
      (callScript (callFor budget) budget target.1 target.2 m).1 =
        (runIn target m.context.env budget (deeper m)).1 := by
  by_cases h : m.context.callDepth < m.context.settings.maxCallDepth
  · exact .inr (callScript_outcome h budget target)
  · have hfail := ((beginCall_cases m).resolve_right fun hbegin => h hbegin.1).2
    unfold callScript
    rw [run_bind_error hfail]
    exact .inl rfl

/-- Calling a function that a tail call continues with runs its script. -/
theorem callFor_target {function : Value} {bindings : Bindings}
    (h : tailScript? function bindings = some target) (budget : Nat) (m : Machine) :
    ∃ b, budget ≤ b ∧ (Limited never (callFor (budget + 2) function bindings m).1 ∨
      (callFor (budget + 2) function bindings m).1 =
        (runIn target m.context.env b (deeper m)).1) := by
  have hscript : ∀ (b : Nat) (s : Script Value) (args : Bindings),
      callFor (b + 1) (.script s) args = callScript (callFor b) b s args := fun _ _ _ => rfl
  have hclosure : ∀ (b : Nat) (id : Ident) (s : Script Value) (captured args : Bindings),
      callFor (b + 2) (.closure id (.script s) captured) args =
        callFor (b + 1) (.script s) (captured ++ args) := fun _ _ _ _ _ => rfl
  unfold tailScript? at h
  split at h
  · cases h
    rw [hscript]
    exact ⟨budget + 1, Nat.le_succ budget, callScript_runIn (budget + 1) (_, _) m⟩
  · cases h
    rw [hclosure, hscript]
    exact ⟨budget, Nat.le_refl budget, callScript_runIn budget (_, _) m⟩
  · cases h

/-! ## Leaving the frame -/

/-- The outcome of a script that does not leave its frame by a tail call. -/
theorem execute_of_done (hrun : (runFrom call s m.context.stack.length (budget + 1) 0 m).1 =
      r.map Exit.done) (scope : Option Nat) :
    (execute call (budget + 1) s scope m).1 = r := by
  rw [execute_eq, run_bind_ok (run_height m)]
  unfold runChain
  rw [bind_assoc, run_bind, run_attempt]
  rcases hx : runFrom call s m.context.stack.length (budget + 1) 0 m with ⟨out, m'⟩
  rw [hx] at hrun
  cases hrun
  rcases r with (e | _ | _ | _) | v
  · exact congrArg Prod.fst (run_finish m.context.stack.length (.error e) scope m')
  · rfl
  · rfl
  · rfl
  · exact congrArg Prod.fst (run_finish m.context.stack.length (.ok v) scope m')

theorem heedInterrupt_cases (m : Machine) :
    heedInterrupt m = (.error (.error .interrupted), m) ∨ heedInterrupt m = (.ok (), m) := by
  unfold heedInterrupt
  rw [run_bind_ok (run_context m), run_bind_ok (run_store _ m)]
  cases (Store.isInterrupted m.context.settings.interrupt m.store).1
  · exact .inr rfl
  · exact .inl rfl

/-- A script that leaves its frame by a tail call continues with the target. -/
theorem execute_of_tail (hrun : runFrom call s m.context.stack.length (budget + 1) 0 m =
      (.ok (.tail target.1 target.2), m₂)) (scope : Option Nat) :
    Limited never (execute call (budget + 1) s scope m).1 ∨
      execute call (budget + 1) s scope m =
        continueWith call (budget + 1) m.context.stack.length budget target
          (closeScope scope m₂.context.env) m₂ := by
  rw [execute_eq, run_bind_ok (run_height m)]
  have hchain : runChain call (budget + 1) m.context.stack.length (budget + 1) s scope =
    (attempt (runFrom call s m.context.stack.length (budget + 1) 0) >>= _) := rfl
  rw [hchain, bind_assoc, run_bind_ok (run_attempt_ok hrun)]
  dsimp only
  rw [bind_assoc]
  rcases heedInterrupt_cases m₂ with h | h
  · rw [run_bind_ok (run_attempt_error h)]
    exact .inl (limited_finish rfl _ scope m₂)
  · rw [run_bind_ok (run_attempt_ok h)]
    dsimp only
    rw [bind_assoc, run_bind_ok (run_switchScope scope target.2 m₂)]
    exact .inr rfl

/-- RET gives the operand of a frame that has no other. -/
theorem step_return (call : Caller) {j : Instruction} {v : Value} {rest : List Value}
    (hj : s.code[pos]? = some j) (hret : j.opcode = .ret) (hstack : m.context.stack = v :: rest)
    (hrest : rest.length = base) : step call s base pos m =
      (.ok (.leave (.done v)), { m with context := { m.context with stack := rest } }) := by
  obtain ⟨op, operand, hoperand⟩ := j
  cases hret
  have hpop : pop base pos m = (.ok v, { m with context := { m.context with stack := rest } }) := by
    unfold pop
    rw [run_bind_ok (run_operands m), hstack]
    simp only [if_pos (Nat.le_of_eq hrest.symm)]
    rfl
  have hframe : frameResult base pos m =
      (.ok v, { m with context := { m.context with stack := rest } }) := by
    unfold frameResult truncate
    rw [run_bind_ok hpop, run_bind_ok (run_change _ _)]
    dsimp only
    rw [hrest, Nat.sub_self]
    rfl
  unfold step
  rw [hj]
  exact run_bind_ok hframe

/-- A plain call pushes the value of the function or stops as the function does. -/
theorem stepPlainCall_cases (call : Caller) (s : Script Value) (pos next : Nat) (function : Value)
    (bindings : Bindings) (m : Machine) :
    (∃ v m', call function bindings m = (.ok v, m') ∧
      stepPlainCall call s pos next function bindings m = (.ok (.goto next), (push v m').2)) ∨
    ∃ stop, (call function bindings m).1 = .error stop ∧
      (stepPlainCall call s pos next function bindings m).1 = .error stop := by
  unfold stepPlainCall
  rw [run_bind, run_attempt]
  rcases call function bindings m with ⟨(e | _ | _ | _) | v, m'⟩
  · exact .inr ⟨.error e, rfl, rfl⟩
  · exact .inr ⟨_, rfl, rfl⟩
  · exact .inr ⟨_, rfl, rfl⟩
  · exact .inr ⟨_, rfl, rfl⟩
  · exact .inl ⟨v, m', rfl, rfl⟩

/-- A call whose result is returned at once comes to what the function does, or runs out of steps
before it returns. -/
theorem runFrom_call {j : Instruction} {parts : Value × Bindings} (h : CallsAt s pos count .call)
    (hj : s.code[pos + 1 + count]? = some j) (hret : j.opcode = .ret)
    (hparts : callParts s base pos count m = (.ok parts, m₂))
    (hbottom : m₂.context.stack.length = base)
    (hheight : ∀ v m₃, call parts.1 parts.2 m₂ = (.ok v, m₃) →
      m₃.context.stack.length = m₂.context.stack.length) (left : Nat) :
    (runFrom call s base (left + 1) pos m).1 = (call parts.1 parts.2 m₂).1.map Exit.done ∨
      left = 0 ∧ (runFrom call s base (left + 1) pos m).1 = .error .exhausted := by
  have hstep : step call s base pos m =
      stepPlainCall call s pos (pos + 1 + count) parts.1 parts.2 m₂ :=
    h.step_plain hparts fun h => nomatch h
  unfold runFrom
  rcases stepPlainCall_cases call s pos (pos + 1 + count) parts.1 parts.2 m₂ with
    ⟨v, m₃, hv, hpush⟩ | ⟨stop, hstop, hpush⟩
  · rw [run_bind_ok (hstep.trans hpush), hv]
    cases left with
    | zero => exact .inr ⟨rfl, rfl⟩
    | succ left =>
      have hreturn := step_return call (m := (push v m₃).2) hj hret rfl
        ((hheight v m₃ hv).trans hbottom)
      unfold runFrom
      dsimp only
      rw [run_bind_ok hreturn]
      exact .inl rfl
  · rcases hx : step call s base pos m with ⟨r, m₃⟩
    rw [← hstep, hx] at hpush
    cases hpush
    rw [run_bind_error hx, hstop]
    exact .inl rfl

/-! ## The scope of the calling script -/

/-- What the target of a tail call looks up, in a scope entered where the variables are those of the
machine. -/
def lookupsIn (target : Script Value × Bindings) (budget : Nat) (m : Machine) : List Lookup :=
  (Traced.execute (Traced.callFor budget) budget target.1 (some m.context.env.hiddenCount)).lookups
    (entered m.context.env target.2 m)

/-- What is looked up in `env`, or in scopes entered there, has the value that it has in `closed`, where
the current scope of `env` is closed: it is not found bound in that scope, or is bound to the same value
outside. Nor may it have been left bound too deep there, by a scope that was closed with the mark of
another. -/
structure Spared (env closed : Environment) (look : Lookup) : Prop where
  bounded : closed.BoundedAt look.var
  value : look.level = some env.level → closed.get? look.var = env.get? look.var

/-- If the script that makes a tail call has a scope, the target looks up nothing in it. -/
def Unread (scope : Option Nat) (target : Script Value × Bindings) (m : Machine) : Prop :=
  ∀ mark ∈ scope, ∀ budget, ∀ look ∈ lookupsIn target budget m,
    Spared m.context.env (m.context.env.leaveScope mark) look

/-- Wherever the script makes a tail call, its scope is not read in the call. -/
def ScopeUnread (s : Script Value) (pos : Nat) (scope : Option Nat) (m : Machine) : Prop :=
  ∀ budget k m₁ m₂ target bindings,
    Arrives (callFor budget) s m.context.stack.length k 0 m pos m₁ →
    step (callFor budget) s m.context.stack.length pos m₁ =
      (.ok (.leave (.tail target bindings)), m₂) →
    Unread scope (target, bindings) m₂

/-- Closing a scope changes only what is found bound in it. -/
theorem agreeBut_closed {outer env : Environment} (h : outer.Nested env) :
    env.AgreeBut (fun look => ¬ Spared env (env.leaveScope outer.hiddenCount) look) []
      (env.leaveScope outer.hiddenCount) := by
  obtain ⟨-, hslots, hdeeper⟩ := h.unwound
  have hretains := h.leaveScope
  refine .plain fun var => ?_
  by_cases hb : (env.leaveScope outer.hiddenCount).BoundedAt var
  · have houter := hretains.deeper var hb
    obtain ⟨hlevel, hidden, hh⟩ := h
    -- it was bound in the scope, or it has the slot that it had outside
    by_cases hmem : var ∈ Assoc.keys hidden
    · obtain ⟨v, hv⟩ := hh.bound var hmem
      refine .bounded (fun slot hslot => ?_) hb ?_
      · cases hv.symm.trans hslot
        exact Nat.le_refl _
      · by_cases hsame : (env.leaveScope outer.hiddenCount).get? var = env.get? var
        · exact .inr hsame
        · refine .inl fun hspared => hsame (hspared.value ?_)
          unfold Environment.lookup
          rw [hv]
          rfl
    · have hkept : env.slot? var = (env.leaveScope outer.hiddenCount).slot? var :=
        (hh.kept var hmem houter).trans (hslots var houter).symm
      refine .bounded (fun slot hslot => ?_) hb (.inr ?_)
      · have hle := hb slot (hkept ▸ hslot)
        rw [Environment.level_leaveScope] at hle
        omega
      · exact congrArg (Option.map Slot.value) hkept.symm
  · exact .excluded fun level hspared => hb hspared.bounded

/-- A scope that is not read does not show: the target comes to the same whether the scope of the script
that makes the tail call is closed or still open. -/
theorem runIn_unread (hnested : Closes (fun _ => True) scope m.context.env)
    (h : Unread scope target m) (budget : Nat) :
    (runIn target (closeScope scope m.context.env) budget m).1 =
      (runIn target m.context.env budget m).1 := by
  cases scope with
  | none => rfl
  | some mark =>
    obtain ⟨outer, -, rfl, hnested⟩ := hnested
    have hagree := (agreeBut_closed hnested).enterScope.setAll target.2
    have hmatched := Traced.inStep_execute (Traced.blind_callFor budget) budget target.1 (.some _ _)
      (entered m.context.env target.2 m) _ hagree fun look hlook hnot =>
        hnot (h _ rfl budget look hlook)
    rw [Traced.run_execute, Traced.run_execute, Traced.run_callFor] at hmatched
    exact hmatched.outcome

/-- Wherever the script makes a tail call, its scope does not show in the call. -/
def ScopeUnseen (s : Script Value) (pos : Nat) (scope : Option Nat) (m : Machine) : Prop :=
  ∀ budget k m₁ m₂ target bindings,
    Arrives (callFor budget) s m.context.stack.length k 0 m pos m₁ →
    step (callFor budget) s m.context.stack.length pos m₁ =
      (.ok (.leave (.tail target bindings)), m₂) →
    ∀ j, (runIn (target, bindings) (closeScope scope m₂.context.env) j m₂).1 =
      (runIn (target, bindings) m₂.context.env j m₂).1

/-- Up to a position a script changes only its frame and its scope. -/
theorem Arrives.extendsFrame {goal : Nat}
    (h : Arrives (callFor budget) s base k pos m goal m₁) : ExtendsFrame base m m₁ := by
  have hK := composes_extendsFrame base
  induction h with
  | here pos m => exact hK.of_retained (.refl m)
  | step hstep _ ih =>
    exact hK.trans ((step_extendsFrame (callFor_neutral budget)).of_ok hstep).1 ih

theorem ScopeUnread.unseen (hnested : Closes (fun _ => True) scope m.context.env)
    (h : ScopeUnread s pos scope m) : ScopeUnseen s pos scope m := by
  intro budget k m₁ m₂ target bindings harr hstep j
  have hlast := (step_extendsFrame (callFor_neutral budget)).of_ok hstep
  have hextends := harr.extendsFrame.env.trans hlast.1.env
  exact runIn_unread (hnested.extends ⟨fun _ _ => trivial, fun _ _ _ _ _ => trivial⟩ hextends)
    (h budget k m₁ m₂ target bindings harr hstep) j

/-! ## From one to the other -/

/-- With a script to continue with, the frame is empty and the function is that script. -/
theorem target?_eq_some {parts : Value × Bindings} (h : target? base parts m = some target) :
    m.context.stack.length = base ∧ tailScript? parts.1 parts.2 = some target := by
  unfold target? at h
  by_cases hbase : m.context.stack.length = base
  · simp only [hbase, beq_self_eq_true, if_true] at h
    exact ⟨hbase, h⟩
  · simp only [beq_eq_false_iff_ne.mpr hbase, Bool.false_eq_true, if_false] at h
    cases h

theorem execute_at_tail {taken left : Nat}
    (harr : Arrives call s m.context.stack.length taken 0 m pos m₁) (hk : budget = taken + left)
    (hstep : step call s m.context.stack.length pos m₁ =
      (.ok (.leave (.tail target.1 target.2)), m₂)) (scope : Option Nat) :
    Limited never (execute call (budget + 1) s scope m).1 ∨
      execute call (budget + 1) s scope m =
        continueWith call (budget + 1) m.context.stack.length budget target
          (closeScope scope m₂.context.env) m₂ := by
  refine execute_of_tail ?_ scope
  rw [hk, Nat.add_assoc, harr.runFrom]
  exact run_bind_ok hstep

/-- A script that comes to the call runs the target one deeper, where its own scope is open. -/
theorem execute_at_call {j : Instruction} {parts : Value × Bindings} {taken left : Nat}
    (harr : Arrives (callFor (budget + 2)) s m.context.stack.length taken 0 m pos m₁)
    (hk : budget + 1 = taken + left) (h : CallsAt s pos count .call)
    (hj : s.code[pos + 1 + count]? = some j) (hret : j.opcode = .ret)
    (hparts : callParts s m.context.stack.length pos count m₁ = (.ok parts, m₂))
    (htarget : target? m.context.stack.length parts m₂ = some target) (scope : Option Nat) :
    (∃ b, budget ≤ b ∧ (Limited never (execute (callFor (budget + 2)) (budget + 2) s scope m).1 ∨
      (execute (callFor (budget + 2)) (budget + 2) s scope m).1 =
        (runIn target m₂.context.env b (deeper m₂)).1)) ∨
      left = 0 ∧ (execute (callFor (budget + 2)) (budget + 2) s scope m).1 = .error .exhausted := by
  have hrun : runFrom (callFor (budget + 2)) s m.context.stack.length (budget + 1 + 1) 0 m =
      runFrom (callFor (budget + 2)) s m.context.stack.length (left + 1) pos m₁ := by
    rw [hk, Nat.add_assoc, harr.runFrom]
  obtain ⟨hbottom, hscript⟩ := target?_eq_some htarget
  rcases runFrom_call h hj hret hparts hbottom (fun _ _ => callFor_height hscript) left with
    hdone | ⟨hleft, hdone⟩
  · have he := execute_of_done (hrun ▸ hdone) scope
    rw [he]
    exact .inl (callFor_target hscript budget m₂)
  · exact .inr ⟨hleft, execute_of_done (r := .error .exhausted) (hrun ▸ hdone) scope⟩

theorem execute_of_runFrom (hopen : Opened [] scope scope inner)
    (h : Meet .equal inner never
      (runFrom (callFor (budget + 1)) s m.context.stack.length (budget + 1) 0 m)
      (runFrom (callFor (budget + 1)) s' m.context.stack.length (budget + 1) 0 m)) :
    Meet .equal [] never (execute (callFor (budget + 1)) (budget + 1) s scope m)
      (execute (callFor (budget + 1)) (budget + 1) s' scope m) := by
  rw [execute_eq, execute_eq, run_bind_ok (run_height m), run_bind_ok (run_height m)]
  exact chain_of_runFrom hopen h fun target _ _ _ _ _ hopen ht =>
    runChain_meets (callFor_alike (Nat.le_refl _)) (Nat.le_refl _) (Nat.le_refl _) target hopen ht

/-- With a larger budget the script comes to the call on a twin, with the same operands. -/
theorem arrives_again {parts : Value × Bindings} {taken : Nat} (hk : k ≤ k')
    (ht : m.Twins .equal inner m) (harr : Arrives (callFor k) s base taken 0 m pos m₁)
    (hparts : callParts s base pos count m₁ = (.ok parts, m₂)) :
    ∃ n₁ n₂, Arrives (callFor k') s base taken 0 m pos n₁ ∧
      callParts s base pos count n₁ = (.ok parts, n₂) ∧ m₂.Twins .equal inner n₂ := by
  obtain ⟨n₁, harr', ht₁⟩ := harr.twins (callFor_alike hk inner) ht
  obtain ⟨n₂, hparts', ht₂⟩ :=
    (alike_callParts .equal (.refl s) base pos count m₁ n₁ ht₁).of_ok hparts
  exact ⟨n₁, n₂, harr', hparts', ht₂⟩

section Directions

variable (hsw : Swapped pos count .tailCall .call s s') {j : Instruction}
  (hj : s.code[pos + 1 + count]? = some j) (hret : j.opcode = .ret)
  (hopen : Opened [] scope scope inner) (ht : m.Twins .equal inner m)
  (hscope : ScopeUnseen s pos scope m)

include hsw hj hret hopen ht hscope

/-- What the script with the tail call comes to, the one with the call comes to. -/
theorem call_follows (hr : Proper (execute (callFor budget) budget s scope m).1) :
    ∃ b, Limited never (execute (callFor b) b s' scope m).1 ∨
      (execute (callFor b) b s' scope m).1 = (execute (callFor budget) budget s scope m).1 := by
  obtain _ | budget := budget
  · exact absurd rfl hr.came
  have halike := fun marks => callFor_alike (d := .equal) (Nat.le_refl (budget + 1)) marks
  rcases swapped_inStep hsw (halike inner) (budget + 1) 0 ht with
    hmeet | ⟨taken, left, m₁, n₁, parts, target, m₂, n₂, hk, harr, harr', hat⟩
  · exact ⟨budget + 1, (execute_of_runFrom hopen hmeet).passes hr⟩
  · obtain ⟨hbottom, -⟩ := target?_eq_some hat.target
    have hstep := hsw.here.step_leaves (callFor (budget + 1)) hat.takes hat.target
    -- the target runs where the scope is closed, and comes to the same where it is open
    have htail : (runIn target (closeScope scope m₂.context.env) (budget + 1) m₂).1 =
        (execute (callFor (budget + 1)) (budget + 1) s scope m).1 := by
      rcases execute_at_tail harr (show budget = taken + left by omega) hstep scope with hl | he
      · exact absurd hl hr.unlimited
      · rw [he] at hr ⊢
        rw [runIn_eq, hbottom]
        exact (continueWith_meets (twins_refl m₂ .equal) (.refl _) (Nat.le_refl _)
          (Nat.le_succ budget) target).agrees hr.came
    generalize hout : (execute (callFor (budget + 1)) (budget + 1) s scope m).1 = r at hr htail ⊢
    have hb := (hscope _ _ _ _ _ _ harr hstep (budget + 1)).symm.trans htail
    -- the call runs it too
    obtain ⟨p₁, p₂, hp₁, hp₂, ht₂⟩ := arrives_again (show budget + 1 ≤ budget + 3 by omega) ht harr'
      hat.takes'
    have hreturns : s'.code[pos + 1 + count]? = some j :=
      (hsw.elsewhere _ (by omega)).trans hj
    have htarget₂ := (target?_twins ht₂).trans ((target?_twins hat.twins).trans hat.target)
    refine ⟨budget + 3, ?_⟩
    rcases execute_at_call hp₁ (show budget + 2 = taken + (left + 2) by omega) hsw.here' hreturns
      hret hp₂ htarget₂ scope with ⟨b, hbudget, hl | hrun⟩ | ⟨hleft, -⟩
    · exact .inl hl
    · have hmiddle : (runIn target n₂.context.env b n₂).1 = r :=
        ((runIn_meets hat.twins hat.twins.env (show budget + 1 ≤ b by omega) target).agrees
          (hb.symm ▸ hr.came)).trans hb
      rw [hrun, ← hmiddle]
      exact (runIn_meets (twins_deeper_right ht₂) ht₂.env (Nat.le_refl b) target).passes
        (hmiddle.symm ▸ hr)
    · omega

/-- What the script with the call comes to, the one with the tail call comes to. -/
theorem tailCall_follows (hr : Proper (execute (callFor budget) budget s' scope m).1) :
    ∃ b, Limited never (execute (callFor b) b s scope m).1 ∨
      (execute (callFor b) b s scope m).1 = (execute (callFor budget) budget s' scope m).1 := by
  generalize hout : (execute (callFor budget) budget s' scope m).1 = r at hr ⊢
  -- two steps more let a call of the target begin and return
  have hmore : (execute (callFor (budget + 2)) (budget + 2) s' scope m).1 = r :=
    ((execute_alike (callFor_alike (Nat.le_add_right budget 2)) (Nat.le_add_right budget 2) s'
      hopen ht).agrees (hout.symm ▸ hr.came)).trans hout
  have halike := fun marks => callFor_alike (d := .equal) (Nat.le_refl (budget + 2)) marks
  rcases swapped_inStep hsw.symm (halike inner) (budget + 2) 0 ht with
    hmeet | ⟨taken, left, m₁, n₁, parts, target, m₂, n₂, hk, harr, harr', hat⟩
  · have hpass := (execute_of_runFrom hopen hmeet).passes (hmore.symm ▸ hr)
    rw [hmore] at hpass
    exact ⟨budget + 2, hpass⟩
  · have htarget' := (target?_twins hat.twins).trans hat.target
    obtain ⟨hbottom, -⟩ := target?_eq_some htarget'
    have hstep := hsw.here.step_leaves (callFor (budget + 2)) hat.takes' htarget'
    have hreturns : s'.code[pos + 1 + count]? = some j :=
      (hsw.elsewhere _ (by omega)).trans hj
    -- the call runs the target where the scope is open, and it comes to the same where it is closed
    have hrun : ∃ b, (runIn target n₂.context.env b n₂).1 = r := by
      rcases execute_at_call harr (show budget + 1 = taken + left by omega) hsw.here' hreturns
        hret hat.takes hat.target scope with ⟨b, -, hl | hrun⟩ | ⟨-, he⟩
      · exact absurd hl (hmore.symm ▸ hr.unlimited)
      · have hdeep := hrun.symm.trans hmore
        exact ⟨b, ((runIn_meets (twins_deeper_left hat.twins) hat.twins.env (Nat.le_refl b)
          target).from_deeper (hdeep.symm ▸ hr)).trans hdeep⟩
      · exact absurd (hmore.symm.trans he) hr.came
    obtain ⟨b, hb⟩ := hrun
    replace hb := (hscope _ _ _ _ _ _ harr' hstep b).trans hb
    -- the tail call runs it too, on a budget that is large enough for both
    generalize hc : max (budget + 2) b = c
    obtain ⟨p₁, p₂, hp₁, hp₂, ht₂⟩ := arrives_again (show budget + 2 ≤ c + 1 by omega) ht harr'
      hat.takes'
    have hleaves := hsw.here.step_leaves (callFor (c + 1)) hp₂
      ((target?_twins ht₂).trans htarget')
    refine ⟨c + 1, ?_⟩
    rcases execute_at_tail hp₁ (show c = taken + (c - taken) by omega) hleaves scope with hl | he
    · exact .inl hl
    · rw [runIn_eq, hbottom] at hb
      rw [he, ← hb]
      exact (continueWith_meets ht₂ (hopen.closed ht₂.env) (show b ≤ c + 1 by omega)
        (show b ≤ c by omega) target).passes (hb.symm ▸ hr)

end Directions

/-! ## Evaluations -/

theorem eval_meets (s : Script Value) (own : Bool) (m : Machine) (k k' : Nat) (hk : k ≤ k') :
    Meet .equal [] never (eval k s own m) (eval k' s own m) :=
  eval_alike hk s own m m (twins_refl m .equal)

/-- The scope in which an evaluation runs its script. -/
def scopeOf (own : Bool) (m : Machine) : Option Nat :=
  if own then some m.context.env.hiddenCount else none

/-- The machine on which an evaluation runs its script. -/
def started (own : Bool) (m : Machine) : Machine :=
  { m with context := { m.context with
    env := if own then m.context.env.enterScope.2 else m.context.env
    backtrace := if m.context.callDepth = 0 then [] else m.context.backtrace } }

theorem opened_started (own : Bool) (m : Machine) :
    ∃ inner, Opened [] (scopeOf own m) (scopeOf own m) inner ∧
      (started own m).Twins .equal inner (started own m) := by
  have htwins := Environment.Twins.refl m.context.env
  cases own with
  | false => exact ⟨_, .none, rfl, rfl, rfl, rfl, htwins⟩
  | true => exact ⟨_, .some _ _, rfl, rfl, rfl, rfl, htwins.enterScope⟩

/-- An evaluation comes to what its script does and raises a delayed error. -/
theorem eval_outcome (budget : Nat) (s : Script Value) (own : Bool) (m : Machine) :
    (eval budget s own m).1 =
      (execute (callFor budget) budget s (scopeOf own m) (started own m)).1 >>= fun v =>
        v.force.mapError .error := by
  have hforce : ∀ m' : Machine, ((execute (callFor budget) budget s (scopeOf own m) >>= fun v =>
      ofExcept v.force) m').1 =
        (execute (callFor budget) budget s (scopeOf own m) m').1 >>= fun v =>
          v.force.mapError .error := fun m' => by
    rw [run_bind]
    rcases execute (callFor budget) budget s (scopeOf own m) m' with ⟨stop | v, m₁⟩
    · rfl
    · show (ofExcept v.force m₁).1 = v.force.mapError .error
      cases v.force <;> rfl
  rw [← hforce]
  unfold eval evalWith started
  rw [run_bind_ok (run_context m)]
  by_cases h0 : m.context.callDepth = 0 <;> cases own
  · simp only [if_pos h0]
    rfl
  · simp only [if_pos h0]
    rfl
  · simp only [if_neg h0]
    rfl
  · simp only [if_neg h0]
    rfl

theorem Proper.of_bind {f : Value → Except Stop Value} (h : Proper (r >>= f)) : Proper r := by
  rcases r with stop | v
  · exact h
  · exact ⟨(fun he => nomatch he), id⟩

theorem limited_bind (h : Limited never r) (f : Value → Except Stop Value) :
    Limited never (r >>= f) := by
  rcases r with stop | v
  · exact h
  · exact h.elim

/-- Where runs of one script follow those of another, evaluations do. -/
theorem eval_follows {own : Bool}
    (h : Proper (execute (callFor budget) budget s (scopeOf own m) (started own m)).1 →
      ∃ b, Limited never (execute (callFor b) b s' (scopeOf own m) (started own m)).1 ∨
        (execute (callFor b) b s' (scopeOf own m) (started own m)).1 =
          (execute (callFor budget) budget s (scopeOf own m) (started own m)).1)
    (hr : Proper (eval budget s own m).1)
    (hl : ¬ HitsLimit (fun budget => eval budget s' own) m) :
    ∃ b, (eval b s' own m).1 = (eval budget s own m).1 := by
  rw [eval_outcome] at hr
  obtain ⟨b, hlim | he⟩ := h hr.of_bind
  · refine absurd ⟨b, ?_⟩ hl
    dsimp only
    rw [eval_outcome]
    exact limited_bind hlim _
  · exact ⟨b, by rw [eval_outcome, he, eval_outcome]⟩

/-- The script with a CALL in place of the TAILCALL at a position. -/
def callInstead (s : Script Value) (id : Ident) (pos : Nat) : Script Value :=
  { s with id, code := s.code.modify pos fun i => { i with opcode := .call } }

theorem swapped_callInstead {i : Instruction} (hi : s.code[pos]? = some i)
    (htail : i.opcode = .tailCall) (id : Ident) :
    Swapped pos i.operand .tailCall .call s (callInstead s id pos) := by
  obtain ⟨op, operand, hoperand⟩ := i
  cases htail
  have hcode : ∀ p, (callInstead s id pos).code[p]? =
      if pos = p then s.code[p]?.map fun i => { i with opcode := .call } else s.code[p]? :=
    fun p => Array.getElem?_modify
  have hthere : (callInstead s id pos).code[pos]? = some ⟨.call, operand, hoperand⟩ := by
    rw [hcode, if_pos rfl, hi]
    rfl
  have helsewhere : ∀ p, p ≠ pos → (callInstead s id pos).code[p]? = s.code[p]? := fun p hp => by
    rw [hcode, if_neg (Ne.symm hp)]
  refine ⟨⟨rfl, Array.size_modify, fun p k => ?_⟩, helsewhere, .tailCall hoperand hi,
    .call hoperand hthere⟩
  induction k generalizing p with
  | zero => rfl
  | succ k ih =>
    unfold Script.params
    rw [ih]
    by_cases hp : p = pos
    · -- neither instruction names an argument
      rw [hp, hthere, hi]
      rfl
    · rw [helsewhere p hp]

theorem closes_started (own : Bool) (m : Machine) :
    Closes (fun _ => True) (scopeOf own m) (started own m).context.env := by
  cases own with
  | false => trivial
  | true => exact ⟨_, trivial, rfl, Environment.nested_enterScope _⟩

/-- A tail call whose result is returned at once and a call in its place come to the same, unless
one of them hits a limit, if the scope of the script is not read in the call. The functions may be any,
host functions among them: none of their actions tells how deep calls are nested. -/
theorem tailCall_iff_call {i j : Instruction} (hi : s.code[pos]? = some i)
    (htail : i.opcode = .tailCall) (hj : s.code[pos + 1 + i.operand]? = some j)
    (hret : j.opcode = .ret) (own : Bool) (id : Ident)
    (hscope : ScopeUnread s pos (scopeOf own m) (started own m))
    (hl : ¬ HitsLimit (fun budget => eval budget s own) m)
    (hl' : ¬ HitsLimit (fun budget => eval budget (callInstead s id pos) own) m)
    (r : Except Stop Value) :
    ComesTo (fun budget => eval budget s own) m r ↔
      ComesTo (fun budget => eval budget (callInstead s id pos) own) m r := by
  have hsw := swapped_callInstead hi htail id
  obtain ⟨inner, hopen, ht⟩ := opened_started own m
  have hunseen := hscope.unseen (closes_started own m)
  constructor
  · rintro ⟨hr, budget, rfl⟩
    exact ⟨hr, eval_follows (call_follows hsw hj hret hopen ht hunseen)
      ⟨hr, fun h => hl ⟨budget, h⟩⟩ hl'⟩
  · rintro ⟨hr, budget, rfl⟩
    exact ⟨hr, eval_follows (tailCall_follows hsw hj hret hopen ht hunseen)
      ⟨hr, fun h => hl' ⟨budget, h⟩⟩ hl⟩

/-! ## A script that binds a variable and makes a tail call -/

/-- A script that binds the first variable to true and makes a tail call. -/
def bindsAndCalls (function : Value) : Script Value :=
  ⟨0, #[.of .pushConst 0, .of .setVar 0, .of .pop 0, .of .pushConst 1, .of .tailCall 0, .of .ret 0],
    #[.bool true, function]⟩

/-- A script that returns the first variable. -/
def readsFirst : Script Value := ⟨1, #[.of .getVar 0, .of .ret 0], #[]⟩

/-- A closure that returns what it has captured for the first variable. -/
def givesCaptured : Value := .closure 2 (.script readsFirst) [(⟨0⟩, .bool false)]

/-- A tail call hides the variables of its script from the script that it calls, a call does not. -/
theorem tailCall_hides_variables : ¬ ∀ (s : Script Value) (pos : Nat) (i j : Instruction)
    (own : Bool) (id : Ident) (m : Machine), s.code[pos]? = some i → i.opcode = .tailCall →
    s.code[pos + 1 + i.operand]? = some j → j.opcode = .ret →
    ¬ HitsLimit (fun budget => eval budget s own) m →
    ¬ HitsLimit (fun budget => eval budget (callInstead s id pos) own) m →
    ∀ r, ComesTo (fun budget => eval budget s own) m r ↔
      ComesTo (fun budget => eval budget (callInstead s id pos) own) m r := by
  intro h
  have htail : ComesTo (fun budget => eval budget (bindsAndCalls (.script readsFirst)) true)
      newMachine (.error (.error (.unboundVariable "#0"))) := ⟨nofun, 9, by decide +kernel⟩
  have hcall : ComesTo
      (fun budget => eval budget (callInstead (bindsAndCalls (.script readsFirst)) 3 4) true)
      newMachine (.ok (.bool true)) := ⟨nofun, 9, by decide +kernel⟩
  have hsame := h (bindsAndCalls (.script readsFirst)) 4 _ _ true 3 newMachine rfl rfl rfl rfl
    (htail.not_hitsLimit (eval_meets _ true _) nofun)
    (hcall.not_hitsLimit (eval_meets _ true _) nofun) (.ok (.bool true))
  exact nomatch (hsame.mpr hcall).unique (eval_meets _ true _) htail

/-- The machine on which the tail call leaves for its target. -/
def boundMachine : Machine := entered .empty [(⟨0⟩, .bool true)] newMachine

theorem bindsAndCalls_arrives (budget : Nat) (function : Value) :
    Arrives (callFor budget) (bindsAndCalls function) 0 4 0 (started true newMachine) 4
      (push function boundMachine).2 :=
  .step rfl (.step rfl (.step rfl (.step rfl (.here 4 _))))

theorem lookupsIn_readsFirst (budget : Nat) :
    ∀ look ∈ lookupsIn (readsFirst, [(⟨0⟩, .bool false)]) budget boundMachine,
      look = ⟨⟨0⟩, some 2⟩ := by
  intro look hlook
  rcases budget with _ | _ | budget
  · cases hlook
  · exact List.mem_singleton.mp hlook
  · exact List.mem_singleton.mp hlook

theorem bindsAndCalls_unread : ScopeUnread (bindsAndCalls givesCaptured) 4
    (scopeOf true newMachine) (started true newMachine) := by
  intro budget k m₁ m₂ target bindings harr hstep
  have hleaves : step (callFor budget) (bindsAndCalls givesCaptured) 0 4
      (push givesCaptured boundMachine).2 =
        (.ok (.leave (.tail readsFirst [(⟨0⟩, .bool false)])), boundMachine) := rfl
  cases harr.unique (bindsAndCalls_arrives budget givesCaptured) hstep hleaves
  cases hleaves.symm.trans hstep
  intro mark hmark budget look hlook
  cases hmark
  cases lookupsIn_readsFirst budget look hlook
  -- it is found where the closure has bound it
  exact ⟨nofun, nofun⟩

theorem tailCall_iff_call_unread :
    ScopeUnread (bindsAndCalls givesCaptured) 4 (scopeOf true newMachine)
      (started true newMachine) ∧
    ¬ HitsLimit (fun budget => eval budget (bindsAndCalls givesCaptured) true) newMachine ∧
    ¬ HitsLimit (fun budget => eval budget (callInstead (bindsAndCalls givesCaptured) 3 4) true)
      newMachine ∧
    ComesTo (fun budget => eval budget (bindsAndCalls givesCaptured) true) newMachine
      (.ok (.bool false)) ∧
    ComesTo (fun budget => eval budget (callInstead (bindsAndCalls givesCaptured) 3 4) true)
      newMachine (.ok (.bool false)) := by
  have htail : ComesTo (fun budget => eval budget (bindsAndCalls givesCaptured) true) newMachine
      (.ok (.bool false)) := ⟨nofun, 9, by decide +kernel⟩
  have hl := htail.not_hitsLimit (eval_meets _ true _) nofun
  have hl' : ¬ HitsLimit
      (fun budget => eval budget (callInstead (bindsAndCalls givesCaptured) 3 4) true)
      newMachine :=
    ComesTo.not_hitsLimit (r := .ok (.bool false)) (eval_meets _ true _)
      ⟨nofun, 9, by decide +kernel⟩ nofun
  exact ⟨bindsAndCalls_unread, hl, hl', htail,
    (tailCall_iff_call rfl rfl rfl rfl true 3 bindsAndCalls_unread hl hl' _).mp htail⟩

end ReactiveScript.Run
