import ReactiveScript.Proofs.TwinRun

/-
  Scripts that differ in one call.

  CALL and TAILCALL take the same operands and then do the same, unless the frame is empty and the
  function is a script (`target?`). So two scripts of which one has a CALL where the other has a
  TAILCALL run in step until they come there with such a function (`swapped_inStep`). `Arrives` says
  that a run comes to a position, with the number of its steps; with a larger budget for the calls on
  its way it takes the same steps (`Arrives.twins`).
-/

namespace ReactiveScript.Run

variable {α β : Type} {marks : List (Nat × Nat)} {m m₁ m₂ n : Machine} {call call' : Caller}
  {s s' : Script Value} {base pos count k : Nat}

/-! ## Arriving at a position -/

/-- A run of a script comes from a position to another in a number of steps. -/
inductive Arrives (call : Caller) (s : Script Value) (base : Nat) :
    Nat → Nat → Machine → Nat → Machine → Prop
  | here (pos : Nat) (m : Machine) : Arrives call s base 0 pos m pos m
  | step {k pos next goal : Nat} {m m₁ m₂ : Machine} :
    step call s base pos m = (.ok (.goto next), m₁) → Arrives call s base k next m₁ goal m₂ →
    Arrives call s base (k + 1) pos m goal m₂

/-- The steps up to a position can be left out of a run. -/
theorem Arrives.runFrom {goal : Nat} (h : Arrives call s base k pos m goal m₁) (j : Nat) :
    runFrom call s base (k + j) pos m = runFrom call s base j goal m₁ := by
  induction h with
  | here pos m => rw [Nat.zero_add]
  | step hstep _ ih =>
    rw [Nat.succ_add, ← ih]
    exact run_bind_ok hstep

/-- A run arrives only once where it leaves its frame. -/
theorem Arrives.unique {goal k' : Nat} {exit exit' : Exit} {n₁ n₂ : Machine}
    (h : Arrives call s base k pos m goal m₁) (h' : Arrives call s base k' pos m goal m₂)
    (hleaves : Run.step call s base goal m₁ = (.ok (.leave exit), n₁))
    (hleaves' : Run.step call s base goal m₂ = (.ok (.leave exit'), n₂)) : m₁ = m₂ := by
  induction h generalizing k' with
  | here pos m =>
    cases h' with
    | here => rfl
    | step hs _ => cases hs.symm.trans hleaves
  | step hs _ ih =>
    cases h' with
    | here => cases hs.symm.trans hleaves'
    | step hs' h' =>
      cases hs.symm.trans hs'
      exact ih h' hleaves hleaves'

/-- What comes to a value comes to the same value on a twin. -/
theorem Meet.of_ok {carries : α → Prop} {x y : Run α} {a : α}
    (h : Meet .equal marks carries (x m) (y n)) (hx : x m = (.ok a, m₁)) :
    ∃ n₁, y n = (.ok a, n₁) ∧ m₁.Twins .equal marks n₁ := by
  rw [hx] at h
  rcases hy : y n with ⟨r, n₁⟩
  rw [hy] at h
  cases h with
  | exhausted he => cases he
  | left hd _ => cases hd
  | right hd _ => cases hd
  | same he ht =>
    cases he
    exact ⟨n₁, rfl, ht trivial⟩

/-- What stops also stops on a twin, whatever would have followed. -/
theorem Meet.stopped {carries : α → Prop} {carries' : β → Prop} {x y : Run α} {f g : α → Run β}
    {stop : Stop} (h : Meet .equal marks carries (x m) (y n)) (hx : x m = (.error stop, m₁)) :
    Meet .equal marks carries' ((x >>= f) m) ((y >>= g) n) := by
  rw [hx] at h
  rcases hy : y n with ⟨r, n₁⟩
  rw [hy] at h
  rw [run_bind_error hx]
  cases h with
  | exhausted he => exact .exhausted (congrArg _ (Except.error.inj he))
  | left hd _ => cases hd
  | right hd _ => cases hd
  | same he ht =>
    cases he
    rw [run_bind_error hy]
    cases stop with
    | error e => exact .same rfl fun _ => ht trivial
    | panic _ => exact .same rfl fun hr => hr.elim
    | held _ => exact .same rfl fun hr => hr.elim
    | exhausted => exact .exhausted rfl

/-- On a twin a run arrives after the same number of steps. -/
theorem Arrives.twins {goal : Nat}
    (hcall : ∀ f args, Alike .equal marks never (call f args) (call' f args))
    (h : Arrives call s base k pos m goal m₁) (ht : m.Twins .equal marks n) :
    ∃ n₁, Arrives call' s base k pos n goal n₁ ∧ m₁.Twins .equal marks n₁ := by
  induction h generalizing n with
  | here pos m => exact ⟨n, .here pos n, ht⟩
  | step hstep _ ih =>
    obtain ⟨n', hstep', ht'⟩ := (step_alike (.refl s) hcall rfl _ n ht).of_ok hstep
    obtain ⟨n₁, harrives, ht₁⟩ := ih ht'
    exact ⟨n₁, .step hstep' harrives, ht₁⟩

/-! ## Calls and tail calls -/

/-- Take the function and the arguments of a call from the frame. -/
def callParts (s : Script Value) (base pos count : Nat) : Run (Value × Bindings) := do
  let params ← ofExcept (s.params (pos + 1) count)
  let args ← popMany base pos count
  let function ← pop base pos
  return (function, params.zip args)

/-- The script that a tail call continues with, if it leaves the frame. -/
def target? (base : Nat) (parts : Value × Bindings) (m : Machine) :
    Option (Script Value × Bindings) :=
  if m.context.stack.length == base then tailScript? parts.1 parts.2 else none

theorem stepCall_call (call : Caller) (s : Script Value) (base pos count : Nat) :
    stepCall call s base pos count .call = (do
      let parts ← callParts s base pos count
      stepPlainCall call s pos (pos + 1 + count) parts.1 parts.2) := by
  unfold stepCall callParts
  simp only [bind_assoc, pure_bind]
  rfl

theorem stepCall_tailCall (call : Caller) (s : Script Value) (base pos count : Nat) :
    stepCall call s base pos count .tailCall = (do
      let parts ← callParts s base pos count
      let height ← height
      match if height == base then tailScript? parts.1 parts.2 else none with
      | some (script, bindings) => return .leave (.tail script bindings)
      | none => stepPlainCall call s pos (pos + 1 + count) parts.1 parts.2) := by
  unfold stepCall callParts
  simp only [bind_assoc, pure_bind]
  rfl

theorem alike_callParts (d : Depths) (hs : Script.SameFrame s s') (base pos count : Nat) :
    Alike d marks never (callParts s base pos count) (callParts s' base pos count) := by
  unfold callParts
  rw [hs.params]
  exact (alike_ofExcept _).bind fun _ => (alike_popMany _ _ _).bind fun _ =>
    (alike_pop _ _).bind fun _ => alike_pure _

/-- A call or a tail call stands at a position. -/
inductive CallsAt (s : Script Value) (pos count : Nat) : Opcode → Prop
  | call (h : count < operandBound) : s.code[pos]? = some ⟨.call, count, h⟩ →
    CallsAt s pos count .call
  | tailCall (h : count < operandBound) : s.code[pos]? = some ⟨.tailCall, count, h⟩ →
    CallsAt s pos count .tailCall

variable {op op' : Opcode} {parts : Value × Bindings}

theorem CallsAt.step (h : CallsAt s pos count op) :
    step call s base pos = stepCall call s base pos count op := by
  unfold Run.step
  cases h with
  | call _ h => rw [h]; rfl
  | tailCall _ h => rw [h]; rfl

theorem CallsAt.step_bind (call : Caller) (h : CallsAt s pos count op) (base : Nat) :
    ∃ f, Run.step call s base pos = callParts s base pos count >>= f := by
  rw [h.step]
  cases h with
  | call => exact ⟨_, stepCall_call ..⟩
  | tailCall => exact ⟨_, stepCall_tailCall ..⟩

/-- A call that stays on its frame is a plain call. -/
theorem CallsAt.step_plain (h : CallsAt s pos count op)
    (hparts : callParts s base pos count m = (.ok parts, m₁))
    (hstays : op = .tailCall → target? base parts m₁ = none) :
    Run.step call s base pos m =
      stepPlainCall call s pos (pos + 1 + count) parts.1 parts.2 m₁ := by
  rw [h.step]
  cases h with
  | call => rw [stepCall_call, run_bind_ok hparts]
  | tailCall =>
    have htarget := hstays rfl
    unfold target? at htarget
    rw [stepCall_tailCall, run_bind_ok hparts, run_bind_ok (run_height m₁), htarget]

/-- A tail call leaves the frame for its target. -/
theorem CallsAt.step_leaves (call : Caller) {target : Script Value × Bindings}
    (h : CallsAt s pos count .tailCall)
    (hparts : callParts s base pos count m = (.ok parts, m₁))
    (htarget : target? base parts m₁ = some target) :
    Run.step call s base pos m = (.ok (.leave (.tail target.1 target.2)), m₁) := by
  unfold target? at htarget
  rw [h.step, stepCall_tailCall, run_bind_ok hparts, run_bind_ok (run_height m₁), htarget]
  rfl

/-! ## In step -/

/-- Two scripts that are the same but for a position, at which both have a call or a tail call. -/
structure Swapped (pos count : Nat) (op op' : Opcode) (s s' : Script Value) : Prop
    extends Script.SameFrame s s' where
  elsewhere : ∀ p, p ≠ pos → s'.code[p]? = s.code[p]?
  here : CallsAt s pos count op
  here' : CallsAt s' pos count op'

theorem Swapped.symm (h : Swapped pos count op op' s s') : Swapped pos count op' op s' s where
  constants := h.constants.symm
  length := h.length.symm
  params p k := (h.params p k).symm
  elsewhere p hp := (h.elsewhere p hp).symm
  here := h.here'
  here' := h.here

/-- Both scripts are at the call, and there is a script to continue with. `m₂` and `n₂` are the
machines after the operands of the call were taken. -/
structure AtTarget (s s' : Script Value) (base pos count : Nat) (marks : List (Nat × Nat))
    (m n : Machine) (parts : Value × Bindings) (target : Script Value × Bindings)
    (m₂ n₂ : Machine) : Prop where
  takes : callParts s base pos count m = (.ok parts, m₂)
  takes' : callParts s' base pos count n = (.ok parts, n₂)
  twins : m₂.Twins .equal marks n₂
  target : target? base parts m₂ = some target

theorem target?_twins (h : m.Twins .equal marks n) :
    target? base parts n = target? base parts m := by
  unfold target?
  rw [h.stack]

/-- At the call the scripts do the same, unless there is a script to continue with. -/
theorem Swapped.step_meets (h : Swapped pos count op op' s s')
    (hcall : ∀ f args, Alike .equal marks never (call f args) (call f args))
    (ht : m.Twins .equal marks n) :
    Meet .equal marks never (step call s base pos m) (step call s' base pos n) ∨
      ∃ parts target m₂ n₂, AtTarget s s' base pos count marks m n parts target m₂ n₂ := by
  have hparts := alike_callParts .equal h.toSameFrame base pos count m n ht
  rcases hm : callParts s base pos count m with ⟨stop | parts, m₂⟩
  · obtain ⟨f, hf⟩ := h.here.step_bind call base
    obtain ⟨g, hg⟩ := h.here'.step_bind call base
    rw [hf, hg]
    exact .inl (hparts.stopped hm)
  · obtain ⟨n₂, hn, ht₂⟩ := hparts.of_ok hm
    cases htarget : target? base parts m₂ with
    | some target => exact .inr ⟨parts, target, m₂, n₂, hm, hn, ht₂, htarget⟩
    | none =>
      have htarget' : target? base parts n₂ = none := (target?_twins ht₂).trans htarget
      rw [h.here.step_plain hm fun _ => htarget, h.here'.step_plain hn fun _ => htarget']
      exact .inl (alike_stepPlainCall hcall _ _ _ m₂ n₂ ht₂)

/-- The scripts come to the same, or both to the call with a script to continue with. -/
theorem swapped_inStep (h : Swapped pos count op op' s s')
    (hcall : ∀ f args, Alike .equal marks never (call f args) (call f args)) (k start : Nat)
    (ht : m.Twins .equal marks n) :
    Meet .equal marks never (runFrom call s base k start m) (runFrom call s' base k start n) ∨
      ∃ taken left m₁ n₁ parts target m₂ n₂, k = taken + (left + 1) ∧
        Arrives call s base taken start m pos m₁ ∧ Arrives call s' base taken start n pos n₁ ∧
        AtTarget s s' base pos count marks m₁ n₁ parts target m₂ n₂ := by
  induction k generalizing start m n with
  | zero => exact .inl (.exhausted rfl)
  | succ k ih =>
    have hstep : Meet .equal marks never (step call s base start m) (step call s' base start n) ∨
        start = pos ∧
          ∃ parts target m₂ n₂, AtTarget s s' base pos count marks m n parts target m₂ n₂ := by
      by_cases hp : start = pos
      · subst hp
        exact (h.step_meets hcall ht).imp_right fun hat => ⟨rfl, hat⟩
      · exact .inl (step_alike h.toSameFrame hcall (h.elsewhere start hp) m n ht)
    rcases hstep with hmeet | ⟨rfl, parts, target, m₂, n₂, hat⟩
    · unfold runFrom
      rcases hm : step call s base start m with ⟨stop | (next | exit), m₁⟩
      · exact .inl (hmeet.stopped hm)
      · obtain ⟨n₁, hn, ht₁⟩ := hmeet.of_ok hm
        rw [run_bind_ok hm, run_bind_ok hn]
        refine (ih next ht₁).imp_right ?_
        rintro ⟨taken, left, p, q, parts, target, m₂, n₂, hk, hp, hq, hat⟩
        exact ⟨taken + 1, left, p, q, parts, target, m₂, n₂, by omega, .step hm hp, .step hn hq,
          hat⟩
      · obtain ⟨n₁, hn, ht₁⟩ := hmeet.of_ok hm
        rw [run_bind_ok hm, run_bind_ok hn]
        exact .inl (.same rfl fun _ => ht₁)
    · exact .inr ⟨0, k, m, n, parts, target, m₂, n₂, by omega, .here start m, .here start n, hat⟩

end ReactiveScript.Run
