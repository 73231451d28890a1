import ReactiveScript.Proofs.Later

/-
  One instruction of an interrupted evaluation.

  The limits of an evaluation are its settings, the depth of its calls and the switch of its context
  (`Machine.SameLimits`). Once the switch is set, an instruction that is no call comes back under the
  same limits, and if it goes on then with fewer instructions left (`calm_stepInstr`): jumping back
  and going on with a loop fail.
-/

namespace ReactiveScript

/-! ## Limits -/

/-- A switch that is set stays set. -/
def Store.KeepsSwitches (st st' : Store) : Prop := ∀ handle,
  (Store.isInterrupted handle st).1 = true → (Store.isInterrupted handle st').1 = true

theorem Store.lasting_keepsSwitches : Store.Lasting Store.KeepsSwitches where
  refl _ _ h := h
  trans h h' handle hset := h' handle (h handle hset)
  intern _ _ _ h := h
  fresh _ _ h := h
  newIterator _ _ _ h := h
  drawEntry _ _ _ h := h
  write _ _ _ h := h

theorem Store.keepsSwitches_setInterrupt (handle : Nat) :
    Store.Respects Store.KeepsSwitches (Store.setInterrupt handle true) := by
  intro st other hset
  change st.interrupts[other]?.getD false = true at hset
  show (st.interrupts.setIfInBounds handle true)[other]?.getD false = true
  rw [Array.getElem?_setIfInBounds]
  by_cases h : handle = other
  · subst h
    by_cases hlt : handle < st.interrupts.size
    · simp [hlt]
    · rw [Array.getElem?_eq_none (Nat.le_of_not_lt hlt)] at hset
      cases hset
  · rw [if_neg h]
    exact hset

/-- The switch of the context is set. -/
def Machine.Interrupted (m : Machine) : Prop :=
  (Store.isInterrupted m.context.settings.interrupt m.store).1 = true

/-- How many more calls may be nested. -/
def Machine.depthLeft (m : Machine) : Nat :=
  m.context.settings.maxCallDepth - m.context.callDepth

/-- The limits on evaluation are what they were, and switches stayed set. -/
structure Machine.SameLimits (m m' : Machine) : Prop where
  settings : m'.context.settings = m.context.settings
  callDepth : m'.context.callDepth = m.context.callDepth
  switches : m.store.KeepsSwitches m'.store

namespace Machine.SameLimits

variable {m m' m'' : Machine}

theorem refl (m : Machine) : m.SameLimits m := ⟨rfl, rfl, fun _ h => h⟩

theorem trans (h : m.SameLimits m') (h' : m'.SameLimits m'') : m.SameLimits m'' :=
  ⟨h'.settings.trans h.settings, h'.callDepth.trans h.callDepth,
    Store.lasting_keepsSwitches.trans h.switches h'.switches⟩

theorem interrupted (h : m.SameLimits m') (hm : m.Interrupted) : m'.Interrupted := by
  unfold Machine.Interrupted
  rw [h.settings]
  exact h.switches _ hm

theorem depthLeft (h : m.SameLimits m') : m'.depthLeft = m.depthLeft := by
  unfold Machine.depthLeft
  rw [h.settings, h.callDepth]

end Machine.SameLimits

namespace Run

variable {α β : Type} {m : Machine} {B : α → Prop} {C : β → Prop}

/-- No condition on a value. -/
def whatever (_ : α) : Prop := True

/-! ## Evaluations without calls -/

/-- An evaluation that comes back from every interrupted machine, under the same limits. -/
def Calm (B : α → Prop) (x : Run α) : Prop := ∀ m : Machine, m.Interrupted →
  Returned (x m).1 ∧ m.SameLimits (x m).2 ∧ ∀ a, (x m).1 = .ok a → B a

theorem Calm.bind {x : Run α} {f : α → Run β} (hx : Calm B x) (hf : ∀ a, B a → Calm C (f a)) :
    Calm C (x >>= f) := by
  intro m hm
  have hx := hx m hm
  rw [run_bind]
  generalize x m = out at hx ⊢
  obtain ⟨hreturned, hlimits, hB⟩ := hx
  rcases out with ⟨stop | a, m'⟩
  · obtain ⟨e, rfl⟩ := hreturned.error_of
    exact ⟨trivial, hlimits, fun b hb => by cases hb⟩
  · obtain ⟨hreturned', hlimits', hC⟩ := hf a (hB a rfl) m' (hlimits.interrupted hm)
    exact ⟨hreturned', hlimits.trans hlimits', hC⟩

theorem calm_pure {a : α} (h : B a) : Calm B (pure a : Run α) :=
  fun m _ => ⟨trivial, .refl m, fun b hb => by cases hb; exact h⟩

theorem calm_return (a : α) : Calm whatever (pure a : Run α) := calm_pure trivial

theorem calm_fail (e : EvalError) : Calm B (fail e : Run α) :=
  fun m _ => ⟨trivial, .refl m, fun b hb => by cases hb⟩

theorem calm_context : Calm whatever context := fun m _ => ⟨trivial, .refl m, fun _ _ => trivial⟩

theorem calm_change {f : Context → Context} (hsettings : ∀ c, (f c).settings = c.settings)
    (hdepth : ∀ c, (f c).callDepth = c.callDepth) : Calm whatever (change f) :=
  fun _ _ => ⟨trivial, ⟨hsettings _, hdepth _, fun _ h => h⟩, fun _ _ => trivial⟩

theorem calm_store {x : StateM Store α} (h : Store.Respects Store.KeepsSwitches x) :
    Calm whatever (store x) :=
  fun m _ => ⟨trivial, ⟨rfl, rfl, h m.store⟩, fun _ _ => trivial⟩

theorem calm_operands : Calm whatever operands :=
  fun m _ => ⟨trivial, .refl m, fun _ _ => trivial⟩

theorem calm_setOperands (stack : List Value) : Calm whatever (setOperands stack) :=
  calm_change (fun _ => rfl) fun _ => rfl

theorem operandsClosed_calm : OperandsClosed fun {α} => Calm (whatever (α := α)) where
  pure := calm_return
  fail := calm_fail
  bind hx hf := hx.bind fun a _ => hf a
  operands := calm_operands
  setOperands := calm_setOperands

theorem calm_ofExcept (r : Except EvalError α) : Calm whatever (ofExcept r) :=
  operandsClosed_calm.ofExcept r

theorem calm_readVariable (var : Variable) : Calm whatever (readVariable var) := by
  refine calm_context.bind fun c _ => ?_
  cases c.env.get? var with
  | some v => exact calm_return _
  | none => exact (calm_store (Store.lasting_keepsSwitches.closed.nameOf var)).bind fun _ _ => calm_fail _

theorem calm_height : Calm whatever height :=
  fun m _ => ⟨trivial, .refl m, fun _ _ => trivial⟩

theorem calm_push (v : Value) : Calm whatever (push v) :=
  calm_change (fun _ => rfl) fun _ => rfl

theorem calm_truncate (base : Nat) : Calm whatever (truncate base) :=
  operandsClosed_calm.truncate base

theorem calm_bindVariable (var : Variable) (v : Value) : Calm whatever (bindVariable var v) :=
  calm_change (fun _ => rfl) fun _ => rfl

theorem calm_bindAll (bindings : Bindings) : Calm whatever (bindAll bindings) :=
  calm_change (fun _ => rfl) fun _ => rfl

theorem calm_noteFrame (frame : String) : Calm whatever (noteFrame frame) :=
  calm_change (fun _ => rfl) fun _ => rfl

theorem calm_forgetFrames : Calm whatever forgetFrames :=
  calm_change (fun _ => rfl) fun _ => rfl

theorem calm_enterScope : Calm whatever enterScope :=
  fun _ _ => ⟨trivial, ⟨rfl, rfl, fun _ h => h⟩, fun _ _ => trivial⟩

theorem calm_leaveScope (mark : Nat) : Calm whatever (leaveScope mark) :=
  calm_change (fun _ => rfl) fun _ => rfl

variable {s : Script Value} {base pos : Nat} {call : Caller}

theorem calm_pop : Calm whatever (pop base pos) := operandsClosed_calm.pop

theorem calm_top : Calm whatever (top base pos) := operandsClosed_calm.top

theorem calm_popMany (n : Nat) : Calm whatever (popMany base pos n) := operandsClosed_calm.popMany n

theorem calm_frameResult : Calm whatever (frameResult base pos) := operandsClosed_calm.frameResult

/-! ## Instructions -/

/-- Fewer instructions are left than there were at a position. -/
def Closer (s : Script Value) (pos : Nat) : Next → Prop
  | .goto next => s.length - next < s.length - pos
  | .leave _ => True

theorem heedInterrupt_eq (hm : m.Interrupted) :
    heedInterrupt m = (.error (.error .interrupted), m) := by
  unfold heedInterrupt
  rw [run_bind_ok (run_context m), run_bind_ok (run_store _ m)]
  rw [show (Store.isInterrupted m.context.settings.interrupt m.store).1 = true from hm]
  rfl

theorem heedInterrupt_clear (hm : ¬ m.Interrupted) : heedInterrupt m = (.ok (), m) := by
  unfold heedInterrupt
  rw [run_bind_ok (run_context m), run_bind_ok (run_store _ m),
    show (Store.isInterrupted m.context.settings.interrupt m.store).1 = false from
      Bool.eq_false_iff.mpr hm]
  rfl

/-- Nothing goes on from where the switch is heeded. -/
theorem calm_heeding (f : Unit → Run β) : Calm C (heedInterrupt >>= f) := by
  intro m hm
  rw [run_bind_error (heedInterrupt_eq hm)]
  exact ⟨trivial, .refl m, fun _ h => by cases h⟩

theorem closer_of_lt (hpos : pos < s.length) {next : Nat} (h : pos < next) :
    Closer s pos (.goto next) := by
  show s.length - next < s.length - pos
  omega

theorem calm_goto (hpos : pos < s.length) {next : Nat} (h : pos < next) :
    Calm (Closer s pos) (pure (.goto next) : Run Next) :=
  calm_pure (closer_of_lt hpos h)

/-- Only a jump ahead is taken. -/
theorem calm_takeJump (hpos : pos < s.length) (target : Nat) :
    Calm (Closer s pos) (takeJump s pos target) :=
  takeJump_cases calm_fail (fun _ => calm_heeding _) fun hlt => calm_goto hpos hlt

/-- No loop goes on. -/
theorem calm_stepLoop (target : Nat) (withKey : Bool) :
    Calm (Closer s pos) (stepLoop s base pos target withKey) :=
  calm_heeding _

/-- An operator puts its result on the stack. -/
theorem calm_pushStored {x : StateM Store Value} (h : Store.Respects Store.KeepsSwitches x)
    (hpos : pos < s.length) : Calm (Closer s pos) (do
      push (← store x)
      return .goto (pos + 1)) :=
  (calm_store h).bind fun v _ => (calm_push v).bind fun _ _ => calm_goto hpos (Nat.lt_succ_self _)

/-- Any instruction but a call leads on. -/
theorem calm_stepInstr (hpos : pos < s.length) (i : Instruction) (hcall : i.opcode ≠ .call)
    (htail : i.opcode ≠ .tailCall) (hclosure : i.opcode ≠ .closure) :
    Calm (Closer s pos) (stepInstr call s base pos i) := by
  rcases i with ⟨opcode, n⟩
  have hnext : Calm (Closer s pos) (pure (.goto (pos + 1)) : Run Next) :=
    calm_goto hpos (Nat.lt_succ_self pos)
  have hpush : ∀ v, Calm (Closer s pos) (do push v; return .goto (pos + 1)) := fun v =>
    (calm_push v).bind fun _ _ => hnext
  cases opcode with
  | nop => exact hnext
  | pushConst => exact (calm_ofExcept _).bind fun v _ => hpush v
  | pop => exact calm_pop.bind fun _ _ => hnext
  | dup =>
    refine calm_operands.bind fun stack _ => ?_
    by_cases h : n ≥ stack.length - base
    · simp only [if_pos h]
      exact calm_fail _
    · simp only [if_neg h]
      exact hpush _
  | jump => exact calm_takeJump hpos n
  | jumpIfNot =>
    refine calm_pop.bind fun condition _ => (calm_ofExcept _).bind fun b _ => ?_
    cases b
    · exact calm_takeJump hpos n
    · exact hnext
  | jumpScAnd =>
    refine calm_top.bind fun v _ => (calm_ofExcept _).bind fun b _ => ?_
    cases b
    · exact calm_takeJump hpos n
    · exact calm_pop.bind fun _ _ => hnext
  | jumpScOr =>
    refine calm_top.bind fun v _ => (calm_ofExcept _).bind fun b _ => ?_
    cases b
    · exact calm_pop.bind fun _ _ => hnext
    · exact calm_takeJump hpos n
  | loop => exact calm_stepLoop n false
  | loopWithKey => exact calm_stepLoop n true
  | ret => exact calm_frameResult.bind fun _ _ => calm_pure trivial
  | getVar => exact (calm_readVariable _).bind fun v _ => hpush v
  | setVar => exact calm_top.bind fun v _ => (calm_bindVariable _ v).bind fun _ _ => hnext
  | memberC => exact (calm_ofExcept _).bind fun key _ => calm_pop.bind fun object _ => hpush _
  | makeObject =>
    refine (calm_popMany _).bind fun values _ => ?_
    exact calm_pushStored (Store.lasting_keepsSwitches.closed.makeObject values) hpos
  | call => exact absurd rfl hcall
  | closure => exact absurd rfl hclosure
  | tailCall => exact absurd rfl htail
  | unary =>
    refine (calm_ofExcept _).bind fun op _ => calm_pop.bind fun a _ => ?_
    exact calm_pushStored (Store.lasting_keepsSwitches.closed.unary op a) hpos
  | binary =>
    refine (calm_ofExcept _).bind fun op _ => calm_pop.bind fun b _ => calm_pop.bind fun a _ => ?_
    exact calm_pushStored (Store.lasting_keepsSwitches.closed.binary op a b) hpos
  | ternary =>
    refine (calm_ofExcept _).bind fun op _ => (calm_popMany 3).bind fun args _ => ?_
    split
    · exact hpush _
    · exact hnext
  | quaternary =>
    refine (calm_ofExcept _).bind fun op _ => (calm_popMany 4).bind fun args _ => ?_
    split
    · exact hpush _
    · exact hnext

end Run

end ReactiveScript
