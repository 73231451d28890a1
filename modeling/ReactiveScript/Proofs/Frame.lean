import ReactiveScript.Proofs.Run
import ReactiveScript.Proofs.Retention

/-
  What an instruction leaves alone.

  `Upholds R post x` says that `R` holds between the machine with which `x` began and the one it
  leaves, whenever it comes back. Three relations matter: `Retained` (operands, call depth and
  variables as they were), `ExtendsScope` (bindings may be added to the current scope) and
  `ExtendsFrame base` (moreover the operands above `base` may change). They are about every machine:
  what a scope that was left with a foreign mark left behind is taken out in `Environment.Retains`.
  `step_extendsFrame`: an instruction changes at most its frame and its scope, provided that calls
  retain everything, and has emptied the frame when it leaves it.
-/

namespace ReactiveScript.Run

variable {α β : Type}

/-! ## Relations between machines -/

/-- The operands below height `base`. -/
def bottom (base : Nat) (stack : List Value) : List Value := stack.drop (stack.length - base)

theorem bottom_cons {base : Nat} {stack : List Value} (v : Value) (h : base ≤ stack.length) :
    bottom base (v :: stack) = bottom base stack := by
  have e : (v :: stack).length - base = (stack.length - base) + 1 := by
    rw [List.length_cons]; omega
  unfold bottom
  rw [e, List.drop_succ_cons]

theorem bottom_drop {base n : Nat} {stack : List Value} (h : base + n ≤ stack.length) :
    bottom base (stack.drop n) = bottom base stack := by
  unfold bottom
  rw [List.drop_drop, List.length_drop]
  congr 1
  omega

theorem bottom_bottom (base : Nat) (stack : List Value) :
    bottom base (bottom base stack) = bottom base stack := by
  rcases Nat.le_total base stack.length with h | h
  · exact bottom_drop (by omega)
  · have e : stack.length - base = 0 := by omega
    simp only [bottom, e, List.drop_zero]

theorem length_bottom {base : Nat} {stack : List Value} (h : base ≤ stack.length) :
    (bottom base stack).length = base := by
  unfold bottom
  rw [List.length_drop]
  omega

/-- Nothing that outlives an evaluation has changed, except perhaps a variable that was bound too deep,
and no script is under analysis that was not before. -/
structure Retained (m m' : Machine) : Prop where
  stack : m'.context.stack = m.context.stack
  callDepth : m'.context.callDepth = m.context.callDepth
  env : m.context.env.Retains m'.context.env
  analyzing : m'.context.analyzing ⊆ m.context.analyzing

/-- At most bindings were added to the current scope. -/
structure ExtendsScope (m m' : Machine) : Prop where
  stack : m'.context.stack = m.context.stack
  callDepth : m'.context.callDepth = m.context.callDepth
  env : m.context.env.Extends m'.context.env
  analyzing : m'.context.analyzing ⊆ m.context.analyzing

/-- Variables aside, at most the frame above `base` has changed. -/
structure OnFrame (base : Nat) (m m' : Machine) : Prop where
  callDepth : m'.context.callDepth = m.context.callDepth
  stack : base ≤ m.context.stack.length → base ≤ m'.context.stack.length ∧
    bottom base m'.context.stack = bottom base m.context.stack
  analyzing : m'.context.analyzing ⊆ m.context.analyzing

/-- At most the frame above `base` has changed and bindings were added to the current scope. -/
structure ExtendsFrame (base : Nat) (m m' : Machine) : Prop extends OnFrame base m m' where
  env : m.context.env.Extends m'.context.env

/-- A relation that composes and holds where nothing has changed. -/
structure Composes (R : Machine → Machine → Prop) : Prop where
  of_retained : ∀ {m m'}, Retained m m' → R m m'
  trans : ∀ {a b c}, R a b → R b c → R a c

/-- Only what no relation looks at has changed. -/
theorem Retained.aside {m m' : Machine} (hs : m'.context.stack = m.context.stack)
    (hd : m'.context.callDepth = m.context.callDepth) (he : m'.context.env = m.context.env)
    (ha : m'.context.analyzing = m.context.analyzing) : Retained m m' :=
  ⟨hs, hd, he ▸ .refl _, fun _ hid => ha ▸ hid⟩

theorem Retained.refl (m : Machine) : Retained m m := .aside rfl rfl rfl rfl

theorem Retained.trans {a b c : Machine} (h : Retained a b) (h' : Retained b c) : Retained a c :=
  ⟨h'.stack.trans h.stack, h'.callDepth.trans h.callDepth, h.env.trans h'.env,
    fun _ hid => h.analyzing (h'.analyzing hid)⟩

theorem composes_retained : Composes Retained := ⟨id, Retained.trans⟩

theorem Retained.extendsScope {m m' : Machine} (h : Retained m m') : ExtendsScope m m' :=
  ⟨h.stack, h.callDepth, h.env.extends, h.analyzing⟩

theorem composes_extendsScope : Composes ExtendsScope where
  of_retained h := h.extendsScope
  trans h h' := ⟨h'.stack.trans h.stack, h'.callDepth.trans h.callDepth, h.env.trans h'.env,
    fun _ hid => h.analyzing (h'.analyzing hid)⟩

theorem OnFrame.of_stack {base : Nat} {m m' : Machine}
    (hs : m'.context.stack = m.context.stack) (hd : m'.context.callDepth = m.context.callDepth)
    (ha : m'.context.analyzing ⊆ m.context.analyzing) : OnFrame base m m' :=
  ⟨hd, fun hb => by rw [hs]; exact ⟨hb, rfl⟩, ha⟩

theorem Retained.onFrame {base : Nat} {m m' : Machine} (h : Retained m m') : OnFrame base m m' :=
  .of_stack h.stack h.callDepth h.analyzing

theorem OnFrame.trans {base : Nat} {a b c : Machine} (h : OnFrame base a b)
    (h' : OnFrame base b c) : OnFrame base a c := by
  refine ⟨h'.callDepth.trans h.callDepth, fun hb => ?_, fun _ hid => h.analyzing (h'.analyzing hid)⟩
  obtain ⟨h1, e1⟩ := h.stack hb
  obtain ⟨h2, e2⟩ := h'.stack h1
  exact ⟨h2, e2.trans e1⟩

theorem composes_extendsFrame (base : Nat) : Composes (ExtendsFrame base) where
  of_retained h := ⟨h.onFrame, h.env.extends⟩
  trans h h' := ⟨h.toOnFrame.trans h'.toOnFrame, h.env.trans h'.env⟩

/-- Only the operands have changed, and those below `base` have not. -/
theorem ExtendsFrame.of_operands {base : Nat} {m : Machine} {stack : List Value}
    (h : base ≤ m.context.stack.length → base ≤ stack.length ∧
      bottom base stack = bottom base m.context.stack) :
    ExtendsFrame base m { m with context := { m.context with stack } } :=
  ⟨⟨rfl, h, fun _ hid => hid⟩, (Environment.Retains.refl _).extends⟩

/-- Whenever `x` comes back, `R` holds between the machine it began with and the one it leaves, and
`post` admits the value it came to. -/
def Upholds (R : Machine → Machine → Prop) (post : α → Machine → Prop) (x : Run α) : Prop :=
  ∀ m, Returned (x m).1 → R m (x m).2 ∧ ∀ a, (x m).1 = .ok a → post a (x m).2

/-- No condition on the value. -/
def anyValue (_ : α) (_ : Machine) : Prop := True

/-- The evaluation leaves everything as it was, whether it fails or not. -/
abbrev Neutral (x : Run α) : Prop := Upholds Retained anyValue x

variable {R : Machine → Machine → Prop} {P Q : α → Machine → Prop}

theorem Upholds.mono {R' : Machine → Machine → Prop} {x : Run α} (h : Upholds R P x)
    (hR : ∀ {m m'}, R m m' → R' m m') : Upholds R' P x :=
  fun m hr => ⟨hR (h m hr).1, (h m hr).2⟩

theorem Neutral.upholds (hR : Composes R) {x : Run α} (h : Neutral x) : Upholds R anyValue x :=
  Upholds.mono h hR.of_retained

/-- A sequence, where the second part may use what is known of the value of the first. -/
theorem Upholds.bindWith (hR : Composes R) {x : Run α} {f : α → Run β} {Q : β → Machine → Prop}
    (hx : Upholds R P x) (hf : ∀ a m, P a m → Returned (f a m).1 →
      R m (f a m).2 ∧ ∀ b, (f a m).1 = .ok b → Q b (f a m).2) : Upholds R Q (x >>= f) := by
  intro m hr
  have hx := hx m
  rw [run_bind] at hr ⊢
  generalize x m = out at hx hr ⊢
  rcases out with ⟨stop | a, m₁⟩
  · obtain ⟨e, rfl⟩ := hr.error_of
    exact ⟨(hx trivial).1, fun b h => by cases h⟩
  · obtain ⟨h1, hP⟩ := hx trivial
    obtain ⟨h2, hQ⟩ := hf a m₁ (hP a rfl) hr
    exact ⟨hR.trans h1 h2, hQ⟩

theorem Upholds.bind (hR : Composes R) {x : Run α} {f : α → Run β} {Q : β → Machine → Prop}
    (hx : Upholds R P x) (hf : ∀ a, Upholds R Q (f a)) : Upholds R Q (x >>= f) :=
  hx.bindWith hR fun a m _ hr => hf a m hr

/-- The value of an evaluation is passed on with what is known of it. -/
theorem Upholds.andReturn (hR : Composes R) {x : Run α} {Q : β → Machine → Prop}
    (hx : Upholds R P x) (f : α → β) (hf : ∀ a m, P a m → Q (f a) m) :
    Upholds R Q (do return f (← x)) :=
  hx.bindWith hR fun a m hP _ =>
    ⟨hR.of_retained (.refl m), fun b hb => by cases hb; exact hf a m hP⟩

theorem Upholds.map (hR : Composes R) {x : Run α} (hx : Upholds R P x) (f : α → β) :
    Upholds R anyValue (f <$> x) := by
  rw [map_eq_pure_bind]
  exact hx.andReturn hR f fun _ _ _ => trivial

/-- What `Upholds` says of an evaluation that failed, and of one that came to a value. -/
theorem Upholds.of_error {x : Run α} (h : Upholds R P x) {m m' : Machine} {e : EvalError}
    (hx : x m = (.error (.error e), m')) : R m m' := by
  have h := h m
  rw [hx] at h
  exact (h trivial).1

theorem Upholds.of_ok {x : Run α} (h : Upholds R P x) {m m' : Machine} {a : α}
    (hx : x m = (.ok a, m')) : R m m' ∧ P a m' := by
  have h := h m
  rw [hx] at h
  exact ⟨(h trivial).1, (h trivial).2 a rfl⟩

theorem upholds_pure (hR : Composes R) {a : α} (h : ∀ m, P a m) :
    Upholds R P (pure a : Run α) :=
  fun m _ => ⟨hR.of_retained (.refl m), fun b hb => by cases hb; exact h m⟩

theorem upholds_fail (hR : Composes R) (e : EvalError) : Upholds R P (fail e : Run α) :=
  fun m _ => ⟨hR.of_retained (.refl m), fun b hb => by cases hb⟩

/-! ## What changes nothing -/

theorem neutral_pure (a : α) : Neutral (pure a : Run α) :=
  upholds_pure composes_retained fun _ => trivial

theorem neutral_store (x : StateM Store α) : Neutral (store x) :=
  fun _ _ => ⟨.aside rfl rfl rfl rfl, fun _ _ => trivial⟩

theorem neutral_context : Neutral context := fun m _ => ⟨.refl m, fun _ _ => trivial⟩

theorem neutral_operands : Neutral operands := fun m _ => ⟨.refl m, fun _ _ => trivial⟩

theorem neutral_noteFrame (frame : String) : Neutral (noteFrame frame) :=
  fun _ _ => ⟨.aside rfl rfl rfl rfl, fun _ _ => trivial⟩

theorem neutral_forgetFrames : Neutral forgetFrames :=
  fun _ _ => ⟨.aside rfl rfl rfl rfl, fun _ _ => trivial⟩

theorem neutral_ofExcept (r : Except EvalError α) : Neutral (ofExcept r) := by
  cases r with
  | ok a => exact neutral_pure a
  | error e => exact upholds_fail composes_retained e

theorem neutral_throw (stop : Stop) : Neutral (throw stop : Run α) :=
  fun m _ => ⟨.refl m, fun _ h => by cases h⟩

theorem Upholds.attempt {x : Run α} (h : Upholds R P x) : Upholds R anyValue (attempt x) := by
  intro m hr
  have h := h m
  rw [run_attempt] at hr ⊢
  generalize x m = out at h hr ⊢
  rcases out with ⟨(e | p | g | _) | a, m₁⟩
  · exact ⟨(h trivial).1, fun _ _ => trivial⟩
  · exact absurd hr id
  · exact absurd hr id
  · exact absurd hr id
  · exact ⟨(h trivial).1, fun _ _ => trivial⟩

theorem neutral_heedInterrupt : Neutral heedInterrupt := by
  refine neutral_context.bind composes_retained fun c => ?_
  refine (neutral_store _).bind composes_retained fun b => ?_
  cases b
  · exact neutral_pure ()
  · exact upholds_fail composes_retained _

theorem neutral_readVariable (var : Variable) : Neutral (readVariable var) := by
  refine neutral_context.bind composes_retained fun c => ?_
  cases c.env.get? var with
  | some v => exact neutral_pure v
  | none => exact (neutral_store _).bind composes_retained fun _ => upholds_fail composes_retained _

theorem neutral_top (base pos : Nat) : Neutral (top base pos) := by
  refine neutral_operands.bind composes_retained fun stack => ?_
  cases stack with
  | nil => exact upholds_fail composes_retained _
  | cons v rest =>
    by_cases h : base ≤ rest.length
    · simp only [if_pos h]; exact neutral_pure v
    · simp only [if_neg h]; exact upholds_fail composes_retained _

/-! ## What binds variables -/

theorem extendsScope_bindAll (bindings : Bindings) : Upholds ExtendsScope anyValue (bindAll bindings) :=
  fun _ _ => ⟨⟨rfl, rfl, Environment.extends_setAll _ _, fun _ hid => hid⟩, fun _ _ => trivial⟩

theorem extendsScope_bindVariable (var : Variable) (v : Value) :
    Upholds ExtendsScope anyValue (bindVariable var v) :=
  extendsScope_bindAll [(var, v)]

theorem ExtendsScope.extendsFrame (base : Nat) {m m' : Machine} (h : ExtendsScope m m') :
    ExtendsFrame base m m' :=
  ⟨.of_stack h.stack h.callDepth h.analyzing, h.env⟩

/-! ## What works on the frame -/

variable {base pos : Nat}

theorem extendsFrame_push (v : Value) : Upholds (ExtendsFrame base) anyValue (push v) :=
  fun _ _ => ⟨.of_operands fun h => ⟨Nat.le_succ_of_le h, bottom_cons v h⟩, fun _ _ => trivial⟩

theorem extendsFrame_pop : Upholds (ExtendsFrame base) anyValue (pop base pos) := by
  intro m _
  unfold pop
  rw [run_bind_ok (run_operands m)]
  cases hs : m.context.stack with
  | nil => exact ⟨(composes_extendsFrame base).of_retained (.refl m), fun _ _ => trivial⟩
  | cons v rest =>
    by_cases h : base ≤ rest.length
    · simp only [if_pos h]
      refine ⟨.of_operands fun _ => ?_, fun _ _ => trivial⟩
      rw [hs]
      exact ⟨h, (bottom_cons v h).symm⟩
    · simp only [if_neg h]
      exact ⟨(composes_extendsFrame base).of_retained (.refl m), fun _ _ => trivial⟩

theorem extendsFrame_popMany (n : Nat) : Upholds (ExtendsFrame base) anyValue (popMany base pos n) := by
  intro m _
  unfold popMany
  rw [run_bind_ok (run_operands m)]
  by_cases h : m.context.stack.length < base + n
  · simp only [if_pos h]
    exact ⟨(composes_extendsFrame base).of_retained (.refl m), fun _ _ => trivial⟩
  · simp only [if_neg h]
    refine ⟨.of_operands fun _ => ?_, fun _ _ => trivial⟩
    have h' : base + n ≤ m.context.stack.length := by omega
    refine ⟨?_, bottom_drop h'⟩
    show base ≤ (m.context.stack.drop n).length
    rw [List.length_drop]; omega

/-- The frame of a script that leaves it is empty. -/
def Left (base : Nat) : Next → Machine → Prop
  | .goto _, _ => True
  | .leave _, m => m.context.stack.length = base

theorem extendsFrame_frameResult :
    Upholds (ExtendsFrame base) (fun _ m => m.context.stack.length = base) (frameResult base pos) := by
  intro m _
  unfold frameResult pop
  rw [run_bind, run_bind_ok (run_operands m)]
  cases hs : m.context.stack with
  | nil => exact ⟨(composes_extendsFrame base).of_retained (.refl m), fun _ h => by cases h⟩
  | cons v rest =>
    by_cases h : base ≤ rest.length
    · simp only [if_pos h]
      refine ⟨.of_operands fun _ => ?_, fun _ _ => length_bottom h⟩
      rw [hs, bottom_cons v h]
      exact ⟨Nat.le_of_eq (length_bottom h).symm, bottom_bottom base rest⟩
    · simp only [if_neg h]
      exact ⟨(composes_extendsFrame base).of_retained (.refl m), fun _ h => by cases h⟩

/-! ## Instructions -/

variable {call : Caller} {s : Script Value}

theorem upholds_goto (p : Nat) :
    Upholds (ExtendsFrame base) (Left base) (pure (Next.goto p) : Run Next) :=
  upholds_pure (composes_extendsFrame base) fun _ => trivial

theorem takeJump_extendsFrame (target : Nat) :
    Upholds (ExtendsFrame base) (Left base) (takeJump s pos target) := by
  have hK := composes_extendsFrame base
  exact takeJump_cases (upholds_fail hK)
    (fun _ => (neutral_heedInterrupt.upholds hK).bind hK fun _ => upholds_goto target)
    fun _ => upholds_goto target

/-- Taking the iterator from below the accumulator stays above the frame's base. -/
theorem extendsFrame_dropIterator (accumulator slot : Value) (rest : List Value)
    (h : base ≤ rest.length) (m : Machine)
    (hs : m.context.stack = accumulator :: slot :: rest) :
    ExtendsFrame base m { m with context := { m.context with stack := accumulator :: rest } } := by
  refine .of_operands fun _ => ⟨Nat.le_succ_of_le h, ?_⟩
  rw [hs, bottom_cons _ h, bottom_cons _ (Nat.le_succ_of_le h), bottom_cons _ h]

theorem stepLoop_extendsFrame (target : Nat) (withKey : Bool) :
    Upholds (ExtendsFrame base) (Left base) (stepLoop s base pos target withKey) := by
  have hK := composes_extendsFrame base
  unfold stepLoop
  refine (neutral_heedInterrupt.upholds hK).bind hK fun _ => ?_
  intro m hr
  rw [run_bind_ok (run_operands m)] at hr ⊢
  rcases hs : m.context.stack with _ | ⟨accumulator, _ | ⟨slot, rest⟩⟩
  · exact upholds_fail hK _ m trivial
  · exact upholds_fail hK _ m trivial
  · rw [hs] at hr
    by_cases h : rest.length < base
    · simp only [if_pos h]
      exact upholds_fail hK _ m trivial
    · simp only [if_neg h] at hr ⊢
      cases slot with
      | iterator handle =>
        dsimp only at hr ⊢
        rw [run_bind_ok (run_store _ m)] at hr ⊢
        -- drawing an entry touches the store only
        have hd : ExtendsFrame base m { m with store := (Store.drawEntry handle m.store).2 } :=
          hK.of_retained (.aside rfl rfl rfl rfl)
        generalize (Store.drawEntry handle m.store).1 = drawn at hr ⊢
        rcases drawn with _ | ⟨key, v⟩
        · dsimp only at hr ⊢
          rw [run_bind_ok (run_setOperands _ _)] at hr ⊢
          have hk := extendsFrame_dropIterator accumulator (.iterator handle) rest
            (Nat.le_of_not_lt h) { m with store := (Store.drawEntry handle m.store).2 } hs
          obtain ⟨h1, h2⟩ := takeJump_extendsFrame target _ hr
          exact ⟨hK.trans (hK.trans hd hk) h1, h2⟩
        · have hpush : Upholds (ExtendsFrame base) (Left base) (do
              push v
              return Next.goto (pos + 1)) :=
            (extendsFrame_push v).bind hK fun _ => upholds_goto _
          cases withKey with
          | false =>
            obtain ⟨h1, h2⟩ := hpush _ hr
            exact ⟨hK.trans hd h1, h2⟩
          | true =>
            obtain ⟨h1, h2⟩ := (extendsFrame_push key).bind hK (fun _ => hpush) _ hr
            exact ⟨hK.trans hd h1, h2⟩
      | _ => exact upholds_fail hK _ m trivial

theorem stepPlainCall_extendsFrame (hcall : ∀ f args, Neutral (call f args)) (next : Nat)
    (function : Value) (bindings : Bindings) :
    Upholds (ExtendsFrame base) (Left base) (stepPlainCall call s pos next function bindings) := by
  have hK := composes_extendsFrame base
  refine ((hcall function bindings).attempt.mono hK.of_retained).bind hK fun r => ?_
  cases r with
  | ok v => exact (extendsFrame_push v).bind hK fun _ => upholds_goto next
  | error e =>
    refine ((neutral_store _).upholds hK).bind hK fun frame => ?_
    exact ((neutral_noteFrame frame).upholds hK).bind hK fun _ => upholds_fail hK e

theorem stepCall_extendsFrame (hcall : ∀ f args, Neutral (call f args)) (n : Nat) (op : Opcode) :
    Upholds (ExtendsFrame base) (Left base) (stepCall call s base pos n op) := by
  have hK := composes_extendsFrame base
  unfold stepCall
  refine ((neutral_ofExcept _).upholds hK).bind hK fun params => ?_
  refine (extendsFrame_popMany n).bind hK fun args => ?_
  refine extendsFrame_pop.bind hK fun function => ?_
  by_cases h : op = .closure
  · simp only [if_pos h]
    refine ((neutral_store _).upholds hK).bind hK fun v => ?_
    exact (extendsFrame_push v).bind hK fun _ => upholds_goto _
  · simp only [if_neg h]
    intro m hr
    rw [run_bind_ok (run_height m)] at hr ⊢
    by_cases ht : (decide (op = .tailCall) && m.context.stack.length == base) = true
    · -- a tail call: nothing else stands in the frame
      simp only [if_pos ht] at hr ⊢
      cases hf : tailScript? function (params.zip args) with
      | none =>
        rw [hf] at hr
        exact stepPlainCall_extendsFrame hcall _ function _ m hr
      | some target =>
        refine ⟨hK.of_retained (.refl m), fun a ha => ?_⟩
        cases ha
        simp only [Bool.and_eq_true, beq_iff_eq] at ht
        exact ht.2
    · simp only [if_neg ht] at hr ⊢
      exact stepPlainCall_extendsFrame hcall _ function _ m hr

/-- An operator takes its operands from the frame and puts its result there. -/
theorem extendsFrame_pushStored (x : StateM Store Value) (p : Nat) :
    Upholds (ExtendsFrame base) (Left base) (do
      push (← store x)
      return Next.goto p) := by
  have hK := composes_extendsFrame base
  refine ((neutral_store x).upholds hK).bind hK fun v => ?_
  exact (extendsFrame_push v).bind hK fun _ => upholds_goto p

/-- A jump that takes its condition from the stack when it does not jump. -/
theorem extendsFrame_popThen (p : Nat) :
    Upholds (ExtendsFrame base) (Left base) (do
      let _ ← pop base pos
      return Next.goto p) :=
  extendsFrame_pop.bind (composes_extendsFrame base) fun _ => upholds_goto p

theorem stepInstr_extendsFrame (hcall : ∀ f args, Neutral (call f args)) (i : Instruction) :
    Upholds (ExtendsFrame base) (Left base) (stepInstr call s base pos i) := by
  have hK := composes_extendsFrame base
  rcases i with ⟨opcode, n⟩
  cases opcode with
  | nop => exact upholds_goto _
  | pushConst =>
    refine ((neutral_ofExcept _).upholds hK).bind hK fun v => ?_
    exact (extendsFrame_push v).bind hK fun _ => upholds_goto _
  | pop => exact extendsFrame_popThen _
  | dup =>
    refine (neutral_operands.upholds hK).bind hK fun stack => ?_
    by_cases h : n ≥ stack.length - base
    · simp only [if_pos h]; exact upholds_fail hK _
    · simp only [if_neg h]
      exact (extendsFrame_push _).bind hK fun _ => upholds_goto _
  | jump => exact takeJump_extendsFrame n
  | jumpIfNot =>
    refine extendsFrame_pop.bind hK fun condition => ?_
    refine ((neutral_ofExcept _).upholds hK).bind hK fun b => ?_
    cases b
    · exact takeJump_extendsFrame n
    · exact upholds_goto _
  | jumpScAnd =>
    refine ((neutral_top base pos).upholds hK).bind hK fun v => ?_
    refine ((neutral_ofExcept _).upholds hK).bind hK fun b => ?_
    cases b
    · exact takeJump_extendsFrame n
    · exact extendsFrame_popThen _
  | jumpScOr =>
    refine ((neutral_top base pos).upholds hK).bind hK fun v => ?_
    refine ((neutral_ofExcept _).upholds hK).bind hK fun b => ?_
    cases b
    · exact extendsFrame_popThen _
    · exact takeJump_extendsFrame n
  | loop => exact stepLoop_extendsFrame n false
  | loopWithKey => exact stepLoop_extendsFrame n true
  | ret => exact extendsFrame_frameResult.andReturn hK _ fun _ _ h => h
  | getVar =>
    refine ((neutral_readVariable _).upholds hK).bind hK fun v => ?_
    exact (extendsFrame_push v).bind hK fun _ => upholds_goto _
  | setVar =>
    refine ((neutral_top base pos).upholds hK).bind hK fun v => ?_
    refine ((extendsScope_bindVariable _ v).mono (·.extendsFrame base)).bind hK fun _ => ?_
    exact upholds_goto _
  | memberC =>
    refine ((neutral_ofExcept _).upholds hK).bind hK fun key => ?_
    refine extendsFrame_pop.bind hK fun object => ?_
    exact (extendsFrame_push _).bind hK fun _ => upholds_goto _
  | makeObject =>
    refine (extendsFrame_popMany _).bind hK fun values => ?_
    exact extendsFrame_pushStored _ _
  | call => exact stepCall_extendsFrame hcall n .call
  | closure => exact stepCall_extendsFrame hcall n .closure
  | tailCall => exact stepCall_extendsFrame hcall n .tailCall
  | unary =>
    refine ((neutral_ofExcept _).upholds hK).bind hK fun op => ?_
    refine extendsFrame_pop.bind hK fun a => ?_
    exact extendsFrame_pushStored _ _
  | binary =>
    refine ((neutral_ofExcept _).upholds hK).bind hK fun op => ?_
    refine extendsFrame_pop.bind hK fun b => ?_
    refine extendsFrame_pop.bind hK fun a => ?_
    exact extendsFrame_pushStored _ _
  | ternary =>
    refine ((neutral_ofExcept _).upholds hK).bind hK fun op => ?_
    refine (extendsFrame_popMany 3).bind hK fun args => ?_
    split
    · exact (extendsFrame_push _).bind hK fun _ => upholds_goto _
    · exact upholds_goto _
  | quaternary =>
    refine ((neutral_ofExcept _).upholds hK).bind hK fun op => ?_
    refine (extendsFrame_popMany 4).bind hK fun args => ?_
    split
    · exact (extendsFrame_push _).bind hK fun _ => upholds_goto _
    · exact upholds_goto _

/-- An instruction keeps what is below its frame; when it leaves the frame, nothing is left in it. -/
theorem step_extendsFrame (hcall : ∀ f args, Neutral (call f args)) :
    Upholds (ExtendsFrame base) (Left base) (step call s base pos) := by
  have hK := composes_extendsFrame base
  unfold step
  cases s.code[pos]? with
  | some i => exact stepInstr_extendsFrame hcall i
  | none => exact extendsFrame_frameResult.andReturn hK _ fun _ _ h => h

end ReactiveScript.Run
