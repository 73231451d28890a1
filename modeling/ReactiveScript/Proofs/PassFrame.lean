import ReactiveScript.Proofs.Balance
import ReactiveScript.Proofs.Schedule

/-
  Passes are neutral.

  An instruction of a pass and a join change at most the frame and the scope of the pass, and
  following another path puts both back to what they were on that path, so a pass stays inside its
  scope (`walkFrom_staysInside`). However scripts, hooks and unions are analysed from one another,
  what comes back retains the operands, the call depth and the variables it found
  (`analyseFor_neutral`, `passWith_neutral`), and the registry and the settings
  (`keeps_analyseFor`).
-/

namespace ReactiveScript.Run

variable {α β : Type} {base : Nat}

/-! ## Operations on the frame of a pass -/

theorem extendsFrame_takeOrNil : Upholds (ExtendsFrame base) anyValue (takeOrNil base) := by
  intro m _
  unfold takeOrNil
  rw [run_bind_ok (run_operands m)]
  cases hs : m.context.stack with
  | nil => exact ⟨(composes_extendsFrame base).of_retained (.refl m), fun _ _ => trivial⟩
  | cons v rest =>
    by_cases h : base ≤ rest.length
    · simp only [if_pos h]
      refine ⟨.of_operands fun _ => ?_, fun _ _ => trivial⟩
      rw [hs]
      exact ⟨h, (bottom_cons v h).symm⟩
    · simp only [if_neg h]
      exact ⟨(composes_extendsFrame base).of_retained (.refl m), fun _ _ => trivial⟩

theorem extendsFrame_takeManyOrNil (n : Nat) :
    Upholds (ExtendsFrame base) anyValue (takeManyOrNil base n) := by
  have hK := composes_extendsFrame base
  induction n with
  | zero => exact (neutral_pure _).upholds hK
  | succ n ih =>
    refine extendsFrame_takeOrNil.bind hK fun v => ?_
    exact ih.andReturn hK _ fun _ _ _ => trivial

theorem neutral_frame : Neutral (frame base) :=
  fun m _ => ⟨.refl m, fun _ _ => trivial⟩

theorem neutral_peekOrNil : Neutral (peekOrNil base) :=
  fun m _ => ⟨.refl m, fun _ _ => trivial⟩

theorem extendsFrame_setFrame (f : List Value) :
    Upholds (ExtendsFrame base) anyValue (setFrame base f) := by
  intro m _
  refine ⟨.of_operands fun hb => ?_, fun _ _ => trivial⟩
  have hlength := length_bottom hb
  show base ≤ (f ++ bottom base m.context.stack).length ∧
    bottom base (f ++ bottom base m.context.stack) = bottom base m.context.stack
  refine ⟨by rw [List.length_append]; omega, ?_⟩
  rw [bottom, List.length_append, hlength, Nat.add_sub_cancel, List.drop_left]

variable {r : Region}

theorem neutral_suspendPath (target : Nat) : Neutral (suspendPath r target) :=
  fun m _ => ⟨.refl m, fun _ _ => trivial⟩

theorem extendsScope_mergeBindings (bindings : Bindings) :
    Upholds ExtendsScope anyValue (mergeBindings bindings) := by
  have hS := composes_extendsScope
  induction bindings with
  | nil => exact (neutral_pure _).upholds hS
  | cons b rest ih =>
    obtain ⟨var, other⟩ := b
    refine (neutral_context.upholds hS).bind hS fun c => ?_
    cases c.env.get? var with
    | none => exact (extendsScope_bindVariable var other).bind hS fun _ => ih
    | some current =>
      refine ((neutral_store _).upholds hS).bind hS fun joined => ?_
      exact (extendsScope_bindVariable var joined).bind hS fun _ => ih

theorem extendsFrame_mergePath (path : WaitingPath) :
    Upholds (ExtendsFrame r.base) anyValue (mergePath r path) := by
  have hK := composes_extendsFrame r.base
  refine (neutral_frame.upholds hK).bind hK fun live => ?_
  refine ((neutral_store _).upholds hK).bind hK fun joined => ?_
  refine (extendsFrame_setFrame _).bind hK fun _ => ?_
  exact (extendsScope_mergeBindings _).mono (·.extendsFrame r.base)

theorem extendsFrame_mergeWaiting (tries : Nat) (wk : Walk) :
    Upholds (ExtendsFrame r.base) anyValue (mergeWaiting r wk tries) := by
  have hK := composes_extendsFrame r.base
  induction tries generalizing wk with
  | zero => exact (neutral_pure _).upholds hK
  | succ tries ih =>
    unfold mergeWaiting
    cases wk.pending.findIdx? fun p => p.target == wk.pos with
    | none => exact (neutral_pure _).upholds hK
    | some index =>
      dsimp only
      cases wk.pending[index]? with
      | none => exact (neutral_pure _).upholds hK
      | some path => exact (extendsFrame_mergePath path).bind hK fun _ => ih _

/-! ## Instructions of a pass -/

variable {analyse : Analyser} {dep : Dependency} {s : Script Value} {wk : Walk}

theorem extendsFrame_returnTop : Upholds (ExtendsFrame r.base) anyValue (returnTop r wk) := by
  have hK := composes_extendsFrame r.base
  refine (neutral_peekOrNil.upholds hK).bind hK fun v => ?_
  exact ((neutral_store _).upholds hK).bind hK fun _ => (neutral_pure _).upholds hK

theorem extendsFrame_walkJump (n : Nat) :
    Upholds (ExtendsFrame r.base) anyValue (walkJump s r wk n) := by
  have hK := composes_extendsFrame r.base
  refine ((neutral_ofExcept _).upholds hK).bind hK fun target => ?_
  by_cases h : target > wk.pos
  · simp only [if_pos h]
    exact ((neutral_suspendPath target).upholds hK).andReturn hK _ fun _ _ _ => trivial
  · simp only [if_neg h]
    by_cases hback : wk.backEdges.contains wk.pos = true
    · simp only [if_pos hback]
      exact (neutral_pure _).upholds hK
    · simp only [if_neg hback]
      exact (neutral_heedInterrupt.upholds hK).bind hK fun _ => (neutral_pure _).upholds hK

theorem neutral_walkBranch (target : Nat) : Neutral (walkBranch r wk target) := by
  have hwait : ∀ wk' : Walk, Neutral (do
      return wk'.wait (← suspendPath r target) : Run Walk) :=
    fun _ => (neutral_suspendPath target).andReturn composes_retained _ fun _ _ _ => trivial
  exact walkBranch_cases (fun _ => hwait wk) (fun _ _ => neutral_pure _) fun _ _ => hwait _

theorem neutral_loopElement (f : List Value) : Neutral (loopElement f) := by
  unfold loopElement
  split
  · exact (neutral_store _).bind composes_retained fun _ => neutral_pure _
  · exact neutral_pure _

theorem extendsFrame_walkLoop (n : Nat) (withKey : Bool) :
    Upholds (ExtendsFrame r.base) anyValue (walkLoop s r wk n withKey) := by
  have hK := composes_extendsFrame r.base
  refine ((neutral_ofExcept _).upholds hK).bind hK fun target => ?_
  refine ((neutral_suspendPath target).upholds hK).bind hK fun path => ?_
  by_cases h : wk.enteredLoops.contains wk.pos = true
  · simp only [if_pos h]
    exact (extendsFrame_setFrame _).bind hK fun _ => (neutral_pure _).upholds hK
  · simp only [if_neg h]
    refine ((neutral_loopElement _).upholds hK).bind hK fun entry => ?_
    obtain ⟨key, v⟩ := entry
    have hpush : ∀ wk' : Walk, Upholds (ExtendsFrame r.base) anyValue (do
        push v
        return wk' : Run Walk) :=
      fun _ => (extendsFrame_push v).bind hK fun _ => (neutral_pure _).upholds hK
    cases withKey with
    | false => exact hpush _
    | true => exact (extendsFrame_push key).bind hK fun _ => hpush _

theorem neutral_variableInPass (var : Variable) : Neutral (variableInPass var dep) := by
  refine neutral_context.bind composes_retained fun c => ?_
  cases c.registry.lookup? var with
  | some node => exact neutral_store _
  | none => exact neutral_context.bind composes_retained fun _ => neutral_pure _

theorem extendsFrame_walkCall (hanalyse : ∀ f args, Neutral (analyse f args)) (n : Nat)
    (op : Opcode) : Upholds (ExtendsFrame r.base) anyValue (walkCall analyse s r wk n op) := by
  have hK := composes_extendsFrame r.base
  refine ((neutral_ofExcept _).upholds hK).bind hK fun params => ?_
  refine (extendsFrame_takeManyOrNil n).bind hK fun args => ?_
  refine extendsFrame_takeOrNil.bind hK fun function => ?_
  have hpush : ∀ v, Upholds (ExtendsFrame r.base) anyValue (do
      push v
      return wk.goto (wk.pos + 1 + n) : Run Walk) :=
    fun v => (extendsFrame_push v).bind hK fun _ => (neutral_pure _).upholds hK
  by_cases h : op = .closure
  · simp only [if_pos h]
    exact ((neutral_store _).upholds hK).bind hK hpush
  · simp only [if_neg h]
    exact ((hanalyse _ _).upholds hK).bind hK hpush

/-- What is put on the frame in the end. -/
theorem extendsFrame_pushNext {x : Run Value} (hx : Upholds (ExtendsFrame base) anyValue x) :
    Upholds (ExtendsFrame base) anyValue (do
      push (← x)
      return wk.next : Run Walk) := by
  have hK := composes_extendsFrame base
  refine hx.bind hK fun v => ?_
  exact (extendsFrame_push v).bind hK fun _ => (neutral_pure _).upholds hK

/-- An instruction of a pass changes at most its frame and its scope. -/
theorem extendsFrame_walkInstr (hanalyse : ∀ f args, Neutral (analyse f args)) (i : Instruction) :
    Upholds (ExtendsFrame r.base) anyValue (walkInstr analyse dep s r wk i) := by
  have hK := composes_extendsFrame r.base
  have hnext : ∀ wk : Walk, Upholds (ExtendsFrame r.base) anyValue (pure wk.next : Run Walk) :=
    fun _ => (neutral_pure _).upholds hK
  rcases i with ⟨opcode, n⟩
  cases opcode with
  | nop => exact hnext wk
  | pushConst => exact extendsFrame_pushNext ((neutral_ofExcept _).upholds hK)
  | pop => exact extendsFrame_takeOrNil.bind hK fun _ => hnext wk
  | dup =>
    refine (neutral_frame.upholds hK).bind hK fun f => ?_
    exact (extendsFrame_push _).bind hK fun _ => hnext wk
  | jump => exact extendsFrame_walkJump n
  | jumpIfNot =>
    refine ((neutral_ofExcept _).upholds hK).bind hK fun target => ?_
    refine extendsFrame_takeOrNil.bind hK fun _ => ?_
    exact ((neutral_walkBranch target).upholds hK).bind hK fun wk => hnext wk
  | jumpScAnd | jumpScOr =>
    refine ((neutral_ofExcept _).upholds hK).bind hK fun target => ?_
    refine ((neutral_walkBranch target).upholds hK).bind hK fun wk => ?_
    exact extendsFrame_takeOrNil.bind hK fun _ => hnext wk
  | loop => exact extendsFrame_walkLoop n false
  | loopWithKey => exact extendsFrame_walkLoop n true
  | ret => exact extendsFrame_returnTop
  | getVar => exact extendsFrame_pushNext ((neutral_variableInPass _).upholds hK)
  | setVar =>
    refine (neutral_peekOrNil.upholds hK).bind hK fun v => ?_
    exact ((extendsScope_bindVariable _ v).mono (·.extendsFrame r.base)).bind hK fun _ => hnext wk
  | memberC =>
    refine ((neutral_ofExcept _).upholds hK).bind hK fun key => ?_
    refine extendsFrame_takeOrNil.bind hK fun object => ?_
    exact extendsFrame_pushNext ((neutral_store _).upholds hK)
  | makeObject =>
    refine (extendsFrame_takeManyOrNil _).bind hK fun values => ?_
    exact extendsFrame_pushNext ((neutral_store _).upholds hK)
  | call => exact extendsFrame_walkCall hanalyse n .call
  | closure => exact extendsFrame_walkCall hanalyse n .closure
  | tailCall => exact extendsFrame_walkCall hanalyse n .tailCall
  | unary =>
    refine extendsFrame_takeOrNil.bind hK fun a => ?_
    refine ((neutral_ofExcept _).upholds hK).bind hK fun op => ?_
    exact extendsFrame_pushNext ((neutral_store _).upholds hK)
  | binary =>
    refine ((neutral_ofExcept _).upholds hK).bind hK fun op => ?_
    refine extendsFrame_takeOrNil.bind hK fun b => ?_
    refine extendsFrame_takeOrNil.bind hK fun a => ?_
    exact extendsFrame_pushNext ((neutral_store _).upholds hK)
  | ternary | quaternary =>
    refine (extendsFrame_takeManyOrNil _).bind hK fun _ => ?_
    exact (extendsFrame_push _).bind hK fun _ => hnext wk

/-! ## Inside the scope of a pass -/

variable {outer : Environment}

/-- Whenever `x` comes back from inside a scope that was entered in `outer`, it is still inside, and
has changed at most the frame above `base`. -/
def StaysInside (outer : Environment) (base : Nat) (x : Run α) : Prop :=
  ∀ m, outer.Nested m.context.env → Returned (x m).1 →
    outer.Nested (x m).2.context.env ∧ OnFrame base m (x m).2

theorem Upholds.staysInside {P : α → Machine → Prop} {x : Run α}
    (h : Upholds (ExtendsFrame base) P x) : StaysInside outer base x := by
  intro m hin hr
  obtain ⟨hk, -⟩ := h m hr
  exact ⟨hin.extends hk.env, hk.toOnFrame⟩

theorem StaysInside.bind {x : Run α} {f : α → Run β} (hx : StaysInside outer base x)
    (hf : ∀ a, StaysInside outer base (f a)) : StaysInside outer base (x >>= f) := by
  intro m hin hr
  have hx := hx m hin
  rw [run_bind] at hr ⊢
  generalize x m = out at hx hr ⊢
  rcases out with ⟨stop | a, m₁⟩
  · obtain ⟨e, rfl⟩ := hr.error_of
    exact hx trivial
  · obtain ⟨hin₁, hbelow⟩ := hx trivial
    obtain ⟨hin₂, hbelow₂⟩ := hf a m₁ hin₁ hr
    exact ⟨hin₂, hbelow.trans hbelow₂⟩

/-- Following another path undoes the bindings of the pass and puts back those of the path. -/
theorem resumePath_staysInside (hmark : r.mark = outer.hiddenCount) (path : WaitingPath) :
    StaysInside outer r.base (resumePath r path) := by
  refine (extendsFrame_setFrame path.frame).staysInside.bind fun _ m hin _ => ?_
  refine ⟨?_, .of_stack rfl rfl fun _ hid => hid⟩
  show outer.Nested ((m.context.env.unwindTo r.mark).setAll (boundOnly path.bindings))
  rw [hmark]
  exact hin.unwindTo.setAll _

theorem resume_staysInside (hmark : r.mark = outer.hiddenCount) :
    StaysInside outer r.base (resume r wk) := by
  have hpure : ∀ next : Option Walk, StaysInside outer r.base (pure next : Run (Option Walk)) :=
    fun _ => ((neutral_pure _).upholds (composes_extendsFrame r.base)).staysInside
  unfold resume
  by_cases hl : wk.live = true
  · simp only [if_pos hl]
    exact hpure _
  · simp only [if_neg hl]
    cases earliest? wk.pending with
    | none => exact hpure _
    | some index =>
      dsimp only
      cases wk.pending[index]? with
      | none => exact hpure _
      | some path => exact (resumePath_staysInside hmark path).bind fun _ => hpure _

theorem walkStep_staysInside (hanalyse : ∀ f args, Neutral (analyse f args))
    (hmark : r.mark = outer.hiddenCount) :
    StaysInside outer r.base (walkStep analyse dep s r wk) := by
  have hpure : ∀ next : Option Walk, StaysInside outer r.base (pure next : Run (Option Walk)) :=
    fun _ => ((neutral_pure _).upholds (composes_extendsFrame r.base)).staysInside
  refine (resume_staysInside hmark).bind fun next => ?_
  cases next with
  | none => exact hpure none
  | some wk₁ =>
    refine (extendsFrame_mergeWaiting _ wk₁).staysInside.bind fun wk₂ => ?_
    cases s.code[wk₂.pos]? with
    | none => exact extendsFrame_returnTop.staysInside.bind fun _ => hpure _
    | some i => exact (extendsFrame_walkInstr hanalyse i).staysInside.bind fun _ => hpure _

theorem walkFrom_staysInside (hanalyse : ∀ f args, Neutral (analyse f args))
    (hmark : r.mark = outer.hiddenCount) (budget : Nat) :
    StaysInside outer r.base (walkFrom analyse dep s r budget wk) := by
  induction budget generalizing wk with
  | zero => exact fun m _ hr => absurd hr id
  | succ budget ih =>
    refine (walkStep_staysInside hanalyse hmark).bind fun next => ?_
    cases next with
    | none =>
      exact ((neutral_pure wk.result).upholds (composes_extendsFrame r.base)).staysInside
    | some wk' => exact ih

/-! ## Analyses -/

/-- A pass leaves its scope, drops its frame and gives back what was there. -/
theorem passWith_neutral (hanalyse : ∀ f args, Neutral (analyse f args)) (budget : Nat)
    (s : Script Value) (args : Bindings) : Neutral (passWith analyse budget dep s args) := by
  intro m hr
  obtain ⟨m₁, hpass, hwalk, hreturned⟩ := passWith_cases hr
  have hin : m.context.env.Nested (passStart s args m).context.env :=
    (Environment.nested_enterScope m.context.env).setAll args
  have hinside : StaysInside m.context.env m.context.stack.length
      (walkFrom analyse dep s (passRegion m) budget .start) :=
    walkFrom_staysInside hanalyse rfl budget
  obtain ⟨hin₁, hbelow⟩ := hinside (passStart s args m) hin hreturned
  rw [hwalk] at hin₁ hbelow
  obtain ⟨-, hbottom⟩ := hbelow.stack (Nat.le_refl _)
  have hstack : bottom m.context.stack.length m₁.context.stack = m.context.stack := by
    rw [hbottom]
    show m.context.stack.drop (m.context.stack.length - m.context.stack.length) = _
    rw [Nat.sub_self, List.drop_zero]
  have hanalyzing : m₁.context.analyzing.filter (· ≠ s.id) ⊆ m.context.analyzing := by
    intro id hid
    obtain ⟨hmem, hne⟩ := List.mem_filter.1 hid
    rcases List.mem_append.1 (hbelow.analyzing hmem) with hold | hself
    · exact hold
    · rw [List.mem_singleton.1 hself] at hne
      simp at hne
  rw [hpass]
  exact ⟨⟨hstack, hbelow.callDepth, hin₁.leaveScope, hanalyzing⟩, fun _ _ => trivial⟩

theorem performHooks_neutral {pass : Script Value → Run Value}
    (hanalyse : ∀ f args, Neutral (analyse f args)) (hpass : ∀ s, Neutral (pass s))
    (last : Value) (actions : List (HookAction Value)) :
    Neutral (performHooks analyse pass dep last actions) := by
  have hU := composes_retained
  induction actions generalizing last with
  | nil => exact neutral_pure last
  | cons action rest ih =>
    have haction : Neutral (performHook analyse pass dep action) := by
      cases action with
      | give v => exact neutral_pure v
      | logVariable var => exact (neutral_logVariable var).bind hU fun _ => neutral_pure _
      | get var => exact neutral_readVariable var
      | raise e => exact upholds_fail hU e
      | eval s => exact hpass s
      | call function args => exact hanalyse function args
      | read owner => exact (neutral_store _).bind hU fun _ => neutral_pure _
      | markContent => exact (neutral_store _).bind hU fun _ => neutral_pure _
    exact haction.bind hU ih

theorem trackObject_neutral (hanalyse : ∀ f args, Neutral (analyse f args))
    (body : ObjectBody Value) : Neutral (trackObject analyse dep body) := by
  have hU := composes_retained
  cases body with
  | host object =>
    unfold trackObject
    dsimp only
    cases object.owners with
    | none => exact neutral_pure _
    | some owners =>
      refine (neutral_store _).bind hU fun _ => ?_
      refine (neutral_store _).bind hU fun var => ?_
      exact neutral_context.bind hU fun _ => neutral_pure _
  | placeholder node => exact neutral_pure _
  | union a b =>
    refine (hanalyse a []).bind hU fun x => ?_
    exact (hanalyse b []).bind hU fun y => neutral_store _

theorem analyseScript_neutral (hanalyse : ∀ f args, Neutral (analyse f args)) (budget : Nat)
    (s : Script Value) (args : Bindings) :
    Neutral (analyseScript analyse budget dep s args) := by
  refine neutral_context.bind composes_retained fun c => ?_
  by_cases h : c.analyzing.contains s.id = true
  · simp only [if_pos h]
    exact neutral_pure _
  · simp only [if_neg h]
    exact neutral_counted (passWith_neutral hanalyse budget s args).attempt (noFailure_attempt _)
      neutral_ofExcept

theorem analyseWith_neutral (hanalyse : ∀ f args, Neutral (analyse f args)) (budget : Nat)
    (function : Value) (args : Bindings) :
    Neutral (analyseWith analyse budget dep function args) := by
  have hS := composes_extendsScope
  cases function with
  | script s => exact analyseScript_neutral hanalyse budget s args
  | builtin _ f =>
    unfold analyseWith
    dsimp only
    cases f.hook with
    | none => exact neutral_pure _
    | some actions =>
      have hpass : ∀ s, Neutral (passWith analyse budget dep s []) :=
        fun s => passWith_neutral hanalyse budget s []
      have hhooks : Neutral (performHooks analyse _ dep .nil actions) :=
        performHooks_neutral hanalyse hpass .nil actions
      exact neutral_inScope ((extendsScope_bindAll args).bind hS fun _ => hhooks.upholds hS)
  | closure _ inner captured => exact hanalyse inner (captured ++ args)
  | composition _ first second =>
    refine (hanalyse first args).bind composes_retained fun intermediate => ?_
    exact (neutral_store _).bind composes_retained fun var => hanalyse second [(var, intermediate)]
  | object _ body =>
    exact neutral_inScope
      ((extendsScope_bindAll args).bind hS fun _ => (trackObject_neutral hanalyse body).upholds hS)
  | _ => exact neutral_pure _

/-- Analyses nest: the induction is on the budget, which bounds their depth. -/
theorem analyseFor_neutral (budget : Nat) (function : Value) (args : Bindings) :
    Neutral (analyseFor dep budget function args) := by
  induction budget generalizing function args with
  | zero => exact neutral_throw _
  | succ budget ih => exact analyseWith_neutral ih budget function args

/-! ## What is apart from operands and variables -/

/-- A part of the context is the same afterwards, however the evaluation ends. -/
def Keeps {γ : Type} (part : Context → γ) (x : Run α) : Prop :=
  ∀ m, part (x m).2.context = part m.context

/-- A part of the context that neither operands nor variables belong to. -/
class Apart {γ : Type} (part : Context → γ) : Prop where
  stack : ∀ c stack, part { c with stack } = part c
  env : ∀ c env, part { c with env } = part c

instance : Apart Context.registry := ⟨fun _ _ => rfl, fun _ _ => rfl⟩

instance : Apart Context.analyzing := ⟨fun _ _ => rfl, fun _ _ => rfl⟩

variable {γ : Type} {part : Context → γ}

theorem Keeps.bind {x : Run α} {f : α → Run β} (hx : Keeps part x)
    (hf : ∀ a, Keeps part (f a)) : Keeps part (x >>= f) := by
  intro m
  have hx := hx m
  rw [run_bind]
  generalize x m = out at hx ⊢
  rcases out with ⟨stop | a, m₁⟩
  · exact hx
  · exact (hf a m₁).trans hx

theorem Keeps.attempt {x : Run α} (hx : Keeps part x) : Keeps part (attempt x) := by
  intro m
  have hx := hx m
  rw [run_attempt]
  generalize x m = out at hx ⊢
  rcases out with ⟨(e | p | g | _) | a, m₁⟩ <;> exact hx

theorem keeps_pure (a : α) : Keeps part (pure a : Run α) := fun _ => rfl

theorem keeps_fail (e : EvalError) : Keeps part (fail e : Run α) := fun _ => rfl

theorem keeps_store (x : StateM Store α) : Keeps part (store x) := fun _ => rfl

theorem keeps_context : Keeps part context := fun _ => rfl

theorem keeps_change {f : Context → Context} (h : ∀ c, part (f c) = part c) :
    Keeps part (change f) := fun m => h m.context

theorem keeps_ofExcept (r : Except EvalError α) : Keeps part (ofExcept r) := by
  cases r <;> exact fun _ => rfl

theorem keeps_suspendPath (target : Nat) : Keeps part (suspendPath r target) :=
  fun _ => rfl

theorem keeps_peekOrNil : Keeps part (peekOrNil base) := fun _ => rfl

theorem keeps_heedInterrupt : Keeps part heedInterrupt := by
  refine keeps_context.bind fun c => ?_
  refine (keeps_store _).bind fun stopped => ?_
  cases stopped
  · exact keeps_pure ()
  · exact keeps_fail _

theorem keeps_returnTop : Keeps part (returnTop r wk) := by
  refine keeps_peekOrNil.bind fun v => ?_
  exact (keeps_store _).bind fun _ => keeps_pure _

theorem keeps_walkBranch (target : Nat) : Keeps part (walkBranch r wk target) := by
  have hwait : ∀ wk' : Walk, Keeps part (do
      return wk'.wait (← suspendPath r target) : Run Walk) :=
    fun _ => (keeps_suspendPath target).bind fun _ => keeps_pure _
  exact walkBranch_cases (fun _ => hwait wk) (fun _ _ => keeps_pure _) fun _ _ => hwait _

theorem keeps_walkJump (n : Nat) : Keeps part (walkJump s r wk n) := by
  refine (keeps_ofExcept _).bind fun target => ?_
  by_cases h : target > wk.pos
  · simp only [if_pos h]
    exact (keeps_suspendPath target).bind fun _ => keeps_pure _
  · simp only [if_neg h]
    by_cases hback : wk.backEdges.contains wk.pos = true
    · simp only [if_pos hback]
      exact keeps_pure _
    · simp only [if_neg hback]
      exact keeps_heedInterrupt.bind fun _ => keeps_pure _

theorem keeps_variableInPass (var : Variable) :
    Keeps part (variableInPass var dep) := by
  refine keeps_context.bind fun c => ?_
  cases c.registry.lookup? var with
  | some node => exact keeps_store _
  | none => exact keeps_context.bind fun _ => keeps_pure _

theorem keeps_performHooks {pass : Script Value → Run Value}
    (hanalyse : ∀ f args, Keeps part (analyse f args)) (hpass : ∀ s, Keeps part (pass s))
    (last : Value) (actions : List (HookAction Value)) :
    Keeps part (performHooks analyse pass dep last actions) := by
  induction actions generalizing last with
  | nil => exact keeps_pure last
  | cons action rest ih =>
    have haction : Keeps part (performHook analyse pass dep action) := by
      cases action with
      | give v => exact keeps_pure v
      | logVariable var =>
        have hlog : Keeps part (logVariable var) := fun _ => rfl
        exact hlog.bind fun _ => keeps_pure _
      | get var =>
        refine keeps_context.bind fun c => ?_
        cases c.env.get? var with
        | none => exact (keeps_store _).bind fun _ => keeps_fail _
        | some v => exact keeps_pure v
      | raise e => exact keeps_fail e
      | eval s => exact hpass s
      | call function args => exact hanalyse function args
      | read owner => exact (keeps_store _).bind fun _ => keeps_pure _
      | markContent => exact (keeps_store _).bind fun _ => keeps_pure _
    exact haction.bind ih

theorem keeps_trackObject (hanalyse : ∀ f args, Keeps part (analyse f args))
    (body : ObjectBody Value) : Keeps part (trackObject analyse dep body) := by
  cases body with
  | host object =>
    unfold trackObject
    dsimp only
    cases object.owners with
    | none => exact keeps_pure _
    | some owners =>
      refine (keeps_store _).bind fun _ => (keeps_store _).bind fun var => ?_
      exact keeps_context.bind fun _ => keeps_pure _
  | placeholder node => exact keeps_pure _
  | union a b =>
    exact (hanalyse a []).bind fun x => (hanalyse b []).bind fun y => keeps_store _

section

variable [Apart part]

theorem keeps_bindVariable (var : Variable) (v : Value) : Keeps part (bindVariable var v) :=
  keeps_change fun c => Apart.env c _

theorem keeps_push (v : Value) : Keeps part (push v) := keeps_change fun c => Apart.stack c _

theorem keeps_setFrame (f : List Value) : Keeps part (setFrame base f) :=
  keeps_change fun c => Apart.stack c _

theorem Keeps.inScope {x : Run α} (hx : Keeps part x) : Keeps part (inScope x) := by
  have henter : Keeps part enterScope := fun m => Apart.env m.context _
  have hleave : ∀ mark, Keeps part (leaveScope mark) := fun _ => keeps_change fun c => Apart.env c _
  refine henter.bind fun mark => hx.attempt.bind fun result => ?_
  exact (hleave mark).bind fun _ => keeps_ofExcept result

theorem keeps_takeOrNil : Keeps part (takeOrNil base) := by
  have hoperands : Keeps part operands := fun _ => rfl
  refine hoperands.bind fun stack => ?_
  cases stack with
  | nil => exact keeps_pure _
  | cons v rest =>
    by_cases h : base ≤ rest.length
    · simp only [if_pos h]
      exact (keeps_change fun c => Apart.stack c rest).bind fun _ => keeps_pure v
    · simp only [if_neg h]
      exact keeps_pure _

theorem keeps_takeManyOrNil (n : Nat) : Keeps part (takeManyOrNil base n) := by
  induction n with
  | zero => exact keeps_pure _
  | succ n ih =>
    exact keeps_takeOrNil.bind fun _ => ih.bind fun _ => keeps_pure _

theorem keeps_mergePath (path : WaitingPath) : Keeps part (mergePath r path) := by
  have hmerge : ∀ bindings, Keeps part (mergeBindings bindings) := by
    intro bindings
    induction bindings with
    | nil => exact keeps_pure ()
    | cons b rest ih =>
      refine keeps_context.bind fun c => ?_
      cases c.env.get? b.1 with
      | none => exact (keeps_bindVariable _ _).bind fun _ => ih
      | some current =>
        refine (keeps_store _).bind fun _ => ?_
        exact (keeps_bindVariable _ _).bind fun _ => ih
  have hframe : Keeps part (frame r.base) := fun _ => rfl
  refine hframe.bind fun live => (keeps_store _).bind fun joined => ?_
  exact (keeps_setFrame _).bind fun _ => hmerge _

theorem keeps_mergeWaiting (tries : Nat) (wk : Walk) :
    Keeps part (mergeWaiting r wk tries) := by
  induction tries generalizing wk with
  | zero => exact keeps_pure _
  | succ tries ih =>
    unfold mergeWaiting
    cases wk.pending.findIdx? fun p => p.target == wk.pos with
    | none => exact keeps_pure _
    | some index =>
      dsimp only
      cases wk.pending[index]? with
      | none => exact keeps_pure _
      | some path => exact (keeps_mergePath path).bind fun _ => ih _

theorem keeps_resume : Keeps part (resume r wk) := by
  unfold resume
  by_cases hl : wk.live = true
  · simp only [if_pos hl]
    exact keeps_pure _
  · simp only [if_neg hl]
    cases earliest? wk.pending with
    | none => exact keeps_pure _
    | some index =>
      dsimp only
      cases wk.pending[index]? with
      | none => exact keeps_pure _
      | some path =>
        have hpath : Keeps part (resumePath r path) :=
          (keeps_setFrame _).bind fun _ => keeps_change fun c => Apart.env c _
        exact hpath.bind fun _ => keeps_pure _

theorem keeps_walkLoop (n : Nat) (withKey : Bool) :
    Keeps part (walkLoop s r wk n withKey) := by
  refine (keeps_ofExcept _).bind fun target => ?_
  refine (keeps_suspendPath target).bind fun path => ?_
  by_cases h : wk.enteredLoops.contains wk.pos = true
  · simp only [if_pos h]
    exact (keeps_setFrame _).bind fun _ => keeps_pure _
  · simp only [if_neg h]
    have helement : Keeps part (loopElement path.frame) := by
      unfold loopElement
      split
      · exact (keeps_store _).bind fun _ => keeps_pure _
      · exact keeps_pure _
    refine helement.bind fun entry => ?_
    have hpush : ∀ wk' : Walk, Keeps part (do
        push entry.2
        return wk' : Run Walk) :=
      fun _ => (keeps_push _).bind fun _ => keeps_pure _
    cases withKey with
    | false => exact hpush _
    | true => exact (keeps_push entry.1).bind fun _ => hpush _

theorem keeps_walkCall (hanalyse : ∀ f args, Keeps part (analyse f args)) (n : Nat)
    (op : Opcode) : Keeps part (walkCall analyse s r wk n op) := by
  refine (keeps_ofExcept _).bind fun params => ?_
  refine (keeps_takeManyOrNil n).bind fun args => ?_
  refine keeps_takeOrNil.bind fun function => ?_
  have hpush : ∀ v, Keeps part (do
      push v
      return wk.goto (wk.pos + 1 + n) : Run Walk) :=
    fun v => (keeps_push v).bind fun _ => keeps_pure _
  by_cases h : op = .closure
  · simp only [if_pos h]
    exact (keeps_store _).bind hpush
  · simp only [if_neg h]
    exact (hanalyse _ _).bind hpush

/-- An instruction of a pass keeps what its analyses keep. -/
theorem keeps_walkInstr (hanalyse : ∀ f args, Keeps part (analyse f args))
    (i : Instruction) : Keeps part (walkInstr analyse dep s r wk i) := by
  have hnext : ∀ wk : Walk, Keeps part (pure wk.next : Run Walk) :=
    fun _ => keeps_pure _
  have hpushNext : ∀ {x : Run Value}, Keeps part x → Keeps part (do
      push (← x)
      return wk.next : Run Walk) :=
    fun hx => hx.bind fun v => (keeps_push v).bind fun _ => hnext wk
  rcases i with ⟨opcode, n⟩
  cases opcode with
  | nop => exact hnext wk
  | pushConst => exact hpushNext (keeps_ofExcept _)
  | pop => exact keeps_takeOrNil.bind fun _ => hnext wk
  | dup =>
    have hframe : Keeps part (frame r.base) := fun _ => rfl
    exact hframe.bind fun f => (keeps_push _).bind fun _ => hnext wk
  | jump => exact keeps_walkJump n
  | jumpIfNot =>
    refine (keeps_ofExcept _).bind fun target => ?_
    refine keeps_takeOrNil.bind fun _ => ?_
    exact (keeps_walkBranch target).bind fun wk => hnext wk
  | jumpScAnd | jumpScOr =>
    refine (keeps_ofExcept _).bind fun target => ?_
    refine (keeps_walkBranch target).bind fun wk => ?_
    exact keeps_takeOrNil.bind fun _ => hnext wk
  | loop => exact keeps_walkLoop n false
  | loopWithKey => exact keeps_walkLoop n true
  | ret => exact keeps_returnTop
  | getVar => exact hpushNext (keeps_variableInPass _)
  | setVar =>
    refine keeps_peekOrNil.bind fun v => ?_
    exact (keeps_bindVariable _ v).bind fun _ => hnext wk
  | memberC =>
    refine (keeps_ofExcept _).bind fun key => ?_
    refine keeps_takeOrNil.bind fun object => ?_
    exact hpushNext (keeps_store _)
  | makeObject =>
    exact (keeps_takeManyOrNil _).bind fun values => hpushNext (keeps_store _)
  | call => exact keeps_walkCall hanalyse n .call
  | closure => exact keeps_walkCall hanalyse n .closure
  | tailCall => exact keeps_walkCall hanalyse n .tailCall
  | unary =>
    refine keeps_takeOrNil.bind fun a => (keeps_ofExcept _).bind fun op => ?_
    exact hpushNext (keeps_store _)
  | binary =>
    refine (keeps_ofExcept _).bind fun op => keeps_takeOrNil.bind fun b => ?_
    exact keeps_takeOrNil.bind fun a => hpushNext (keeps_store _)
  | ternary | quaternary =>
    refine (keeps_takeManyOrNil _).bind fun _ => ?_
    exact (keeps_push _).bind fun _ => hnext wk

theorem keeps_walkStep (hanalyse : ∀ f args, Keeps part (analyse f args)) :
    Keeps part (walkStep analyse dep s r wk) := by
  refine keeps_resume.bind fun next => ?_
  cases next with
  | none => exact keeps_pure _
  | some wk₁ =>
    refine (keeps_mergeWaiting _ wk₁).bind fun wk₂ => ?_
    cases s.code[wk₂.pos]? with
    | none => exact keeps_returnTop.bind fun _ => keeps_pure _
    | some i => exact (keeps_walkInstr hanalyse i).bind fun _ => keeps_pure _

theorem keeps_walkFrom (hanalyse : ∀ f args, Keeps part (analyse f args))
    (budget : Nat) (wk : Walk) : Keeps part (walkFrom analyse dep s r budget wk) := by
  induction budget generalizing wk with
  | zero => exact fun _ => rfl
  | succ budget ih =>
    refine (keeps_walkStep hanalyse).bind fun next => ?_
    cases next with
    | none => exact keeps_pure _
    | some wk' => exact ih wk'

end

/-! ## What is apart from calls, too -/

/-- A part of the context that the count of calls and the scripts under analysis do not belong to
either. -/
class Unaffected {γ : Type} (part : Context → γ) : Prop extends Apart part where
  callDepth : ∀ c n, part { c with callDepth := n } = part c
  analyzing : ∀ c ids, part { c with analyzing := ids } = part c

instance : Unaffected Context.registry := ⟨fun _ _ => rfl, fun _ _ => rfl⟩

instance : Unaffected Context.settings :=
  { stack := fun _ _ => rfl, env := fun _ _ => rfl
    callDepth := fun _ _ => rfl, analyzing := fun _ _ => rfl }

section

variable [Unaffected part]

theorem keeps_beginCall : Keeps part beginCall := by
  refine keeps_context.bind fun c => ?_
  by_cases h : c.callDepth ≥ c.settings.maxCallDepth
  · simp only [if_pos h]
    exact keeps_fail _
  · simp only [if_neg h]
    exact keeps_change fun c => Unaffected.callDepth c _

theorem keeps_passWith (hanalyse : ∀ f args, Keeps part (analyse f args)) (budget : Nat)
    (s : Script Value) (args : Bindings) : Keeps part (passWith analyse budget dep s args) := by
  have hanalyzing : ∀ f : List Ident → List Ident,
      Keeps part (change fun c => { c with analyzing := f c.analyzing }) :=
    fun f => keeps_change fun c => Unaffected.analyzing c (f c.analyzing)
  have henv : ∀ f : Environment → Environment,
      Keeps part (change fun c => { c with env := f c.env }) :=
    fun f => keeps_change fun c => Apart.env c (f c.env)
  have henter : Keeps part enterScope := fun m => Apart.env m.context _
  have hheight : Keeps part height := fun _ => rfl
  have htruncate : ∀ base, Keeps part (truncate base) :=
    fun _ => keeps_change fun c => Apart.stack c _
  refine (hanalyzing (· ++ [s.id])).bind fun _ => hheight.bind fun base => ?_
  refine henter.bind fun mark => (henv (·.setAll args)).bind fun _ => ?_
  refine (keeps_walkFrom hanalyse budget .start).attempt.bind fun result => ?_
  refine (henv (·.leaveScope mark)).bind fun _ => (htruncate base).bind fun _ => ?_
  exact (hanalyzing (·.filter (· ≠ s.id))).bind fun _ => keeps_ofExcept result

theorem keeps_analyseWith (hanalyse : ∀ f args, Keeps part (analyse f args)) (budget : Nat)
    (function : Value) (args : Bindings) :
    Keeps part (analyseWith analyse budget dep function args) := by
  have hbind : Keeps part (bindAll args) := keeps_change fun c => Apart.env c _
  cases function with
  | script s =>
    refine keeps_context.bind fun c => ?_
    by_cases h : c.analyzing.contains s.id = true
    · simp only [if_pos h]
      exact keeps_pure _
    · simp only [if_neg h]
      have hend : Keeps part endCall := keeps_change fun c => Unaffected.callDepth c _
      refine keeps_beginCall.bind fun _ => ?_
      refine (keeps_passWith hanalyse budget s args).attempt.bind fun result => ?_
      exact hend.bind fun _ => keeps_ofExcept result
  | builtin _ f =>
    unfold analyseWith
    dsimp only
    cases f.hook with
    | none => exact keeps_pure _
    | some actions =>
      refine Keeps.inScope (hbind.bind fun _ => ?_)
      exact keeps_performHooks hanalyse (fun s => keeps_passWith hanalyse budget s []) .nil actions
  | closure _ inner captured => exact hanalyse inner (captured ++ args)
  | composition _ first second =>
    refine (hanalyse first args).bind fun intermediate => ?_
    exact (keeps_store _).bind fun var => hanalyse second [(var, intermediate)]
  | object _ body =>
    exact Keeps.inScope (hbind.bind fun _ => keeps_trackObject hanalyse body)
  | _ => exact keeps_pure _

/-- However deep analyses nest, what is registered stays as it is, and so do the settings. -/
theorem keeps_analyseFor (budget : Nat) (function : Value) (args : Bindings) :
    Keeps part (analyseFor dep budget function args) := by
  induction budget generalizing function args with
  | zero => exact fun _ => rfl
  | succ budget ih => exact keeps_analyseWith ih budget function args

theorem keeps_trackReads (budget : Nat) (dep : Dependency) (s : Script Value) :
    Keeps part (trackReads budget dep s) :=
  keeps_passWith (keeps_analyseFor budget) budget s []

end

end ReactiveScript.Run
