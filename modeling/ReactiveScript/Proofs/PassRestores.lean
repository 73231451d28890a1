import ReactiveScript.Proofs.PassFrame
import ReactiveScript.Proofs.Termination

/-
  What passes give back.

  A pass and the analysis of a call give back operands, call depth, the scope and every variable that
  is not bound at a closed level, whenever they come back (`Retained.preserved`).

  The scripts under analysis are not protected in this way: a pass takes its script out in the end,
  also if it was there before. Only a dependency hook can begin a pass over a script that is under
  analysis. Where no value has one, no value that an analysis meets has one either, so that every
  analysis is steady: the same scripts are under analysis afterwards (`steady_analyseFor`).
-/

namespace ReactiveScript

open World

/-- The value has no dependency hook. -/
def Value.Hookless : Value → Prop
  | .builtin _ f => f.hook = none
  | _ => True

theorem hookless_of_made (v : Value) (hv : v.Made) : v.Hookless := by
  cases v with
  | builtin id f => exact False.elim hv
  | _ => trivial

namespace Run

variable {α β : Type} {w : World} {m : Machine}
variable {B : α → World → Machine → Prop} {C : β → World → Machine → Prop}

/-! ## Steady evaluations -/

/-- If it comes back the same scripts are under analysis, and if it comes to a value its machine fits
a later world in which `B` holds. -/
structure Steady (w : World) (B : α → World → Machine → Prop) (x : Run α) (m : Machine) : Prop where
  analyzing : Returned (x m).1 → (x m).2.context.analyzing = m.context.analyzing
  after : After w B (x m)

theorem steady_pure (h : w.Fits m) {a : α} (hB : B a w m) : Steady w B (pure a) m :=
  ⟨fun _ => rfl, after_pure h hB⟩

/-- What does not touch the list, and ends whatever its analyses do. -/
theorem Ends.steady {x : Run α} (h : Ends w B (fun _ => x) m) (hk : Keeps Context.analyzing x) :
    Steady w B x m := by
  obtain ⟨out, ⟨enough, henough⟩, -, hafter⟩ := h
  have hout : x m = out := henough enough (Nat.le_refl _)
  exact ⟨fun _ => hk m, hout ▸ hafter⟩

theorem Steady.bind {x : Run α} {f : α → Run β} (hx : Steady w B x m)
    (hf : ∀ a w' m', w.Le w' → w'.Fits m' → B a w' m' → Steady w' C (f a) m') :
    Steady w C (x >>= f) m := by
  refine ⟨fun hr => ?_, hx.after.bind fun a w' m' hle hfit hB => (hf a w' m' hle hfit hB).after⟩
  have hanalyzing := hx.analyzing hr.of_bind
  rcases hrun : x m with ⟨stop | a, m₁⟩
  · rw [run_bind_error hrun]
    rwa [hrun] at hanalyzing
  · rw [run_bind_ok hrun] at hr ⊢
    obtain ⟨w₁, hle, hfit, hB⟩ := hx.after a (congrArg Prod.fst hrun)
    rw [hrun] at hanalyzing hfit hB
    exact ((hf a w₁ m₁ hle hfit hB).analyzing hr).trans hanalyzing

/-- The first part of a sequence is known exactly. -/
theorem Steady.bind_ok {x : Run α} {f : α → Run β} {m' : Machine} {a : α}
    (hx : x m = (.ok a, m')) (hm : m'.context.analyzing = m.context.analyzing)
    (hf : Steady w C (f a) m') : Steady w C (x >>= f) m := by
  refine ⟨fun hr => ?_, After.bind_ok hx hf.after⟩
  rw [run_bind_ok hx] at hr ⊢
  exact (hf.analyzing hr).trans hm

/-- The first part of a sequence fails. -/
theorem Steady.bind_fail {x : Run α} {f : α → Run β} {e : EvalError}
    (hx : x m = (.error (.error e), m)) : Steady w C (x >>= f) m := by
  refine ⟨fun _ => ?_, fun b hb => ?_⟩
  · rw [run_bind_error hx]
  · rw [run_bind_error hx] at hb
    cases hb

/-- A result that was computed without the machine. -/
theorem steady_except {x : Except EvalError α} {f : α → Run β}
    (h : ∀ a, x = .ok a → Steady w C (f a) m) : Steady w C (ofExcept x >>= f) m := by
  cases x with
  | ok a => exact h a rfl
  | error e => exact ⟨fun _ => rfl, fun _ he => by cases he⟩

theorem Steady.mono {B' : α → World → Machine → Prop} {x : Run α} (h : Steady w B x m)
    (hB : ∀ a w' m', w.Le w' → B a w' m' → B' a w' m') : Steady w B' x m :=
  ⟨h.analyzing, h.after.mono hB⟩

theorem steady_inScope {x : Run Value} (h : w.Fits m)
    (hx : ∀ m', w.Fits m' → Steady w (fun v w' _ => w'.Knows v) x m') :
    Steady w (fun v w' _ => w'.Knows v) (inScope x) m := by
  have hx := hx (enterScope m).2 (h.setEnv h.env.enterScope)
  refine ⟨fun hr => ?_, fun v hv => ?_⟩
  · rw [run_inScope] at hr ⊢
    rcases attempt_cases hr with ⟨e, m₁, hrun, he⟩ | ⟨v, m₁, hrun, he⟩
    all_goals
      rw [he]
      have hanalyzing := hx.analyzing
      rw [hrun] at hanalyzing
      exact hanalyzing trivial
  · rcases hout : inScope x m with ⟨result, m'⟩
    rw [hout] at hv
    obtain rfl : result = .ok v := hv
    obtain ⟨m₁, hrun, rfl⟩ := run_inScope_eq_ok hout
    obtain ⟨w₁, hle, hfit, hknown⟩ := hx.after v (congrArg Prod.fst hrun)
    rw [hrun] at hfit
    exact ⟨w₁, hle, hfit.setEnv (hfit.env.leaveScope _), hknown⟩

/-! ## Steps of a pass -/

variable {analyse : Analyser} {dep : Dependency} {s : Script Value} {r : Region} {wk : Walk}

/-- From a world on, the analysis of a known value with known arguments is steady. -/
def SteadyCalls (analyse : Analyser) (w : World) : Prop :=
  ∀ w' m function args, w.Le w' → w'.Fits m → w'.Knows function → (∀ b ∈ args, w'.Knows b.2) →
    Steady w' (fun v w'' _ => w''.Knows v) (analyse function args) m

theorem SteadyCalls.later {w' : World} (h : SteadyCalls analyse w) (hle : w.Le w') :
    SteadyCalls analyse w' :=
  fun w'' m' f args hle' => h w'' m' f args (hle.trans hle')

/-- Only calls are analysed. -/
theorem walkInstr_congr {i : Instruction} (hcall : i.opcode ≠ .call) (htail : i.opcode ≠ .tailCall)
    (analyse analyse' : Analyser) :
    walkInstr analyse dep s r wk i = walkInstr analyse' dep s r wk i := by
  rcases i with ⟨opcode, n⟩
  cases opcode with
  | call => exact absurd rfl hcall
  | tailCall => exact absurd rfl htail
  | _ => rfl

theorem steady_walkCall (hanalyse : SteadyCalls analyse w) (h : w.Fits m) (hk : w.KnowsWalk wk)
    (n : Nat) {op : Opcode} (hop : op ≠ .closure) :
    Steady w (fun wk' w' _ => w'.KnowsWalk wk') (walkCall analyse s r wk n op) m := by
  unfold walkCall
  refine steady_except fun params _ => ?_
  obtain ⟨args, stack, hargs, hP, -⟩ := takeManyOrNil_eq r.base n m
  obtain ⟨hknown, hstack⟩ := hP w.Knows (knows_nil w) h.stack
  have h₁ := h.setStack hstack
  refine Steady.bind_ok hargs rfl ?_
  obtain ⟨function, stack', hfunction, hP', -⟩ := takeOrNil_eq r.base (m.withStack stack)
  obtain ⟨hknown', hstack'⟩ := hP' w.Knows (knows_nil w) h₁.stack
  refine Steady.bind_ok hfunction rfl ?_
  simp only [if_neg hop]
  have hbindings : ∀ b ∈ params.zip args, w.Knows b.2 := fun b hb =>
    hknown b.2 (List.of_mem_zip hb).2
  refine (hanalyse w _ function _ (.refl w) (h₁.setStack hstack') hknown' hbindings).bind
    fun v w₁ m₃ hle h₃ hv => ?_
  refine Ends.steady (ends_push h₃ hv fun m₄ h₄ => ends_pure h₄ ?_)
    ((keeps_push v).bind fun _ => keeps_pure _)
  exact ⟨(hle.knowsWalk hk).pending, hle.knows hk.result⟩

/-- An instruction of a pass is steady if the analyses of calls are. -/
theorem steady_walkInstr (hanalyse : SteadyCalls analyse w) (hconst : KnowsConstants w s)
    (h : w.Fits m) (hk : w.KnowsWalk wk) (i : Instruction) :
    Steady w (fun wk' w' _ => w'.KnowsWalk wk') (walkInstr analyse dep s r wk i) m := by
  by_cases hcall : i.opcode = .call
  · rcases i with ⟨opcode, n⟩
    cases hcall
    have hop : Opcode.call ≠ .closure := nofun
    exact steady_walkCall hanalyse h hk n hop
  · by_cases htail : i.opcode = .tailCall
    · rcases i with ⟨opcode, n⟩
      cases htail
      have hop : Opcode.tailCall ≠ .closure := nofun
      exact steady_walkCall hanalyse h hk n hop
    · let idle : Analyser := fun _ _ => pure .nil
      rw [walkInstr_congr hcall htail analyse idle]
      have hends : CallsEnd (fun _ => idle) w := fun w' _ _ _ _ h' _ _ => ends_pure h' (knows_nil w')
      exact (ends_walkInstr hends hconst h hk i).steady (keeps_walkInstr (fun _ _ => keeps_pure _) i)

theorem steady_walkStep (hanalyse : SteadyCalls analyse w) (hconst : KnowsConstants w s)
    (h : w.Fits m) (hk : w.KnowsWalk wk) :
    Steady w (fun out w' _ => ∀ wk', out = some wk' → w'.KnowsWalk wk')
      (walkStep analyse dep s r wk) m := by
  have hsome : ∀ wk' w' m', w'.Fits m' → w'.KnowsWalk wk' →
      Steady w' (fun out w' _ => ∀ wk', out = some wk' → w'.KnowsWalk wk')
        (pure (some wk') : Run (Option Walk)) m' := by
    intro wk' w' m' h' hk'
    refine steady_pure h' fun wk'' he => ?_
    cases he
    exact hk'
  have hsame : (resume r wk m).2.context.analyzing = m.context.analyzing := keeps_resume m
  unfold walkStep
  rcases resume_known r h hk with hr | ⟨wk₁, m₁, hr, h₁, hk₁⟩
  · exact Steady.bind_ok hr rfl (steady_pure h fun _ he => by cases he)
  · rw [hr] at hsame
    refine Steady.bind_ok hr hsame ?_
    refine ((ends_mergeWaiting _ h₁ hk₁).steady (keeps_mergeWaiting _ wk₁)).bind
      fun wk₂ w₂ m₂ hle h₂ hk₂ => ?_
    cases s.code[wk₂.pos]? with
    | none =>
      refine ((ends_returnTop h₂ hk₂).steady keeps_returnTop).bind ?_
      exact fun wk' w' m' _ h' hk' => hsome wk' w' m' h' hk'
    | some i =>
      have hconst₂ : KnowsConstants w₂ s := fun v hv => hle.knows (hconst v hv)
      refine (steady_walkInstr (hanalyse.later hle) hconst₂ h₂ hk₂ i).bind ?_
      exact fun wk' w' m' _ h' hk' => hsome wk' w' m' h' hk'

/-- Following all paths is steady, however many steps there are. -/
theorem steady_walkFrom (hanalyse : SteadyCalls analyse w) (hconst : KnowsConstants w s)
    (h : w.Fits m) (hk : w.KnowsWalk wk) (budget : Nat) :
    Steady w (fun v w' _ => w'.Knows v) (walkFrom analyse dep s r budget wk) m := by
  induction budget generalizing w wk m with
  | zero => exact ⟨fun hr => absurd hr id, fun _ he => by cases he⟩
  | succ budget ih =>
    refine (steady_walkStep hanalyse hconst h hk).bind fun next w₁ m₁ hle h₁ hnext => ?_
    cases next with
    | none => exact steady_pure h₁ (hle.knows hk.result)
    | some wk' => exact ih (hanalyse.later hle) (fun v hv => hle.knows (hconst v hv)) h₁ (hnext wk' rfl)

/-! ## Passes and analyses -/

variable {budget : Nat} {args : Bindings}

variable (dep budget) in
/-- A pass takes its script out of those under analysis, and leaves the others. -/
theorem analyzing_passWith (hanalyse : SteadyCalls analyse w) (hconst : KnowsConstants w s)
    (h : w.Fits m) (hargs : ∀ b ∈ args, w.Knows b.2) :
    (Returned (passWith analyse budget dep s args m).1 →
      (passWith analyse budget dep s args m).2.context.analyzing =
        m.context.analyzing.filter (· ≠ s.id)) ∧
    After w (fun v w' _ => w'.Knows v) (passWith analyse budget dep s args m) := by
  have hwalk : Steady w (fun v w' _ => w'.Knows v)
      (walkFrom analyse dep s (passRegion m) budget .start) (passStart s args m) :=
    steady_walkFrom hanalyse hconst (fits_passStart h hargs)
      ⟨fun path hp => (by cases hp), knows_nil w⟩ budget
  refine ⟨fun hr => ?_, fun v hv => ?_⟩
  · obtain ⟨m₁, hpass, hend, hreturned⟩ := passWith_cases hr
    have hanalyzing := hwalk.analyzing hreturned
    rw [hend] at hanalyzing
    rw [hpass]
    show m₁.context.analyzing.filter _ = _
    rw [hanalyzing]
    show (m.context.analyzing ++ [s.id]).filter _ = _
    rw [List.filter_append]
    simp
  · obtain ⟨m₁, hpass, hend, -⟩ := passWith_cases (hv ▸ returned_ok v)
    rw [hpass] at hv ⊢
    obtain ⟨w₁, hle, hfit, hknown⟩ := hwalk.after v hv
    rw [hend] at hfit
    exact ⟨w₁, hle, fits_passEnd hfit s m, hknown⟩

/-- The analysis of a script begins a pass only if the script is not under analysis. -/
theorem steady_analyseScript
    (hanalyse : SteadyCalls analyse (atDepth w (w.callDepth + 1))) (hconst : KnowsConstants w s)
    (h : w.Fits m) (hargs : ∀ b ∈ args, w.Knows b.2) :
    Steady w (fun v w' _ => w'.Knows v) (analyseScript analyse budget dep s args) m := by
  unfold analyseScript
  refine Steady.bind_ok (run_context m) rfl ?_
  by_cases hc : m.context.analyzing.contains s.id = true
  · simp only [if_pos hc]
    exact steady_pure h (knows_nil w)
  · simp only [if_neg hc]
    have hout : m.context.analyzing.filter (· ≠ s.id) = m.context.analyzing := by
      refine List.filter_eq_self.2 fun id hid => decide_eq_true fun he => hc ?_
      exact List.contains_iff_mem.2 (he ▸ hid)
    rcases beginCall_cases m with ⟨-, hfail⟩ | ⟨-, hbegin⟩
    · exact Steady.bind_fail hfail
    · refine Steady.bind_ok hbegin rfl ?_
      rw [h.callDepth]
      have hfit := fits_atDepth h (w.callDepth + 1)
      generalize hm₁ : (⟨{ m.context with callDepth := w.callDepth + 1 }, m.store⟩ : Machine) = m₁
        at hfit ⊢
      have hsame : m₁.context.analyzing = m.context.analyzing := by rw [← hm₁]
      obtain ⟨hanalyzing, hafter⟩ := analyzing_passWith dep budget hanalyse hconst hfit hargs
      rw [hsame, hout] at hanalyzing
      refine ⟨fun hr => ?_, fun v hv => ?_⟩
      · rcases attempt_cases hr with ⟨e, m₂, hrun, he⟩ | ⟨v, m₂, hrun, he⟩
        all_goals
          rw [he, hsame]
          rw [hrun] at hanalyzing
          exact hanalyzing trivial
      · rcases attempt_cases (hv ▸ returned_ok v) with ⟨e, m₂, hrun, he⟩ | ⟨v', m₂, hrun, he⟩
        · rw [he] at hv
          cases hv
        · rw [he] at hv ⊢
          cases hv
          obtain ⟨w₂, hle, hfit₂, hknown⟩ := hafter v (congrArg Prod.fst hrun)
          rw [hrun] at hfit₂
          have hend : m₂.context.callDepth - 1 = w.callDepth := by
            rw [hfit₂.callDepth, hle.callDepth]
            exact Nat.add_sub_cancel w.callDepth 1
          refine ⟨atDepth w₂ w.callDepth, le_atDepth hle, ?_, hknown⟩
          show (atDepth w₂ w.callDepth).Fits
            ⟨{ m₂.context with callDepth := m₂.context.callDepth - 1 }, m₂.store⟩
          rw [hend]
          exact fits_atDepth hfit₂ w.callDepth

/-- What a world allows has no hook. -/
def WithoutHooks (w : World) : Prop := ∀ v, w.allowed v → v.Hookless

theorem WithoutHooks.later {w' : World} (h : WithoutHooks w) (hle : w.Le w') : WithoutHooks w' :=
  fun v hv => h v (hle.allowed ▸ hv)

theorem steady_trackObject (hanalyse : SteadyCalls analyse w) (h : w.Fits m) {id : Ident}
    {body : ObjectBody Value} (hk : w.Knows (.object id body)) :
    Steady w (fun v w' _ => w'.Knows v) (trackObject analyse dep body) m := by
  cases body with
  | placeholder g => exact steady_pure h (knows_nil w)
  | host object =>
    unfold trackObject
    dsimp only
    cases object.owners with
    | none => exact steady_pure h (knows_nil w)
    | some owners =>
      refine ((ends_store h (after_noteReadHost h.store object "()" dep)).steady
        (keeps_store _)).bind fun _ w₁ m₁ _ h₁ _ => ?_
      refine ((ends_store h₁ (after_intern h₁.store "input")).steady (keeps_store _)).bind
        fun var w₂ m₂ _ h₂ _ => ?_
      refine Steady.bind_ok (run_context m₂) rfl (steady_pure h₂ (knows_getD_nil fun v hv => ?_))
      exact h₂.env.get? hv
  | union a b =>
    have hnone : ∀ w' : World, ∀ b ∈ ([] : Bindings), w'.Knows b.2 := fun _ _ hb => by cases hb
    have ha := hk.child (c := a) List.mem_cons_self
    have hb := hk.child (c := b) (List.mem_cons_of_mem _ List.mem_cons_self)
    refine (hanalyse w m a [] (.refl w) h ha (hnone w)).bind fun x w₁ m₁ hle₁ h₁ hx => ?_
    refine (hanalyse w₁ m₁ b [] hle₁ h₁ (hle₁.knows hb) (hnone w₁)).bind
      fun y w₂ m₂ hle₂ h₂ hy => ?_
    refine ((ends_store h₂ (after_either h₂.store (hle₂.knows hx) hy)).steady (keeps_store _)).mono ?_
    exact fun _ _ _ _ hv => hv.1.1

/-- The analysis of a call is steady where there are no hooks, whatever it calls in turn. The
induction is on the budget, which bounds how deep analyses nest. -/
theorem steady_analyseFor (budget : Nat) (hhooks : WithoutHooks w) :
    SteadyCalls (analyseFor dep budget) w := by
  induction budget generalizing w with
  | zero => exact fun _ _ _ _ _ _ _ _ => ⟨fun hr => absurd hr id, fun _ he => by cases he⟩
  | succ budget ih =>
    intro w₁ m function args hle h hk hargs
    have hhooks₁ := hhooks.later hle
    have hanalyse : SteadyCalls (analyseFor dep budget) w₁ := ih hhooks₁
    show Steady w₁ _ (analyseWith (analyseFor dep budget) budget dep function args) m
    cases function with
    | script s =>
      refine steady_analyseScript (ih hhooks₁) (fun v hv => hk.child ?_) h hargs
      exact Array.mem_toList_iff.2 hv
    | builtin id f =>
      have hhook : f.hook = none := hhooks₁ _ hk.holds.1
      simp only [analyseWith, hhook]
      exact steady_pure h (knows_nil w₁)
    | closure id inner captured =>
      refine hanalyse w₁ m inner _ (.refl w₁) h (hk.child List.mem_cons_self) fun b hb => ?_
      rcases List.mem_append.1 hb with hb | hb
      · exact hk.child (List.mem_cons_of_mem _ (List.mem_map_of_mem hb))
      · exact hargs b hb
    | composition id first second =>
      have hfirst := hk.child (c := first) List.mem_cons_self
      have hsecond := hk.child (c := second) (List.mem_cons_of_mem _ List.mem_cons_self)
      refine (hanalyse w₁ m first args (.refl w₁) h hfirst hargs).bind
        fun v w₂ m₂ hle₂ h₂ hv => ?_
      refine ((ends_store h₂ (after_intern h₂.store "input")).steady (keeps_store _)).bind
        fun var w₃ m₃ hle₃ h₃ _ => ?_
      have hle' := hle₂.trans hle₃
      refine hanalyse w₃ m₃ second _ hle' h₃ (hle'.knows hsecond) fun b hb => ?_
      rw [List.mem_singleton.1 hb]
      exact hle₃.knows hv
    | object id body =>
      refine steady_inScope h fun m₁ h₁ => ?_
      refine Steady.bind_ok (run_bindAll args m₁) rfl ?_
      exact steady_trackObject hanalyse (h₁.setEnv (h₁.env.setAll hargs)) hk
    | _ => exact steady_pure h (knows_nil w₁)

/-! ## What is given back -/

/-- Operands, call depth, level and the number of hidden bindings are the same, and so is every
variable that is not bound at a level which is closed. No script came under analysis. In a context
whose scopes are left in order nothing can be told apart. -/
structure GivenBack (m m' : Machine) : Prop where
  stack : m'.context.stack = m.context.stack
  callDepth : m'.context.callDepth = m.context.callDepth
  level : m'.context.env.level = m.context.env.level
  hiddenCount : m'.context.env.hiddenCount = m.context.env.hiddenCount
  get? : ∀ var, m.context.env.BoundedAt var → m'.context.env.get? var = m.context.env.get? var
  distance? : ∀ var, m.context.env.BoundedAt var →
    m'.context.env.distance? var = m.context.env.distance? var
  analyzing : m'.context.analyzing ⊆ m.context.analyzing
  nested : ∀ outer, Environment.Stacked outer m.context.env →
    Restored m m' ∧ Environment.Stacked outer m'.context.env

theorem Retained.givenBack {m m' : Machine} (h : Retained m m') : GivenBack m m' where
  stack := h.stack
  callDepth := h.callDepth
  level := h.env.level
  hiddenCount := h.env.hiddenCount
  get? _ hb := h.env.get? hb
  distance? _ hb := h.env.distance? hb
  analyzing := h.analyzing
  nested outer hs := by
    have hsame := h.env.same hs.levelsBounded
    exact ⟨⟨h.stack, h.callDepth, hsame.symm.alike⟩, hs.same hsame⟩

/-- Whenever a pass or the analysis of a call comes back, with a value or an error, it gives back what
it found, in every machine and whatever hooks and host objects do. Without hooks the analysis of a
call leaves the same scripts under analysis, and a pass those other than its own. Levels are counted
as in `Environment`, for fewer than 2^32 open scopes. -/
theorem passes_give_back (dep : Dependency) (budget : Nat) (m : Machine) :
    (∀ s, Returned (trackReads budget dep s m).1 → GivenBack m (trackReads budget dep s m).2) ∧
    (∀ function args, Returned (analyseFor dep budget function args m).1 →
      GivenBack m (analyseFor dep budget function args m).2) ∧
    (m.All Value.Hookless →
      (∀ s, (∀ v ∈ s.constants, v.Every Value.Hookless) → Returned (trackReads budget dep s m).1 →
        (trackReads budget dep s m).2.context.analyzing = m.context.analyzing.filter (· ≠ s.id)) ∧
      ∀ function args, function.Every Value.Hookless →
        (∀ b ∈ args, b.2.Every Value.Hookless) →
        Returned (analyseFor dep budget function args m).1 →
        (analyseFor dep budget function args m).2.context.analyzing = m.context.analyzing) := by
  have hanalyse : ∀ f args, Neutral (analyseFor dep budget f args) := analyseFor_neutral budget
  refine ⟨fun s hr => ?_, fun f args hr => (hanalyse f args m hr).1.givenBack, fun hm => ?_⟩
  · exact (passWith_neutral hanalyse budget s [] m hr).1.givenBack
  · let w := startWorld hookless_of_made m
    have hfit : w.Fits m := fits_startWorld hm
    have hsteady : SteadyCalls (analyseFor dep budget) w :=
      steady_analyseFor budget fun _ => id
    refine ⟨fun s hconst hr => ?_, fun f args hf hargs hr => ?_⟩
    · have hknown : KnowsConstants w s := fun v hv => knows_startWorld (hconst v hv)
      exact (analyzing_passWith _ _ hsteady hknown hfit fun _ hb => by cases hb).1 hr
    · have hknown : ∀ b ∈ args, w.Knows b.2 := fun b hb => knows_startWorld (hargs b hb)
      exact (hsteady w m f args (.refl w) hfit (knows_startWorld hf) hknown).analyzing hr

/-- A machine in which a script is under analysis. -/
def machineAnalysing : Machine :=
  { machineInScope with context := { machineInScope.context with analyzing := [7] } }

theorem hookless_machineAnalysing : machineAnalysing.All Value.Hookless := by
  have hempty : Environment.empty.All (Value.Every Value.Hookless) :=
    ⟨fun _ slot hs => (by cases hs), fun _ hb => (by cases hb)⟩
  have hfalse : (Value.bool false).Every Value.Hookless := Value.every_of_children_nil trivial rfl
  exact ⟨hempty.enterScope.set ⟨0⟩ hfalse, fun _ hv => (by cases hv),
    fun _ hit => absurd hit (Array.not_mem_empty _)⟩

theorem passes_give_back_bindsTrue :
    GivenBack machineAnalysing (trackReads 5 ⟨.cardField, 0⟩ bindsTrue machineAnalysing).2 ∧
      (analyseFor ⟨.cardField, 0⟩ 5 (.script bindsTrue) [] machineAnalysing).2.context.analyzing =
        [7] := by
  have hconst : ∀ v ∈ bindsTrue.constants, v.Every Value.Hookless := by
    intro v hv
    obtain rfl : v = .bool true := by simpa [bindsTrue] using hv
    exact Value.every_of_children_nil trivial rfl
  have hscript : (Value.script bindsTrue).Every Value.Hookless :=
    .intro trivial fun v hv => hconst v (Array.mem_toList_iff.1 hv)
  obtain ⟨hpass, -, hhookless⟩ := passes_give_back ⟨.cardField, 0⟩ 5 machineAnalysing
  refine ⟨hpass bindsTrue trivial, ?_⟩
  have hcalls := (hhookless hookless_machineAnalysing).2
  exact hcalls (.script bindsTrue) [] hscript (fun _ hb => by cases hb) trivial

/-- With a mark that is too large, leaving a scope leaves its bindings behind at a level that is no
longer open. A pass takes them for bindings of its own scope. -/
theorem pass_overwrites_after_foreign_mark :
    ¬ ∀ mark : Nat, Returned (trackReads 4 ⟨.cardField, 0⟩ bindsTrue
        (leaveScope mark machineInScope).2).1 →
      Restored (leaveScope mark machineInScope).2
        (trackReads 4 ⟨.cardField, 0⟩ bindsTrue (leaveScope mark machineInScope).2).2 := by
  intro h
  have hget := (h 1 trivial).env.get? ⟨0⟩
  have hbefore : (leaveScope 1 machineInScope).2.context.env.get? ⟨0⟩ = some (.bool false) := rfl
  have hafter : (trackReads 4 ⟨.cardField, 0⟩ bindsTrue
    (leaveScope 1 machineInScope).2).2.context.env.get? ⟨0⟩ = some (.bool true) := rfl
  rw [hbefore, hafter] at hget
  cases hget

end Run

end ReactiveScript
