import ReactiveScript.Proofs.Paths
import ReactiveScript.Proofs.Schedule

/-
  Evaluations that end.

  A family of evaluations, one for each budget, ends if with large budgets it comes back with one and
  the same result (`Ends`). A sequence ends if its parts do. Every step of a pass ends, whatever the
  code is, provided that the calls it makes do (`ends_walkStep`), and it leads to a later world that
  knows the values of all paths.
-/

namespace ReactiveScript

/-- All values that the paths of a pass have put aside are known. -/
structure World.KnowsWalk (w : World) (wk : Walk) : Prop where
  pending : ∀ path ∈ wk.pending, w.KnowsPath path
  result : w.Knows wk.result

theorem World.KnowsWalk.next {w : World} {wk : Walk} (h : w.KnowsWalk wk) : w.KnowsWalk wk.next :=
  ⟨h.pending, h.result⟩

theorem World.KnowsWalk.wait {w : World} {wk : Walk} (h : w.KnowsWalk wk) {path : WaitingPath}
    (hp : w.KnowsPath path) : w.KnowsWalk (wk.wait path) := by
  refine ⟨fun other ho => ?_, h.result⟩
  rcases List.mem_append.1 ho with ho | ho
  · exact h.pending other ho
  · exact List.mem_singleton.1 ho ▸ hp

theorem World.Le.knowsWalk {w w' : World} (h : w.Le w') {wk : Walk} (hk : w.KnowsWalk wk) :
    w'.KnowsWalk wk :=
  ⟨fun path hp => h.knowsPath (hk.pending path hp), h.knows hk.result⟩

namespace Run

open World

variable {α β : Type} {w : World} {m : Machine}

/-- With a large budget the evaluation comes back, with the same result for all such budgets. If that
is a value, its machine fits a later world in which `B` holds. -/
def Ends (w : World) (B : α → World → Machine → Prop) (x : Nat → Run α) (m : Machine) : Prop :=
  ∃ out, (∃ enough, ∀ budget ≥ enough, x budget m = out) ∧ Returned out.1 ∧ After w B out

variable {B : α → World → Machine → Prop} {C : β → World → Machine → Prop}

theorem ends_pure (h : w.Fits m) {a : α} (hB : B a w m) : Ends w B (fun _ => pure a) m :=
  ⟨_, ⟨0, fun _ _ => rfl⟩, trivial, after_pure h hB⟩

theorem ends_fail (e : EvalError) : Ends w B (fun _ => fail e) m :=
  ⟨_, ⟨0, fun _ _ => rfl⟩, trivial, after_fail e⟩

theorem Ends.bind {x : Nat → Run α} {f : Nat → α → Run β} (hx : Ends w B x m)
    (hf : ∀ a w' m', w.Le w' → w'.Fits m' → B a w' m' → Ends w' C (fun k => f k a) m') :
    Ends w C (fun k => x k >>= f k) m := by
  obtain ⟨⟨result, m₁⟩, ⟨enough, henough⟩, hreturned, hafter⟩ := hx
  cases result with
  | error stop =>
    obtain ⟨e, rfl⟩ := hreturned.error_of
    refine ⟨(.error (.error e), m₁), ⟨enough, fun k hk => ?_⟩, trivial, fun b hb => by cases hb⟩
    exact run_bind_error (henough k hk)
  | ok a =>
    obtain ⟨w₁, hle, hfit, hB⟩ := hafter a rfl
    obtain ⟨out, ⟨enough', henough'⟩, hreturned', hafter'⟩ := hf a w₁ m₁ hle hfit hB
    refine ⟨out, ⟨max enough enough', fun k hk => ?_⟩, hreturned', fun b hb => ?_⟩
    · show (x k >>= f k) m = out
      rw [run_bind_ok (henough k (by omega))]
      exact henough' k (by omega)
    · obtain ⟨w₂, hle₂, hfit₂, hC⟩ := hafter' b hb
      exact ⟨w₂, hle.trans hle₂, hfit₂, hC⟩

/-- The first part of a sequence is known exactly. -/
theorem Ends.bind_ok {x : Run α} {f : Nat → α → Run β} {m' : Machine} {a : α}
    (hx : x m = (.ok a, m')) (hf : Ends w C (fun k => f k a) m') :
    Ends w C (fun k => x >>= f k) m := by
  obtain ⟨out, ⟨enough, henough⟩, h⟩ := hf
  refine ⟨out, ⟨enough, fun k hk => ?_⟩, h⟩
  show (x >>= f k) m = out
  rw [run_bind_ok hx]
  exact henough k hk

/-- The first part of a sequence fails. -/
theorem Ends.bind_fail {x : Run α} {f : Nat → α → Run β} {m' : Machine} {e : EvalError}
    (hx : x m = (.error (.error e), m')) : Ends w C (fun k => x >>= f k) m :=
  ⟨_, ⟨0, fun _ _ => run_bind_error hx⟩, trivial, fun _ hb => by cases hb⟩

/-- A result that was computed without the machine. -/
theorem ends_except {x : Except EvalError α} {f : Nat → α → Run β}
    (h : ∀ a, x = .ok a → Ends w C (fun k => f k a) m) :
    Ends w C (fun k => ofExcept x >>= f k) m := by
  cases x with
  | ok a => exact Ends.bind_ok rfl (h a rfl)
  | error e => exact Ends.bind_fail rfl

theorem Ends.mono {B' : α → World → Machine → Prop} {x : Nat → Run α} (h : Ends w B x m)
    (hB : ∀ a w' m', w.Le w' → B a w' m' → B' a w' m') : Ends w B' x m := by
  obtain ⟨out, henough, hreturned, hafter⟩ := h
  exact ⟨out, henough, hreturned, hafter.mono hB⟩

/-- One more unit of the budget makes no difference. -/
theorem Ends.of_succ {x : Nat → Run α} (h : Ends w B (fun k => x (k + 1)) m) : Ends w B x m := by
  obtain ⟨out, ⟨enough, henough⟩, h⟩ := h
  refine ⟨out, ⟨enough + 1, fun k hk => ?_⟩, h⟩
  obtain ⟨k, rfl⟩ : ∃ j, k = j + 1 := ⟨k - 1, by omega⟩
  exact henough k (by omega)

/-- What is done to the store comes back. -/
theorem ends_store {B : α → World → Prop} {x : StateM Store α} (h : w.Fits m)
    (hx : AfterStore w B (x m.store)) :
    Ends w (fun a w' m' => B a w' ∧ m'.context = m.context) (fun _ => store x) m :=
  ⟨_, ⟨0, fun _ _ => rfl⟩, trivial, after_store h hx⟩

/-- What comes back whatever the budget is. -/
theorem ends_const {x : Run α} (hreturned : Returned (x m).1) (hafter : After w B (x m)) :
    Ends w B (fun _ => x) m :=
  ⟨_, ⟨0, fun _ _ => rfl⟩, hreturned, hafter⟩

/-! ## Operands -/

variable {r : Region}

/-- Pushing a known value, and then something that does not look at the machine. -/
theorem ends_push (h : w.Fits m) {v : Value} (hv : w.Knows v) {f : Nat → Run β}
    (hf : ∀ m', w.Fits m' → Ends w C f m') : Ends w C (fun k => do push v; f k) m := by
  refine Ends.bind_ok (push_eq v m) (hf _ (h.setStack fun x hx => ?_))
  rcases List.mem_cons.1 hx with rfl | hx
  · exact hv
  · exact h.stack x hx

theorem ends_take (h : w.Fits m) {base : Nat} {f : Nat → Value → Run β}
    (hf : ∀ v m', w.Fits m' → w.Knows v → Ends w C (fun k => f k v) m') :
    Ends w C (fun k => takeOrNil base >>= f k) m := by
  obtain ⟨v, stack, hrun, hP, -⟩ := takeOrNil_eq base m
  obtain ⟨hv, hstack⟩ := hP w.Knows (knows_nil w) h.stack
  exact Ends.bind_ok hrun (hf v _ (h.setStack hstack) hv)

theorem ends_takeMany (h : w.Fits m) {base n : Nat} {f : Nat → List Value → Run β}
    (hf : ∀ vs m', w.Fits m' → (∀ v ∈ vs, w.Knows v) → Ends w C (fun k => f k vs) m') :
    Ends w C (fun k => takeManyOrNil base n >>= f k) m := by
  obtain ⟨vs, stack, hrun, hP, -⟩ := takeManyOrNil_eq base n m
  obtain ⟨hvs, hstack⟩ := hP w.Knows (knows_nil w) h.stack
  exact Ends.bind_ok hrun (hf vs _ (h.setStack hstack) hvs)

theorem ends_peek (h : w.Fits m) {base : Nat} {f : Nat → Value → Run β}
    (hf : ∀ v, w.Knows v → Ends w C (fun k => f k v) m) :
    Ends w C (fun k => peekOrNil base >>= f k) m := by
  obtain ⟨v, hrun, hP, -⟩ := peekOrNil_eq base m
  exact Ends.bind_ok hrun (hf v (hP w.Knows (knows_nil w) h.stack))

/-- What the store makes is pushed. -/
theorem ends_pushStored (h : w.Fits m) {x : StateM Store Value}
    (hx : AfterStore w (fun v w' => w'.Knows v) (x m.store)) {wk : Walk} (hk : w.KnowsWalk wk) :
    Ends w (fun wk' w' _ => w'.KnowsWalk wk') (fun _ => do
      push (← store x)
      return wk.next) m := by
  refine (ends_store h hx).bind fun v w₁ m₁ hle h₁ hv => ?_
  exact ends_push h₁ hv.1 fun m' h' => ends_pure h' (hle.knowsWalk hk).next

/-! ## Control -/

variable {s : Script Value} {wk : Walk}

theorem ends_target {pos n : Nat} {f : Nat → Nat → Run β} (h : Ends w C (fun k => f k n) m) :
    Ends w C (fun k => ofExcept (s.targetInPass pos n) >>= f k) m := by
  refine ends_except fun target htarget => ?_
  unfold Script.targetInPass at htarget
  by_cases hn : n > s.length
  · rw [if_pos hn] at htarget
    cases htarget
  · rw [if_neg hn] at htarget
    cases htarget
    exact h

theorem ends_suspend (h : w.Fits m) {target : Nat} {f : Nat → WaitingPath → Run β}
    (hf : ∀ path, w.KnowsPath path → Ends w C (fun k => f k path) m) :
    Ends w C (fun k => suspendPath r target >>= f k) m :=
  Ends.bind_ok (suspendPath_eq r target m) (hf _ (knowsPath_suspended h r target))

theorem ends_heedInterrupt (h : w.Fits m) :
    Ends w (fun _ _ _ => True) (fun _ => heedInterrupt) m := by
  unfold heedInterrupt
  refine Ends.bind_ok (run_context m) ?_
  refine Ends.bind_ok (run_store _ m) ?_
  cases (Store.isInterrupted m.context.settings.interrupt m.store).1 with
  | true => exact ends_fail _
  | false => exact ends_pure h trivial

theorem ends_walkJump (h : w.Fits m) (hk : w.KnowsWalk wk) (n : Nat) :
    Ends w (fun wk' w' _ => w'.KnowsWalk wk') (fun _ => walkJump s r wk n) m := by
  unfold walkJump
  refine ends_target ?_
  by_cases hlt : n > wk.pos
  · simp only [if_pos hlt]
    refine ends_suspend h fun path hp => ends_pure h ?_
    exact ⟨(hk.wait hp).pending, hk.result⟩
  · simp only [if_neg hlt]
    by_cases hc : wk.backEdges.contains wk.pos = true
    · simp only [if_pos hc]
      exact ends_pure h ⟨hk.pending, hk.result⟩
    · simp only [if_neg hc]
      refine (ends_heedInterrupt h).bind fun _ w₁ m₁ hle h₁ _ => ends_pure h₁ ?_
      exact ⟨(hle.knowsWalk hk).pending, hle.knows hk.result⟩

theorem ends_walkBranch (h : w.Fits m) (hk : w.KnowsWalk wk) (n : Nat) :
    Ends w (fun wk' w' _ => w'.KnowsWalk wk') (fun _ => walkBranch r wk n) m := by
  refine walkBranch_cases (P := fun x => Ends w (fun wk' w' _ => w'.KnowsWalk wk') (fun _ => x) m)
    (fun _ => ?_) (fun _ _ => ends_pure h hk) fun _ _ => ?_
  · exact ends_suspend h fun path hp => ends_pure h (hk.wait hp)
  · refine ends_suspend h fun path hp => ends_pure h ?_
    exact ⟨(hk.wait hp).pending, hk.result⟩

theorem knows_withoutSecond {frame : List Value} (h : ∀ v ∈ frame, w.Knows v) :
    ∀ v ∈ withoutSecond frame, w.Knows v := by
  rcases frame with _ | ⟨a, _ | ⟨b, rest⟩⟩
  · exact h
  · exact h
  · intro v hv
    rcases List.mem_cons.1 hv with rfl | hv
    · exact h v List.mem_cons_self
    · exact h v (List.mem_cons_of_mem _ (List.mem_cons_of_mem _ hv))

theorem ends_loopElement (h : w.Fits m) (frame : List Value) :
    Ends w (fun entry w' _ => w'.Knows entry.1 ∧ w'.Knows entry.2) (fun _ => loopElement frame) m := by
  have hnil : Ends w (fun entry w' _ => w'.Knows entry.1 ∧ w'.Knows entry.2)
      (fun _ => (pure (.nil, .nil) : Run Entry)) m :=
    ends_pure h ⟨knows_nil w, knows_nil w⟩
  rcases frame with _ | ⟨a, _ | ⟨b, rest⟩⟩
  · exact hnil
  · exact hnil
  · cases b with
    | iterator handle =>
      refine (ends_store h (after_drawEntry h.store handle)).bind fun drawn w₁ m₁ _ h₁ hd => ?_
      cases drawn with
      | none => exact ends_pure h₁ ⟨knows_nil w₁, knows_nil w₁⟩
      | some entry => exact ends_pure h₁ (hd.1 entry rfl)
    | _ => exact hnil

theorem ends_walkLoop (h : w.Fits m) (hk : w.KnowsWalk wk) (n : Nat) (withKey : Bool) :
    Ends w (fun wk' w' _ => w'.KnowsWalk wk') (fun _ => walkLoop s r wk n withKey) m := by
  unfold walkLoop
  refine ends_target (ends_suspend h fun path hp => ?_)
  have hexit : w.KnowsPath { path with frame := withoutSecond path.frame } :=
    ⟨knows_withoutSecond hp.frame, hp.bindings⟩
  generalize ({ path with frame := withoutSecond path.frame } : WaitingPath) = exit at hexit
  by_cases hc : wk.enteredLoops.contains wk.pos = true
  · simp only [if_pos hc]
    refine Ends.bind_ok (setFrame_eq exit.frame m) (ends_pure (h.setStack fun v hv => ?_) ?_)
    · rcases List.mem_append.1 hv with hv | hv
      · exact hexit.frame v hv
      · exact h.stack v (List.mem_of_mem_drop hv)
    · exact ⟨(hk.wait hexit).pending, hk.result⟩
  · simp only [if_neg hc]
    refine (ends_loopElement h path.frame).bind fun entry w₁ m₁ hle h₁ hentry => ?_
    rcases entry with ⟨key, v⟩
    have hk₁ := hle.knowsWalk hk
    have hwalk : w₁.KnowsWalk ({ wk with enteredLoops := wk.pos :: wk.enteredLoops }.wait exit).next :=
      ⟨(hk₁.wait (hle.knowsPath hexit)).pending, hk₁.result⟩
    cases withKey with
    | true =>
      refine ends_push h₁ hentry.1 fun m₂ h₂ => ?_
      exact ends_push h₂ hentry.2 fun m₃ h₃ => ends_pure h₃ hwalk
    | false => exact ends_push h₁ hentry.2 fun m₂ h₂ => ends_pure h₂ hwalk

/-! ## Instructions and steps -/

variable {dep : Dependency} {analyse : Nat → Analyser}

/-- From a world on, the analysis of a known value with known arguments ends. -/
def CallsEnd (analyse : Nat → Analyser) (w : World) : Prop :=
  ∀ w' m function args, w.Le w' → w'.Fits m → w'.Knows function → (∀ b ∈ args, w'.Knows b.2) →
    Ends w' (fun v w'' _ => w''.Knows v) (fun k => analyse k function args) m

theorem ends_walkCall (hcalls : CallsEnd analyse w) (h : w.Fits m) (hk : w.KnowsWalk wk) (n : Nat)
    (op : Opcode) : Ends w (fun wk' w' _ => w'.KnowsWalk wk')
      (fun k => walkCall (analyse k) s r wk n op) m := by
  unfold walkCall
  refine ends_except fun params _ => ends_takeMany h fun args m₁ h₁ hargs => ?_
  refine ends_take h₁ fun function m₂ h₂ hfunction => ?_
  have hbindings : ∀ b ∈ params.zip args, w.Knows b.2 := fun b hb =>
    hargs b.2 (List.of_mem_zip hb).2
  have hpush : ∀ v w₁ m₃, w.Le w₁ → w₁.Fits m₃ → w₁.Knows v →
      Ends w₁ (fun wk' w' _ => w'.KnowsWalk wk') (fun _ => do
        push v
        return wk.goto (wk.pos + 1 + n)) m₃ := by
    intro v w₁ m₃ hle h₃ hv
    refine ends_push h₃ hv fun m₄ h₄ => ends_pure h₄ ?_
    exact ⟨(hle.knowsWalk hk).pending, hle.knows hk.result⟩
  by_cases hop : op = .closure
  · simp only [if_pos hop]
    refine (ends_store h₂ (after_partialApply h₂.store hfunction hbindings)).bind ?_
    exact fun v w₁ m₃ hle h₃ hv => hpush v w₁ m₃ hle h₃ hv.1
  · simp only [if_neg hop]
    refine (hcalls w m₂ function _ (.refl w) h₂ hfunction hbindings).bind ?_
    exact fun v w₁ m₃ hle h₃ hv => hpush v w₁ m₃ hle h₃ hv

theorem ends_variableInPass (h : w.Fits m) (var : Variable) (dep : Dependency) :
    Ends w (fun v w' _ => w'.Knows v) (fun _ => variableInPass var dep) m := by
  refine ends_const ?_ ((after_variableInPass h var dep).mono fun _ _ _ _ hv => hv.1)
  unfold variableInPass
  rw [run_bind_ok (run_context m)]
  cases m.context.registry.lookup? var <;> trivial

theorem ends_returnTop (h : w.Fits m) (hk : w.KnowsWalk wk) :
    Ends w (fun wk' w' _ => w'.KnowsWalk wk') (fun _ => returnTop r wk) m := by
  unfold returnTop
  refine ends_peek h fun top htop => ?_
  refine (ends_store h (after_either h.store hk.result htop)).bind fun v w₁ m₁ hle h₁ hv => ?_
  exact ends_pure h₁ ⟨(hle.knowsWalk hk).pending, hv.1.1⟩

/-- Every instruction ends, if the calls it makes do. -/
theorem ends_walkInstr (hcalls : CallsEnd analyse w) (hconst : KnowsConstants w s)
    (h : w.Fits m) (hk : w.KnowsWalk wk) (i : Instruction) :
    Ends w (fun wk' w' _ => w'.KnowsWalk wk') (fun k => walkInstr (analyse k) dep s r wk i) m := by
  rcases i with ⟨op, n, hn⟩
  have hnext : ∀ m', w.Fits m' → Ends w (fun wk' w' _ => w'.KnowsWalk wk')
      (fun _ => (pure wk.next : Run Walk)) m' := fun m' h' => ends_pure h' hk.next
  cases op with
  | nop => exact hnext m h
  | pushConst =>
    refine ends_except fun v hv => ends_push h ?_ hnext
    exact hconst v (Array.mem_of_getElem? (constant_of_constantAt hv))
  | pop => exact ends_take h fun _ m₁ h₁ _ => hnext m₁ h₁
  | dup =>
    refine Ends.bind_ok (frame_eq m) (ends_push h ?_ hnext)
    refine knows_getD_nil fun v hv => h.stack v ?_
    exact List.mem_of_mem_take (List.mem_of_getElem? hv)
  | jump => exact ends_walkJump h hk n
  | jumpIfNot =>
    refine ends_target (ends_take h fun _ m₁ h₁ _ => ?_)
    exact (ends_walkBranch h₁ hk n).bind fun wk₁ w₁ m₂ _ h₂ hk₁ => ends_pure h₂ hk₁.next
  | jumpScAnd | jumpScOr =>
    refine ends_target ((ends_walkBranch h hk n).bind fun wk₁ w₁ m₁ _ h₁ hk₁ => ?_)
    exact ends_take h₁ fun _ m₂ h₂ _ => ends_pure h₂ hk₁.next
  | loop => exact ends_walkLoop h hk n false
  | loopWithKey => exact ends_walkLoop h hk n true
  | ret => exact ends_returnTop h hk
  | getVar =>
    refine (ends_variableInPass h ⟨n⟩ dep).bind fun v w₁ m₁ hle h₁ hv => ?_
    exact ends_push h₁ hv fun m₂ h₂ => ends_pure h₂ (hle.knowsWalk hk).next
  | setVar =>
    refine ends_peek h fun top htop => ?_
    exact Ends.bind_ok (bindVariable_eq _ top m) (hnext _ (h.setEnv (h.env.set _ htop)))
  | memberC =>
    refine ends_except fun key _ => ends_take h fun object m₁ h₁ hobject => ?_
    exact ends_pushStored h₁ ((after_memberInPassAt h₁.store hobject dep).mono fun _ _ _ hv => hv.1) hk
  | makeObject =>
    refine ends_takeMany h fun values m₁ h₁ hvalues => ?_
    exact ends_pushStored h₁ (after_makeObject h₁.store hvalues) hk
  | call => exact ends_walkCall hcalls h hk n .call
  | closure => exact ends_walkCall hcalls h hk n .closure
  | tailCall => exact ends_walkCall hcalls h hk n .tailCall
  | unary =>
    refine ends_take h fun a m₁ h₁ ha => ends_except fun op _ => ?_
    exact ends_pushStored h₁ (after_unaryInPass h₁.store op ha dep) hk
  | binary =>
    refine ends_except fun op _ => ends_take h fun b m₁ h₁ hb => ends_take h₁ fun a m₂ h₂ ha => ?_
    exact ends_pushStored h₂ ((after_binaryInPass h₂.store op ha hb dep).mono fun _ _ _ hv => hv.1) hk
  | ternary | quaternary =>
    exact ends_takeMany h fun _ m₁ h₁ _ => ends_push h₁ (knows_nil w) hnext

theorem returned_mergeBindings (bindings : Bindings) (m : Machine) :
    ∃ m', mergeBindings bindings m = (.ok (), m') := by
  induction bindings generalizing m with
  | nil => exact ⟨m, rfl⟩
  | cons b rest ih =>
    obtain ⟨var, other⟩ := b
    unfold mergeBindings
    rw [run_bind_ok (run_context m)]
    cases m.context.env.get? var with
    | none => exact ih _
    | some current => exact ih _

theorem ends_mergePath (h : w.Fits m) {path : WaitingPath} (hp : w.KnowsPath path) :
    Ends w (fun _ _ _ => True) (fun _ => mergePath r path) m := by
  refine ends_const ?_ ((after_mergePath h hp).mono fun _ _ _ _ _ => trivial)
  unfold mergePath
  rw [run_bind_ok (frame_eq m), run_bind_ok (run_store _ m), run_bind_ok (setFrame_eq _ _)]
  obtain ⟨m', hm'⟩ := returned_mergeBindings (boundOnly path.bindings) _
  rw [hm']
  trivial

theorem ends_mergeWaiting (tries : Nat) (h : w.Fits m) (hk : w.KnowsWalk wk) :
    Ends w (fun wk' w' _ => w'.KnowsWalk wk') (fun _ => mergeWaiting r wk tries) m := by
  induction tries generalizing w wk m with
  | zero => exact ends_pure h hk
  | succ tries ih =>
    unfold mergeWaiting
    cases hf : wk.pending.findIdx? fun p => p.target == wk.pos with
    | none => exact ends_pure h hk
    | some index =>
      obtain ⟨hlt, -, -⟩ := List.findIdx?_eq_some_iff_getElem.1 hf
      have hi : wk.pending[index]? = some wk.pending[index] := List.getElem?_eq_getElem hlt
      simp only [hi]
      have hpath := hk.pending _ (List.getElem_mem hlt)
      refine (ends_mergePath h hpath).bind fun _ w₁ m₁ hle h₁ _ => ih h₁ ?_
      have hperm := swapRemove_perm hi
      refine ⟨fun path hp => hle.knowsPath (hk.pending path ?_), hle.knows hk.result⟩
      exact hperm.mem_iff.2 (List.mem_cons_of_mem _ hp)

/-- Either no path is left, or one is chosen whose values are known. -/
theorem resume_known (r : Region) (h : w.Fits m) (hk : w.KnowsWalk wk) :
    resume r wk m = (.ok none, m) ∨ ∃ wk₁ m₁, resume r wk m = (.ok (some wk₁), m₁) ∧
      w.Fits m₁ ∧ w.KnowsWalk wk₁ := by
  rcases resume_cases r wk m with ⟨-, hr⟩ | ⟨-, -, hr⟩ | ⟨-, path, rest, hperm, -, hr⟩
  · exact .inr ⟨wk, m, hr, h, hk⟩
  · exact .inl hr
  · refine .inr ⟨_, _, hr, ?_, ?_⟩
    · exact fits_resumed h (hk.pending path (hperm.mem_iff.2 List.mem_cons_self)) r
    · exact ⟨fun other ho => hk.pending other (hperm.mem_iff.2 (List.mem_cons_of_mem _ ho)),
        hk.result⟩

/-- Every step of a pass ends, if the calls it makes do. -/
theorem ends_walkStep (hcalls : CallsEnd analyse w) (hconst : KnowsConstants w s) (h : w.Fits m)
    (hk : w.KnowsWalk wk) : Ends w (fun out w' _ => ∀ wk', out = some wk' → w'.KnowsWalk wk')
      (fun k => walkStep (analyse k) dep s r wk) m := by
  have hsome : ∀ wk' w' m', w'.Fits m' → w'.KnowsWalk wk' →
      Ends w' (fun out w' _ => ∀ wk', out = some wk' → w'.KnowsWalk wk')
        (fun _ => (pure (some wk') : Run (Option Walk))) m' := by
    intro wk' w' m' h' hk'
    refine ends_pure h' fun wk'' he => ?_
    cases he
    exact hk'
  unfold walkStep
  rcases resume_known r h hk with hr | ⟨wk₁, m₁, hr, h₁, hk₁⟩
  · exact Ends.bind_ok hr (ends_pure h fun _ he => by cases he)
  · refine Ends.bind_ok hr ?_
    refine (ends_mergeWaiting _ h₁ hk₁).bind fun wk₂ w₂ m₂ hle h₂ hk₂ => ?_
    cases s.code[wk₂.pos]? with
    | none => exact (ends_returnTop h₂ hk₂).bind fun wk' w' m' _ h' hk' => hsome wk' w' m' h' hk'
    | some i =>
      have hcalls₂ : CallsEnd analyse w₂ := fun w' m' f args hle' => hcalls w' m' f args (hle.trans hle')
      have hconst₂ : KnowsConstants w₂ s := fun v hv => hle.knows (hconst v hv)
      refine (ends_walkInstr hcalls₂ hconst₂ h₂ hk₂ i).bind ?_
      exact fun wk' w' m' _ h' hk' => hsome wk' w' m' h' hk'

end Run

end ReactiveScript
