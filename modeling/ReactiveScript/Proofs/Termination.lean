import ReactiveScript.Proofs.Ends
import ReactiveScript.Proofs.Expansion

/-
  Passes over code whose loops lead on come to an end.

  A step of a pass sets a mark, of which there are as many as the code allows, or it replaces a
  position by positions onward (`Stride.smaller`). If no exit of a loop leads back, this comes to an
  end. Calls nest at most as deep as the settings allow, and between two scripts only into the parts
  of a function value, so all calls end (`callsEnd`), and with them every pass
  (`returned_of_leavesLoops`). A loop that leads back to itself is never left, and nothing checks for
  an interrupt there (`not_returned_loopToItself`).
-/

namespace ReactiveScript

open Relation World

/-- No host object and no hook, and every script leaves its loops. -/
def Value.Tame : Value → Prop
  | .object _ (.host _) => False
  | .builtin _ f => f.hook = none
  | .script s => s.LeavesLoops
  | _ => True

/-- All values of the machine are tame, and so are their parts. -/
structure Machine.Tame (m : Machine) : Prop where
  env : m.context.env.All (Value.Every Value.Tame)
  stack : ∀ v ∈ m.context.stack, v.Every Value.Tame
  iterations : ∀ it ∈ m.store.iterations, it.All (Value.Every Value.Tame)

/-! ## The order of the positions -/

namespace Script

variable {s : Script Value}

/-- A position to which a pass that got to `pos` goes on. -/
def Later (s : Script Value) (next pos : Nat) : Prop := s.Reaches pos ∧ s.Onward pos next

theorem wellFounded_later (h : s.LeavesLoops) : WellFounded s.Later := by
  refine ⟨fun pos => ?_⟩
  by_cases hr : s.Reaches pos
  · have hacc := acc_onward h hr
    induction hacc with
    | intro pos _ ih => exact Acc.intro pos fun next hnext => ih next hnext.2 (hr.tail hnext.2.flow)
  · exact Acc.intro pos fun next hnext => absurd hnext.1 hr

end Script

/-- The pass got to its positions, and marked positions in the code, each of them once. -/
structure Walk.Marked (s : Script Value) (wk : Walk) : Prop where
  reaches : ∀ pos ∈ wk.positions, s.Reaches pos
  backEdges : wk.backEdges.Nodup ∧ ∀ pos ∈ wk.backEdges, pos < s.length
  enteredLoops : wk.enteredLoops.Nodup ∧ ∀ pos ∈ wk.enteredLoops, pos < s.length

/-- The number of marks that are left. -/
def Walk.marksLeft (s : Script Value) (wk : Walk) : Nat :=
  2 * s.length - (wk.backEdges.length + wk.enteredLoops.length)

theorem length_le_of_marks {marks : List Nat} {n : Nat} (h : marks.Nodup ∧ ∀ pos ∈ marks, pos < n) :
    marks.length ≤ n := by
  have hsub : marks ⊆ List.range n := fun pos hpos => List.mem_range.2 (h.2 pos hpos)
  have hle := (List.subperm_of_subset h.1 hsub).length_le
  rwa [List.length_range] at hle

theorem marks_cons {marks : List Nat} {pos n : Nat} (h : marks.Nodup ∧ ∀ p ∈ marks, p < n)
    (hnew : pos ∉ marks) (hlt : pos < n) : (pos :: marks).Nodup ∧ ∀ p ∈ pos :: marks, p < n := by
  refine ⟨List.nodup_cons.2 ⟨hnew, h.1⟩, fun p hp => ?_⟩
  rcases List.mem_cons.1 hp with rfl | hp
  · exact hlt
  · exact h.2 p hp

/-- One mark more in one of the lists leaves fewer. -/
theorem Walk.Marked.marksLeft_lt {s : Script Value} {wk wk' : Walk} (h : wk'.Marked s)
    (hmore : wk.backEdges.length + wk.enteredLoops.length <
      wk'.backEdges.length + wk'.enteredLoops.length) : wk'.marksLeft s < wk.marksLeft s := by
  have hback := length_le_of_marks h.backEdges
  have hloops := length_le_of_marks h.enteredLoops
  unfold Walk.marksLeft
  omega

/-- Taking positions out makes the rest smaller. -/
theorem transGen_cutExpand_add {r : Nat → Nat → Prop} {a b : Multiset Nat} (h : CutExpand r a b)
    (k pos : Nat) : TransGen (CutExpand r) a (b + Multiset.replicate k pos) := by
  induction k with
  | zero =>
    rw [Multiset.replicate_zero, add_zero]
    exact .single h
  | succ k ih =>
    refine ih.tail ⟨0, pos, fun _ h => absurd h (Multiset.notMem_zero _), ?_⟩
    rw [Multiset.replicate_succ, ← Multiset.singleton_add, add_zero, add_assoc,
      add_comm (Multiset.replicate k pos)]

namespace Run

variable {s : Script Value} {wk wk₂ wk' : Walk}

/-- A step takes the pass to positions that control flow can reach. -/
theorem Stride.reaches (h : Stride s wk wk₂ wk') (hm : ∀ pos ∈ wk.positions, s.Reaches pos) :
    s.Reaches wk₂.pos ∧ ∀ pos ∈ wk'.positions, s.Reaches pos := by
  obtain ⟨hlive, ⟨k, hk⟩, -, -, hexpands⟩ := h
  have hreaches : ∀ pos ∈ wk₂.positions, s.Reaches pos := fun pos hpos =>
    hm pos (hk ▸ Multiset.mem_add.2 (.inl hpos))
  have hcurrent : s.Reaches wk₂.pos := by
    refine hreaches _ ?_
    unfold Walk.positions
    rw [hlive, if_pos rfl]
    exact Multiset.mem_add.2 (.inl (Multiset.mem_singleton_self _))
  refine ⟨hcurrent, fun pos hpos => ?_⟩
  rcases hexpands with ⟨i, others, hi, hexpands⟩ | ⟨-, hmoved, -, -⟩
  · obtain ⟨rest, hrest, hreplaced⟩ := hexpands.replaced hlive
    rw [hreplaced] at hpos
    rcases Multiset.mem_add.1 hpos with hpos | hpos
    · exact hreaches pos (hrest ▸ Multiset.mem_add.2 (.inl hpos))
    · exact hcurrent.tail ⟨i, hi, hexpands.flows pos hpos⟩
  · exact hreaches pos (hmoved ▸ Multiset.mem_add.2 (.inl hpos))

/-- A step of a pass uses a mark, or it makes the positions smaller. -/
theorem Stride.smaller (h : Stride s wk wk₂ wk') (hm : wk.Marked s) :
    wk'.Marked s ∧ (wk'.marksLeft s < wk.marksLeft s ∨ wk'.marksLeft s = wk.marksLeft s ∧
      TransGen (CutExpand s.Later) wk'.positions wk.positions) := by
  obtain ⟨hcurrent, hreaches⟩ := h.reaches hm.reaches
  obtain ⟨-, ⟨k, hk⟩, hback, hloops, hexpands⟩ := h
  rcases hexpands with ⟨i, others, hi, hexpands⟩ | ⟨-, hmoved, h1, h2⟩
  · have hlt : wk₂.pos < s.length := (Array.getElem?_eq_some_iff.1 hi).1
    have hmarks := hexpands.marks
    rw [hback, hloops] at hmarks
    rcases hmarks with ⟨h1, h2, honward⟩ | ⟨hnew, h1, h2⟩ | ⟨hnew, h1, h2⟩
    · refine ⟨⟨hreaches, h1 ▸ hm.backEdges, h2 ▸ hm.enteredLoops⟩, .inr ⟨?_, ?_⟩⟩
      · unfold Walk.marksLeft
        rw [h1, h2]
      · rw [← hk]
        refine transGen_cutExpand_add ⟨others, wk₂.pos, fun pos hpos => ?_, hexpands.moved⟩ k wk₂.pos
        exact ⟨hcurrent, i, hi, honward pos hpos⟩
    · have hm' : wk'.Marked s :=
        ⟨hreaches, h1 ▸ marks_cons hm.backEdges hnew hlt, h2 ▸ hm.enteredLoops⟩
      refine ⟨hm', .inl (hm'.marksLeft_lt ?_)⟩
      rw [h1, h2, List.length_cons]
      omega
    · have hm' : wk'.Marked s :=
        ⟨hreaches, h1 ▸ hm.backEdges, h2 ▸ marks_cons hm.enteredLoops hnew hlt⟩
      refine ⟨hm', .inl (hm'.marksLeft_lt ?_)⟩
      rw [h1, h2, List.length_cons]
      omega
  · rw [hback] at h1
    rw [hloops] at h2
    refine ⟨⟨hreaches, h1 ▸ hm.backEdges, h2 ▸ hm.enteredLoops⟩, .inr ⟨?_, ?_⟩⟩
    · unfold Walk.marksLeft
      rw [h1, h2]
    · rw [← hk]
      refine transGen_cutExpand_add ⟨0, wk₂.pos, fun _ h => absurd h (Multiset.notMem_zero _), ?_⟩ k _
      rw [hmoved, add_zero]

/-! ## All paths -/

variable {analyse : Nat → Analyser} {dep : Dependency} {r : Region} {w : World} {m : Machine}

theorem CallsEnd.later {w' : World} (h : CallsEnd analyse w) (hle : w.Le w') : CallsEnd analyse w' :=
  fun w'' m' f args hle' => h w'' m' f args (hle.trans hle')

/-- If no exit of a loop leads back and the calls end, following all paths ends. The budget for the
steps is not the one for the calls. -/
theorem ends_walkFrom (hloops : s.LeavesLoops) (hcalls : CallsEnd analyse w)
    (hconst : KnowsConstants w s) (h : w.Fits m) (hk : w.KnowsWalk wk) (hm : wk.Marked s) :
    ∃ out, (∃ enough, ∀ k ≥ enough, ∀ budget ≥ enough,
      walkFrom (analyse k) dep s r budget wk m = out) ∧ Returned out.1 ∧
        After w (fun v w' _ => w'.Knows v) out := by
  have hwf := WellFounded.prod_lex Nat.lt_wfRel.wf
    (Script.wellFounded_later hloops).cutExpand.transGen
  generalize hsize : (wk.marksLeft s, wk.positions) = size
  induction size using hwf.induction generalizing w wk m with
  | _ size ih =>
    have hstep : Ends w (fun out w' _ => ∀ wk', out = some wk' → w'.KnowsWalk wk')
        (fun k => walkStep (analyse k) dep s r wk) m := ends_walkStep hcalls hconst h hk
    obtain ⟨⟨result, m₁⟩, ⟨enough, henough⟩, hreturned, hafter⟩ := hstep
    cases result with
    | error stop =>
      obtain ⟨e, rfl⟩ := hreturned.error_of
      refine ⟨(.error (.error e), m₁), ⟨enough + 1, fun k hk b hb => ?_⟩, trivial, fun v hv => by cases hv⟩
      obtain ⟨b, rfl⟩ : ∃ j, b = j + 1 := ⟨b - 1, by omega⟩
      unfold walkFrom
      exact run_bind_error (henough k (by omega))
    | ok out =>
      obtain ⟨w₁, hle, hfit, hknows⟩ := hafter out rfl
      rcases stride_of_walkStep (henough enough (Nat.le_refl _)) with
        ⟨rfl, rfl, -⟩ | ⟨wk₂, wk', rfl, hstride⟩
      · refine ⟨(.ok wk.result, m₁), ⟨enough + 1, fun k hk b hb => ?_⟩, trivial, fun v hv => ?_⟩
        · obtain ⟨b, rfl⟩ : ∃ j, b = j + 1 := ⟨b - 1, by omega⟩
          unfold walkFrom
          rw [run_bind_ok (henough k (by omega))]
          rfl
        · cases hv
          exact ⟨w₁, hle, hfit, hle.knows hk.result⟩
      · obtain ⟨hm', hsmaller⟩ := hstride.smaller hm
        have hless : Prod.Lex (· < ·) (TransGen (CutExpand s.Later))
            (wk'.marksLeft s, wk'.positions) size := by
          rw [← hsize]
          rcases hsmaller with hlt | ⟨heq, htrans⟩
          · exact .left _ _ hlt
          · rw [heq]
            exact .right _ htrans
        obtain ⟨final, ⟨enough', henough'⟩, hreturned', hafter'⟩ := ih _ hless (hcalls.later hle)
          (fun v hv => hle.knows (hconst v hv)) hfit (hknows wk' rfl) hm' rfl
        refine ⟨final, ⟨max enough enough' + 1, fun k hk b hb => ?_⟩, hreturned', fun v hv => ?_⟩
        · obtain ⟨b, rfl⟩ : ∃ j, b = j + 1 := ⟨b - 1, by omega⟩
          unfold walkFrom
          rw [run_bind_ok (henough k (by omega))]
          exact henough' k (by omega) b (by omega)
        · obtain ⟨w₂, hle₂, hfit₂, hv₂⟩ := hafter' v hv
          exact ⟨w₂, hle.trans hle₂, hfit₂, hv₂⟩

/-! ## Passes and calls -/

variable {α β : Type} {B C : α → World → Machine → Prop}

/-- What is tidied up after an attempt that ends. -/
theorem Ends.attempt {x : Nat → Run α} {w₁ : World} {m₁ : Machine} (tidy : Machine → Machine)
    (rest : Except EvalError α → Run α) (hok : ∀ a m', rest (.ok a) m' = (.ok a, tidy m'))
    (herror : ∀ e m', rest (.error e) m' = (.error (.error e), tidy m')) (hx : Ends w₁ B x m₁)
    (hB : ∀ a w' m', w₁.Le w' → w'.Fits m' → B a w' m' →
      ∃ w'', w.Le w'' ∧ w''.Fits (tidy m') ∧ C a w'' (tidy m')) :
    Ends w C (fun k => Run.attempt (x k) >>= rest) m₁ := by
  obtain ⟨⟨result, m₂⟩, ⟨enough, henough⟩, hreturned, hafter⟩ := hx
  cases result with
  | error stop =>
    obtain ⟨e, rfl⟩ := hreturned.error_of
    refine ⟨(.error (.error e), tidy m₂), ⟨enough, fun k hk => ?_⟩, trivial, fun b hb => by cases hb⟩
    show (Run.attempt (x k) >>= rest) m₁ = _
    rw [run_bind, run_attempt, henough k hk]
    exact herror e m₂
  | ok a =>
    refine ⟨(.ok a, tidy m₂), ⟨enough, fun k hk => ?_⟩, trivial, fun b hb => ?_⟩
    · show (Run.attempt (x k) >>= rest) m₁ = _
      rw [run_bind, run_attempt, henough k hk]
      exact hok a m₂
    · cases hb
      obtain ⟨w', hle, hfit, hBa⟩ := hafter a rfl
      exact hB a w' m₂ hle hfit hBa

theorem ends_inScope {x : Nat → Run Value} (hfit : w.Fits m)
    (hx : ∀ m', w.Fits m' → Ends w (fun v w' _ => w'.Knows v) x m') :
    Ends w (fun v w' _ => w'.Knows v) (fun k => inScope (x k)) m := by
  have hstart : w.Fits ⟨{ m.context with env := m.context.env.enterScope.2 }, m.store⟩ :=
    hfit.setEnv hfit.env.enterScope
  let tidy (m' : Machine) : Machine :=
    m'.withEnv (m'.context.env.leaveScope m.context.env.hiddenCount)
  refine Ends.bind_ok (run_enterScope m) (Ends.attempt tidy _ (fun _ _ => rfl) (fun _ _ => rfl)
    (hx _ hstart) ?_)
  exact fun v w' m' hle h' hv => ⟨w', hle, h'.setEnv (h'.env.leaveScope _), hv⟩

/-- The world in which calls are nested as deep as given. -/
def atDepth (w : World) (depth : Nat) : World := { w with callDepth := depth }

theorem le_atDepth {w' : World} {depth : Nat} (h : (atDepth w depth).Le w') :
    w.Le (atDepth w' w.callDepth) :=
  ⟨h.old, h.allowed, h.next, h.body, h.dependents, h.registry, h.settings, rfl⟩

theorem fits_atDepth (h : w.Fits m) (depth : Nat) :
    (atDepth w depth).Fits ⟨{ m.context with callDepth := depth }, m.store⟩ :=
  ⟨⟨h.store.next, h.store.dependents, h.store.iterations⟩, h.env, h.stack, h.registry, h.settings, rfl⟩

/-- The start of a pass. -/
theorem marked_start (s : Script Value) : Walk.start.Marked s := by
  refine ⟨fun pos hpos => ?_, ⟨.nil, fun _ h => by cases h⟩, ⟨.nil, fun _ h => by cases h⟩⟩
  rw [Multiset.mem_singleton.1 hpos]
  exact .refl

theorem fits_passStart {args : Bindings} (h : w.Fits m) (hargs : ∀ b ∈ args, w.Knows b.2) :
    w.Fits (passStart s args m) :=
  ⟨h.store, h.env.enterScope.setAll hargs, h.stack, h.registry, h.settings, h.callDepth⟩

/-- Whatever the pass began with, its values stay known when it tidies up. -/
theorem fits_passEnd {m' : Machine} (h : w.Fits m') (s : Script Value) (m : Machine) :
    w.Fits (passEnd s m m') :=
  ⟨h.store, h.env.leaveScope _, fun v hv => h.stack v (List.mem_of_mem_drop hv), h.registry,
    h.settings, h.callDepth⟩

theorem ends_passWith (hloops : s.LeavesLoops) (hcalls : CallsEnd (analyseFor dep) w)
    (hconst : KnowsConstants w s) (h : w.Fits m) {args : Bindings} (hargs : ∀ b ∈ args, w.Knows b.2) :
    Ends w (fun v w' _ => w'.Knows v) (fun k => passWith (analyseFor dep k) k dep s args) m := by
  have hwalk : Ends w (fun v w' _ => w'.Knows v)
      (fun k => walkFrom (analyseFor dep k) dep s (passRegion m) k .start) (passStart s args m) := by
    obtain ⟨out, ⟨enough, henough⟩, hout⟩ := ends_walkFrom (r := passRegion m) hloops hcalls hconst
      (fits_passStart h hargs) ⟨fun path hp => (by cases hp), knows_nil w⟩ (marked_start s)
    exact ⟨out, ⟨enough, fun k hk => henough k hk k hk⟩, hout⟩
  let rest (result : Except EvalError Value) : Run Value := do
    leaveScope m.context.env.hiddenCount
    truncate m.context.stack.length
    change fun c => { c with analyzing := c.analyzing.filter (· ≠ s.id) }
    ofExcept result
  refine Ends.attempt (passEnd s m) rest (fun _ _ => rfl) (fun _ _ => rfl) hwalk ?_
  exact fun v w' m' hle h' hv => ⟨w', hle, fits_passEnd h' s m, hv⟩

/-- A script is analysed one level deeper, unless it is under analysis. -/
theorem ends_analyseScript (hloops : s.LeavesLoops)
    (hcalls : w.callDepth < w.settings.maxCallDepth →
      CallsEnd (analyseFor dep) (atDepth w (w.callDepth + 1)))
    (hconst : KnowsConstants w s) (h : w.Fits m) {args : Bindings} (hargs : ∀ b ∈ args, w.Knows b.2) :
    Ends w (fun v w' _ => w'.Knows v) (fun k => analyseScript (analyseFor dep k) k dep s args) m := by
  unfold analyseScript
  refine Ends.bind_ok (run_context m) ?_
  by_cases hc : m.context.analyzing.contains s.id = true
  · simp only [if_pos hc]
    exact ends_pure h (knows_nil w)
  · simp only [if_neg hc]
    rcases beginCall_cases m with ⟨-, hfail⟩ | ⟨hdepth, hbegin⟩
    · exact Ends.bind_fail hfail
    · rw [h.callDepth, h.settings] at hdepth
      have hpass := ends_passWith hloops (hcalls hdepth) hconst (fits_atDepth h _) hargs
      rw [← h.callDepth] at hpass
      let tidy (m' : Machine) : Machine :=
        ⟨{ m'.context with callDepth := m'.context.callDepth - 1 }, m'.store⟩
      refine Ends.bind_ok hbegin (Ends.attempt tidy _ (fun _ _ => rfl) (fun _ _ => rfl) hpass ?_)
      intro v w' m' hle h' hv
      have hend : m'.context.callDepth - 1 = w.callDepth := by
        rw [h'.callDepth, hle.callDepth]
        show m.context.callDepth + 1 - 1 = w.callDepth
        rw [h.callDepth]
        rfl
      have htidy : tidy m' = ⟨{ m'.context with callDepth := w.callDepth }, m'.store⟩ := by
        rw [← hend]
      exact ⟨atDepth w' w.callDepth, le_atDepth hle, htidy ▸ fits_atDepth h' w.callDepth, hv⟩

theorem after_intern {st : Store} (h : w.FitsStore st) (name : String) :
    AfterStore w (fun _ _ => True) (Store.intern name st) :=
  ⟨w, .refl w, ⟨h.next, h.dependents, h.iterations⟩, trivial⟩

/-- Calls of a known value end, if scripts can be called. The parts of the value are called in later
worlds than the one in which it is known. -/
theorem ends_analyse (hallowed : ∀ v, w.allowed v → v.Tame)
    (hscript : ∀ {s w' m args}, w.Le w' → s.LeavesLoops → KnowsConstants w' s → w'.Fits m →
      (∀ b ∈ args, w'.Knows b.2) → Ends w' (fun v w'' _ => w''.Knows v)
        (fun k => analyseScript (analyseFor dep k) k dep s args) m)
    {w₀ : World} {function : Value} (hk : w₀.Knows function) {args : Bindings} (hle₀ : w₀.Le w)
    (h : w.Fits m) (hargs : ∀ b ∈ args, w.Knows b.2) :
    Ends w (fun v w' _ => w'.Knows v) (fun k => analyseFor dep k function args) m := by
  induction hk generalizing w m args with
  | @intro function hadmits hparts ih =>
    have htame : function.Tame := hallowed function (hle₀.allowed ▸ hadmits.1)
    have hknown : ∀ c ∈ function.children, w.Knows c := fun c hc => hle₀.knows (hparts c hc)
    -- a part is called in this world or a later one
    have hpart : ∀ c ∈ function.children, ∀ {w' m' args}, w.Le w' → w'.Fits m' →
        (∀ b ∈ args, w'.Knows b.2) → Ends w' (fun v w'' _ => w''.Knows v)
          (fun k => analyseFor dep k c args) m' := by
      intro c hc w' m' args' hle h' hargs'
      refine ih c hc (fun v hv => hallowed v (hle.allowed ▸ hv)) ?_ (hle₀.trans hle) h' hargs'
      exact fun hle' => hscript (hle.trans hle')
    refine Ends.of_succ ?_
    show Ends w _ (fun k => analyseWith (analyseFor dep k) k dep function args) m
    cases function with
    | script s =>
      exact hscript (.refl w) htame (fun v hv => hknown v (Array.mem_toList_iff.2 hv)) h hargs
    | builtin id f =>
      have hhook : f.hook = none := htame
      simp only [analyseWith, hhook]
      exact ends_pure h (knows_nil w)
    | closure id inner captured =>
      refine hpart inner List.mem_cons_self (.refl w) h fun b hb => ?_
      rcases List.mem_append.1 hb with hb | hb
      · exact hknown b.2 (List.mem_cons_of_mem _ (List.mem_map_of_mem hb))
      · exact hargs b hb
    | composition id first second =>
      refine (hpart first List.mem_cons_self (.refl w) h hargs).bind fun v w₁ m₁ hle₁ h₁ hv => ?_
      refine (ends_store h₁ (after_intern h₁.store "input")).bind fun x w₂ m₂ hle₂ h₂ _ => ?_
      refine hpart second (List.mem_cons_of_mem _ List.mem_cons_self) (hle₁.trans hle₂) h₂
        fun b hb => ?_
      rw [List.mem_singleton.1 hb]
      exact hle₂.knows hv
    | object id body =>
      refine ends_inScope h fun m₁ h₁ => ?_
      refine Ends.bind_ok (run_bindAll args m₁) ?_
      have h₂ := h₁.setEnv (h₁.env.setAll hargs)
      cases body with
      | host o => exact False.elim htame
      | placeholder g => exact ends_pure h₂ (knows_nil w)
      | union a b =>
        have hnone : ∀ w' : World, ∀ b ∈ ([] : Bindings), w'.Knows b.2 := fun _ _ hb => by cases hb
        refine (hpart a List.mem_cons_self (.refl w) h₂ (hnone w)).bind fun x w₁ m₃ hle₁ h₃ hx => ?_
        refine (hpart b (List.mem_cons_of_mem _ List.mem_cons_self) hle₁ h₃ (hnone w₁)).bind
          fun y w₂ m₄ hle₂ h₄ hy => ?_
        exact (ends_store h₄ (after_either h₄.store (hle₂.knows hx) hy)).mono
          fun _ _ _ _ hv => hv.1.1
    | _ => exact ends_pure h (knows_nil w)

/-- All calls end, by induction on the depth that is left. -/
theorem callsEnd (left : Nat) (hallowed : ∀ v, w.allowed v → v.Tame)
    (hleft : w.settings.maxCallDepth - w.callDepth = left) : CallsEnd (analyseFor dep) w := by
  induction left using Nat.strong_induction_on generalizing w with
  | _ left ih =>
    intro w₁ m₁ function args hle h₁ hfunction hargs
    refine ends_analyse (fun v hv => hallowed v (hle.allowed ▸ hv)) ?_ hfunction (.refl w₁) h₁ hargs
    intro s w₂ m₂ args₂ hle₂ hloops hconst h₂ hargs₂
    refine ends_analyseScript hloops (fun hdepth => ?_) hconst h₂ hargs₂
    have hle' := hle.trans hle₂
    refine ih (left - 1) ?_ (fun v hv => hallowed v (hle'.allowed ▸ hv)) ?_
    · rw [hle'.settings, hle'.callDepth] at hdepth
      omega
    · show w₂.settings.maxCallDepth - (w₂.callDepth + 1) = left - 1
      rw [hle'.settings, hle'.callDepth]
      omega

/-- What a pass knows when it begins in a machine whose values are all allowed. -/
def startWorld {allowed : Value → Prop} (hmade : ∀ v, v.Made → allowed v) (m : Machine) : World where
  old _ := True
  body _ := .placeholder (.group "" [])
  allowed := allowed
  allowed_of_made := hmade
  next := m.store.nextIdent
  dependents := m.store.dependents
  registry := m.context.registry
  settings := m.context.settings
  callDepth := m.context.callDepth

variable {allowed : Value → Prop} {hmade : ∀ v, v.Made → allowed v}

theorem knows_startWorld {v : Value} (h : v.Every allowed) : (startWorld hmade m).Knows v :=
  h.mono fun _ hv => ⟨hv, fun _ _ _ => .inl trivial⟩

theorem fits_startWorld (h : m.All allowed) : (startWorld hmade m).Fits m where
  store := ⟨rfl, rfl, fun it hit => all_iteration_mono (fun _ => knows_startWorld)
    (h.iterations it hit)⟩
  env := h.env.mono fun _ => knows_startWorld
  stack v hv := knows_startWorld (h.stack v hv)
  registry := rfl
  settings := rfl
  callDepth := rfl

theorem tame_of_made (v : Value) (hv : v.Made) : v.Tame := by
  cases v with
  | object id body => cases body <;> trivial
  | script s => exact False.elim hv
  | builtin id f => exact False.elim hv
  | _ => trivial

/-- In a machine without host objects and hooks, a pass over a script comes back if no loop leads
back. -/
theorem returned_of_leavesLoops {s : Script Value} (hloops : s.LeavesLoops) (hm : m.Tame)
    (hs : ∀ v ∈ s.constants, v.Every Value.Tame) (dep : Dependency) :
    ∃ enough, ∀ budget ≥ enough, Returned (trackReads budget dep s m).1 := by
  let w := startWorld tame_of_made m
  have hconst : KnowsConstants w s := fun v hv => knows_startWorld (hs v hv)
  have hnone : ∀ b ∈ ([] : Bindings), w.Knows b.2 := fun _ hb => by cases hb
  have hcalls : CallsEnd (analyseFor dep) w := callsEnd _ (fun _ => id) rfl
  obtain ⟨out, ⟨enough, henough⟩, hreturned, -⟩ :=
    ends_passWith hloops hcalls hconst (fits_startWorld ⟨hm.env, hm.stack, hm.iterations⟩) hnone
  refine ⟨enough, fun budget hbudget => ?_⟩
  have hout : trackReads budget dep s m = out := henough budget hbudget
  rw [hout]
  exact hreturned

/-- It comes back exactly if no loop leads back or if it fails. -/
theorem trackReads_ends_iff (s : Script Value) (dep : Dependency) (m : Machine) (hm : m.Tame)
    (hs : ∀ v ∈ s.constants, v.Every Value.Tame) :
    (∃ enough, ∀ budget ≥ enough, Returned (trackReads budget dep s m).1) ↔
      s.LeavesLoops ∨
        ∃ enough, ∀ budget ≥ enough, ∃ e, (trackReads budget dep s m).1 = .error (.error e) := by
  constructor
  · rintro ⟨enough, henough⟩
    by_cases hloops : s.LeavesLoops
    · exact .inl hloops
    · refine .inr ⟨enough, fun budget hbudget => ?_⟩
      have hreturned := henough budget hbudget
      rcases hrun : trackReads budget dep s m with ⟨stop | v, m'⟩
      · rw [hrun] at hreturned
        obtain ⟨e, rfl⟩ := hreturned.error_of
        exact ⟨e, rfl⟩
      · exact absurd (leavesLoops_of_trackReads hrun) hloops
  · rintro (hloops | ⟨enough, hfails⟩)
    · exact returned_of_leavesLoops hloops hm hs dep
    · refine ⟨enough, fun budget hbudget => ?_⟩
      obtain ⟨e, he⟩ := hfails budget hbudget
      rw [he]
      trivial

/-- A loop over the numbers from 1 to 2, with an empty body. -/
def rangeLoop : Script Value :=
  ⟨0, #[.of .pushConst 0, .of .pushConst 1, .of .binary (Family.code BinaryOp.iteratorR),
    .of .pushConst 2, .of .loop 7, .of .pop 0, .of .jump 4, .of .ret 0], #[.int 1, .int 2, .nil]⟩

/-- A machine in which nothing happened yet. -/
def freshMachine : Machine := ⟨Context.ofSettings ⟨10, false, 0⟩, .empty⟩

theorem tame_freshMachine : freshMachine.Tame :=
  ⟨⟨fun _ s hs => (by cases hs), fun _ hb => (by cases hb)⟩, fun _ hv => (by cases hv),
    fun _ hit => absurd hit (Array.not_mem_empty _)⟩

theorem trackReads_ends_rangeLoop : ∃ enough, ∀ budget ≥ enough,
    Returned (trackReads budget ⟨.cardField, 0⟩ rangeLoop freshMachine).1 := by
  have hok : (trackReads 40 ⟨.cardField, 0⟩ rangeLoop freshMachine).1.isOk = true := by
    decide +kernel
  have hconst : ∀ v ∈ rangeLoop.constants, v.Every Value.Tame := by
    intro v hv
    have hv' : v = .int 1 ∨ v = .int 2 ∨ v = .nil := by simpa [rangeLoop] using hv
    rcases hv' with rfl | rfl | rfl <;> exact Value.every_of_children_nil trivial rfl
  rcases hrun : trackReads 40 ⟨.cardField, 0⟩ rangeLoop freshMachine with ⟨stop | v, m'⟩
  · rw [hrun] at hok
    cases hok
  · exact (trackReads_ends_iff rangeLoop ⟨.cardField, 0⟩ freshMachine tame_freshMachine hconst).2
      (.inl (leavesLoops_of_trackReads hrun))

/-! ## A loop that leads back -/

/-- A script whose only instruction is a loop with itself as its exit. -/
def loopToItself : Script Value := ⟨0, #[.of .loop 0], #[]⟩

/-- Once the loop was entered, its exit waits there again after every step. -/
theorem exhausted_of_waits {analyse : Analyser} (budget : Nat) (frame : List Value)
    (bindings : List (Variable × Option Value)) (pos : Nat) (backEdges : List Nat) (result : Value)
    (m : Machine) : ∃ m', walkFrom analyse dep loopToItself r budget
      ⟨pos, false, [⟨0, frame, bindings⟩], backEdges, [0], result⟩ m = (.error .exhausted, m') := by
  induction budget generalizing frame bindings pos m with
  | zero => exact ⟨m, rfl⟩
  | succ budget ih =>
    obtain ⟨frame', bindings', m₁, hstep⟩ : ∃ frame' bindings' m₁,
        walkStep analyse dep loopToItself r
          ⟨pos, false, [⟨0, frame, bindings⟩], backEdges, [0], result⟩ m =
        (.ok (some ⟨0, false, [⟨0, frame', bindings'⟩], backEdges, [0], result⟩), m₁) :=
      ⟨_, _, _, rfl⟩
    unfold walkFrom
    rw [run_bind_ok hstep]
    exact ih frame' bindings' 0 m₁

theorem loopElement_ok (frame : List Value) (m : Machine) :
    ∃ entry m', loopElement frame m = (.ok entry, m') := by
  rcases frame with _ | ⟨a, _ | ⟨b, rest⟩⟩
  · exact ⟨_, _, rfl⟩
  · exact ⟨_, _, rfl⟩
  · cases b <;> exact ⟨_, _, rfl⟩

/-- The first step enters the loop. -/
theorem walkStep_loopToItself (analyse : Analyser) (dep : Dependency) (r : Region)
    (m : Machine) : ∃ frame bindings m', walkStep analyse dep loopToItself r .start m =
      (.ok (some ⟨1, true, [⟨0, frame, bindings⟩], [], [0], .nil⟩), m') := by
  let frame := m.context.stack.take (m.context.stack.length - r.base)
  obtain ⟨entry, m₁, hentry⟩ := loopElement_ok frame m
  have hentered : walkLoop loopToItself r .start 0 false m =
      (.ok ⟨1, true, [⟨0, withoutSecond frame, m.context.env.reboundSince r.mark⟩], [], [0], .nil⟩,
        m₁.withStack (entry.2 :: m₁.context.stack)) := by
    show (loopElement frame >>= fun entry => _) m = _
    rw [run_bind_ok hentry]
    rfl
  refine ⟨withoutSecond frame, m.context.env.reboundSince r.mark,
    m₁.withStack (entry.2 :: m₁.context.stack), ?_⟩
  show (walkLoop loopToItself r .start 0 false >>= fun wk => pure (some wk)) m = _
  rw [run_bind_ok hentered]
  rfl

/-- The pass over it never comes back. -/
theorem not_returned_loopToItself (budget : Nat) (dep : Dependency) (m : Machine) :
    ¬ Returned (trackReads budget dep loopToItself m).1 := by
  obtain ⟨m', hwalk⟩ : ∃ m', walkFrom (analyseFor dep budget) dep loopToItself (passRegion m) budget
      .start (passStart loopToItself [] m) = (.error .exhausted, m') := by
    generalize analyseFor dep budget = analyse
    obtain ⟨frame, bindings, m₁, hfirst⟩ := walkStep_loopToItself analyse dep
      (passRegion m) (passStart loopToItself [] m)
    -- behind the loop the code ends
    obtain ⟨result, m₂, hsecond⟩ : ∃ result m₂, walkStep analyse dep loopToItself (passRegion m)
        ⟨1, true, [⟨0, frame, bindings⟩], [], [0], .nil⟩ m₁ =
          (.ok (some ⟨1, false, [⟨0, frame, bindings⟩], [], [0], result⟩), m₂) :=
      ⟨_, _, rfl⟩
    rcases budget with _ | budget
    · exact ⟨_, rfl⟩
    · unfold walkFrom
      rw [run_bind_ok hfirst]
      rcases budget with _ | budget
      · exact ⟨_, rfl⟩
      · show ∃ m', walkFrom analyse dep loopToItself (passRegion m) (budget + 1)
          ⟨1, true, [⟨0, frame, bindings⟩], [], [0], .nil⟩ m₁ = (.error .exhausted, m')
        unfold walkFrom
        rw [run_bind_ok hsecond]
        exact exhausted_of_waits budget frame bindings 1 [] result m₂
  unfold trackReads
  rw [passWith_of_exhausted hwalk]
  exact id

end Run

end ReactiveScript
