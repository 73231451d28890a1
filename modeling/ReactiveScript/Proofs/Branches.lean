import ReactiveScript.Proofs.Frontier

/-
  Every way through branching code is covered.

  Over an instruction of branching code the pass covers every move and registers the dependency with
  every owner read (`Stepped`). So when all paths have been followed, every owner that some
  evaluation reads has the dependency.
-/

namespace ReactiveScript.Run

open World

variable {w : World} {r : Region} {outer : Environment} {below : List Value} {H : Nat → Nat}
  {wk : Walk} {m : Machine}

/-! ## Instructions -/

/-- Over an instruction the state is kept and no waiting path is lost. Whatever the current path
covers, the dependency is registered with the owners that the instruction reads, and every move ends
on the frontier. -/
structure Stepped (s : Script Value) (dep : Dependency) (r : Region) (outer : Environment)
    (below : List Value) (H : Nat → Nat) (i : Instruction) (w : World) (wk : Walk) (m : Machine)
    (wk' : Walk) (w' : World) (m' : Machine) : Prop where
  state : PassState w' r outer below H wk' m'
  kept : ∀ path ∈ wk.pending, path ∈ wk'.pending
  covers : ∀ o, CoversLive w.old below o m →
    (∀ owner ∈ o.readsAt w.registry s i, w'.Registered dep owner) ∧
    ∀ next o', o.Moves w.registry s wk.pos i next o' → Frontier w.old below wk' m' next o'

variable {s : Script Value} {dep : Dependency} {i : Instruction} {analyse : Analyser}

/-- The current path goes on at the next position. -/
theorem stepped_next (st : PassState w r outer below H wk m) (hlive : wk.live = true) {w' : World}
    {m' : Machine} (hle : w.Le w') (hfit : w'.Fits m') {f : List Value}
    (hs : m'.context.stack = f ++ below) (hlen : f.length = H (wk.pos + 1))
    (henv : Environment.Inside outer m'.context.env)
    (hcov : ∀ o, CoversLive w.old below o m →
      (∀ owner ∈ o.readsAt w.registry s i, w'.Registered dep owner) ∧
      ∀ next o', o.Moves w.registry s wk.pos i next o' →
        next = wk.pos + 1 ∧ CoversLive w.old below o' m') :
    Stepped s dep r outer below H i w wk m wk.next w' m' := by
  refine ⟨⟨hfit, hle.separates st.separates, st.mark, st.base, ⟨f, hs, fun _ => hlen⟩, henv,
    hle.old ▸ st.outside, fun path hp => ?_, hle.knows st.result⟩, fun path hp => hp,
    fun o ho => ?_⟩
  · obtain ⟨h1, h2, h3⟩ := st.paths path hp
    exact ⟨hle.knowsPath h1, h2, h3⟩
  · obtain ⟨hreads, hmoves⟩ := hcov o ho
    refine ⟨hreads, fun next o' hm => ?_⟩
    obtain ⟨rfl, hc⟩ := hmoves next o' hm
    exact .inl ⟨hlive, rfl, hc⟩

/-- An instruction that works on the frame only: with `f` above `below` it leaves `f'`, and what
covered `f` covers `f'` after its only move. -/
theorem stepped_frame (st : PassState w r outer below H wk m) (hlive : wk.live = true) {w' : World}
    {m' : Machine} (hle : w.Le w') (hfit : w'.Fits m') {f f' : List Value}
    (hs : m.context.stack = f ++ below) (hs' : m'.context.stack = f' ++ below)
    (hlen : f'.length = H (wk.pos + 1)) (henv : m'.context.env = m.context.env)
    (moved : Origins → Origins → Prop)
    (hmoved : ∀ (o : Origins) next o', o.Moves w.registry s wk.pos i next o' →
      next = wk.pos + 1 ∧ moved o o')
    (hcov : ∀ o o', moved o o' → List.Forall₂ (CoversOrigin w.old) o.frame f →
      (∀ var g, o.vars var = .node g → m.context.env.CoversAt w.old var g) →
      List.Forall₂ (CoversOrigin w.old) o'.frame f' ∧ o'.vars = o.vars)
    (hreads : ∀ o : Origins, List.Forall₂ (CoversOrigin w.old) o.frame f →
      ∀ owner ∈ o.readsAt w.registry s i, w'.Registered dep owner) :
    Stepped s dep r outer below H i w wk m wk.next w' m' := by
  refine stepped_next st hlive hle hfit hs' hlen (henv ▸ st.inside) fun o ho => ?_
  obtain ⟨f₁, hs₁, hc⟩ := ho.frame
  rw [← List.append_cancel_right (hs.symm.trans hs₁)] at hc
  refine ⟨hreads o hc, fun next o' hm => ?_⟩
  obtain ⟨hnext, hmv⟩ := hmoved o next o' hm
  obtain ⟨hc', hvars⟩ := hcov o o' hmv hc ho.vars
  refine ⟨hnext, ⟨⟨f', hs', hc'⟩, fun var g hg => ?_⟩⟩
  rw [henv]
  exact ho.vars var g (hvars ▸ hg)

theorem coversOrigin_other (old : Ident → Prop) (v : Value) : CoversOrigin old .other v :=
  fun _ e => by cases e

/-- The path that is put aside covers what the current one covers. -/
theorem suspended_covers (st : PassState w r outer below H wk m) {o : Origins}
    (h : CoversLive w.old below o m) (target : Nat) :
    CoversPath w.old o ⟨target, m.context.stack.take (m.context.stack.length - r.base),
      m.context.env.reboundSince r.mark⟩ := by
  obtain ⟨f, hs, hc⟩ := h.frame
  refine ⟨?_, fun var g hg => ?_⟩
  · rw [hs, take_append st.base]
    exact hc
  · obtain ⟨v, hv, hcov⟩ := h.vars var g hg
    obtain ⟨hb, hmem⟩ := st.inside.reboundSince
    rw [st.mark]
    refine ⟨v, hcov, hv ▸ hmem var fun he => ?_, fun u hu => ?_⟩
    · exact st.outside var v g (he ▸ hv) hcov
    · rw [← hv]
      exact (hb _ hu).2

theorem suspended_state (st : PassState w r outer below H wk m) {f : List Value}
    (hs : m.context.stack = f ++ below) {target : Nat} (hlen : f.length = H target) :
    PassState w r outer below H (wk.wait ⟨target,
      m.context.stack.take (m.context.stack.length - r.base),
      m.context.env.reboundSince r.mark⟩) m := by
  refine ⟨st.fits, st.separates, st.mark, st.base, st.frame, st.inside, st.outside,
    fun path hp => ?_, st.result⟩
  rcases List.mem_append.1 hp with hp | hp
  · exact st.paths path hp
  · rw [List.mem_singleton.1 hp]
    refine ⟨knowsPath_suspended st.fits r target, ?_, fun b hb => ?_⟩
    · rw [hs, take_append st.base]
      exact hlen
    · exact (st.inside.reboundSince.1 b (st.mark ▸ hb)).1

/-- The target of a jump in a pass is the one that the instruction names. -/
theorem after_target {α : Type} {B : α → World → Machine → Prop} {f : Nat → Run α} {pos n : Nat}
    (h : After w B (f n m)) :
    After w B ((do f (← ofExcept (s.targetInPass pos n)) : Run α) m) := by
  unfold Script.targetInPass
  by_cases hn : n > s.length
  · simp only [if_pos hn]
    exact after_fail _
  · simp only [if_neg hn]
    exact After.bind_ok rfl h

theorem run_walkBranch_forward (r : Region) (wk : Walk) {target : Nat} (h : wk.pos < target)
    (m : Machine) : walkBranch r wk target m = (.ok (wk.wait ⟨target,
      m.context.stack.take (m.context.stack.length - r.base),
      m.context.env.reboundSince r.mark⟩), m) := by
  unfold walkBranch
  simp only [if_pos h]
  rfl

theorem forall₂_tail {α β : Type} {R : α → β → Prop} {as : List α} {bs : List β}
    (h : List.Forall₂ R as bs) : List.Forall₂ R (as.drop 1) bs.tail := by
  cases h with
  | nil => exact .nil
  | cons _ h => exact h

/-- The frame without its top. -/
theorem popped_covers {o : Origins} {f : List Value} (hs : m.context.stack = f ++ below)
    (h : CoversLive w.old below o m) :
    CoversLive w.old below (o.drop 1) (m.withStack (f.tail ++ below)) := by
  obtain ⟨f₁, hs₁, hc⟩ := h.frame
  rw [← List.append_cancel_right (hs.symm.trans hs₁)] at hc
  exact ⟨⟨f.tail, rfl, forall₂_tail hc⟩, h.vars⟩

theorem popped_state (st : PassState w r outer below H wk m) {f : List Value}
    (hs : m.context.stack = f ++ below) (hlen : f.length = H (wk.pos + 1) + 1) :
    PassState w r outer below H wk.next (m.withStack (f.tail ++ below)) := by
  refine ⟨st.fits.setStack fun v hv => ?_, st.separates, st.mark, st.base,
    ⟨f.tail, rfl, fun _ => ?_⟩, st.inside, st.outside, st.paths, st.result⟩
  · refine st.fits.stack v ?_
    rw [hs]
    rcases List.mem_append.1 hv with hv | hv
    · exact List.mem_append_left _ (List.mem_of_mem_tail hv)
    · exact List.mem_append_right _ hv
  · rw [List.length_tail, hlen]
    rfl

/-- What covers a frame covers each operand in it. -/
theorem covers_operand {old : Ident → Prop} {o : Origins} {f : List Value}
    (h : List.Forall₂ (CoversOrigin old) o.frame f) (k : Nat) :
    CoversOrigin old (o.operand k) ((f.drop k).headD .nil) := by
  unfold Origins.operand
  have hd : List.Forall₂ (CoversOrigin old) (o.frame.drop k) (f.drop k) := List.forall₂_drop k h
  rw [← List.head?_drop]
  generalize o.frame.drop k = origins at hd ⊢
  generalize f.drop k = values at hd ⊢
  cases hd with
  | nil => exact coversOrigin_other old _
  | cons hv _ => exact hv

/-- An instruction that puts a known value in the place of `k` operands. What its origin can be is
given, and read in the frame and the variables. -/
theorem stepped_replace (st : PassState w r outer below H wk m) (hlive : wk.live = true)
    {f : List Value} (hs : m.context.stack = f ++ below) (k : Nat)
    (hlen : (f.drop k).length + 1 = H (wk.pos + 1)) {w' : World} {m' : Machine} (hle : w.Le w')
    (hfit : w'.Fits m') (hs' : m'.context.stack = f.drop k ++ below)
    (henv : m'.context.env = m.context.env) {v : Value} (hv : w'.Knows v)
    (given : Origins → Origin → Prop)
    (hmoves : ∀ (o : Origins) next o', o.Moves w.registry s wk.pos i next o' →
      next = wk.pos + 1 ∧ ∃ x, given o x ∧ o' = (o.drop k).push x)
    (hgiven : ∀ (o : Origins) x, given o x → List.Forall₂ (CoversOrigin w.old) o.frame f →
      (∀ var g, o.vars var = .node g → m.context.env.CoversAt w.old var g) →
      CoversOrigin w.old x v)
    (hreads : ∀ o : Origins, List.Forall₂ (CoversOrigin w.old) o.frame f →
      ∀ owner ∈ o.readsAt w.registry s i, w'.Registered dep owner) :
    After w' (Stepped s dep r outer below H i w wk m) ((do
      push v
      return wk.next : Run Walk) m') := by
  refine After.bind_ok (push_eq v m') ?_
  have hfit' : w'.Fits (m'.withStack (v :: m'.context.stack)) := by
    refine hfit.setStack fun x hx => ?_
    rcases List.mem_cons.1 hx with rfl | hx
    · exact hv
    · exact hfit.stack x hx
  have hs₂ : (m'.withStack (v :: m'.context.stack)).context.stack = v :: f.drop k ++ below :=
    congrArg (v :: ·) hs'
  refine after_pure hfit' (stepped_frame st hlive hle hfit' hs hs₂ hlen henv
    (fun o o' => ∃ x, given o x ∧ o' = (o.drop k).push x) hmoves ?_ hreads)
  rintro o o' ⟨x, hx, rfl⟩ hc hvars
  exact ⟨.cons (hgiven o x hx hc hvars) (List.forall₂_drop k hc), rfl⟩

/-- The same, if the value covers whatever its only origin can be. -/
theorem stepped_other (st : PassState w r outer below H wk m) (hlive : wk.live = true)
    {f : List Value} (hs : m.context.stack = f ++ below) (k : Nat)
    (hlen : (f.drop k).length + 1 = H (wk.pos + 1)) {w' : World} {m' : Machine} (hle : w.Le w')
    (hfit : w'.Fits m') (hs' : m'.context.stack = f.drop k ++ below)
    (henv : m'.context.env = m.context.env) {v : Value} (hv : w'.Knows v)
    (hmoves : ∀ (o : Origins) next o', o.Moves w.registry s wk.pos i next o' →
      next = wk.pos + 1 ∧ ∃ x, (∀ g, x ≠ Origin.node g) ∧ o' = (o.drop k).push x)
    (hreads : ∀ o : Origins, ∀ owner ∈ o.readsAt w.registry s i, w'.Registered dep owner) :
    After w' (Stepped s dep r outer below H i w wk m) ((do
      push v
      return wk.next : Run Walk) m') :=
  stepped_replace st hlive hs k hlen hle hfit hs' henv hv (fun _ x => ∀ g, x ≠ Origin.node g)
    hmoves (fun _ _ hx _ _ g e => absurd e (hx g)) fun o _ => hreads o

theorem no_reads (o : Origins) (registry : Registry) (s : Script Value) (i : Instruction)
    (h1 : i.opcode ≠ .getVar) (h2 : i.opcode ≠ .memberC) : o.readsAt registry s i = [] := by
  rcases i with ⟨opcode, n, hn⟩
  cases opcode <;> first | rfl | exact absurd rfl h1 | exact absurd rfl h2

/-! ## One lemma for each kind of instruction -/

/-- A constant is pushed. -/
theorem after_walkPushConst (st : PassState w r outer below H wk m) (hlive : wk.live = true)
    (hconst : KnowsConstants w s) {n : Nat} (hlen : H (wk.pos + 1) = H wk.pos + 1)
    (hmoves : ∀ (o : Origins) next o', o.Moves w.registry s wk.pos i next o' →
      next = wk.pos + 1 ∧ o' = o.push .other)
    (hreads : ∀ o : Origins, ∀ owner ∈ o.readsAt w.registry s i, w.Registered dep owner) :
    After w (Stepped s dep r outer below H i w wk m) ((do
      push (← ofExcept (s.constantAt wk.pos n))
      return wk.next : Run Walk) m) := by
  obtain ⟨f, hs, hf⟩ := st.frame
  refine after_except fun v hv => ?_
  have hknown : w.Knows v := hconst v (Array.mem_of_getElem? (constant_of_constantAt hv))
  refine stepped_other st hlive hs 0 ?_ (.refl w) st.fits hs rfl hknown (fun o next o' hm => ?_)
    hreads
  · rw [List.drop_zero, hf hlive, hlen]
  · exact ⟨(hmoves o next o' hm).1, .other, fun _ e => (by cases e), (hmoves o next o' hm).2⟩

/-- The top of the frame is dropped. -/
theorem after_walkPop (st : PassState w r outer below H wk m) (hlive : wk.live = true)
    (hdrop : H wk.pos = H (wk.pos + 1) + 1)
    (hmoves : ∀ (o : Origins) next o', o.Moves w.registry s wk.pos i next o' →
      next = wk.pos + 1 ∧ o' = o.drop 1)
    (hreads : ∀ o : Origins, ∀ owner ∈ o.readsAt w.registry s i, w.Registered dep owner) :
    After w (Stepped s dep r outer below H i w wk m) ((do
      let _ ← takeOrNil r.base
      return wk.next : Run Walk) m) := by
  obtain ⟨f, hs, hf⟩ := st.frame
  refine After.bind_ok (take_eq st.base hs) ?_
  have hlen : f.tail.length = H (wk.pos + 1) := by
    rw [List.length_tail, hf hlive, hdrop, Nat.add_sub_cancel]
  have hfit : w.Fits (m.withStack (f.tail ++ below)) :=
    fits_withoutTop st.fits hs fun v hv => List.mem_of_mem_tail hv
  refine after_pure hfit (stepped_frame st hlive (.refl w) hfit hs rfl hlen rfl
    (fun o o' => o' = o.drop 1) hmoves ?_ fun o _ => hreads o)
  rintro o _ rfl hc -
  exact ⟨forall₂_tail hc, rfl⟩

/-- An operand is pushed once more. -/
theorem after_walkDup (st : PassState w r outer below H wk m) (hlive : wk.live = true) {n : Nat}
    (hlen : H (wk.pos + 1) = H wk.pos + 1)
    (hmoves : ∀ (o : Origins) next o', o.Moves w.registry s wk.pos i next o' →
      next = wk.pos + 1 ∧ o' = o.push (o.operand n))
    (hreads : ∀ o : Origins, ∀ owner ∈ o.readsAt w.registry s i, w.Registered dep owner) :
    After w (Stepped s dep r outer below H i w wk m) ((do
      push ((← frame r.base)[n]?.getD .nil)
      return wk.next : Run Walk) m) := by
  obtain ⟨f, hs, hf⟩ := st.frame
  refine After.bind_ok (frame_eq m) ?_
  have hget : f[n]?.getD .nil = (f.drop n).headD .nil := by
    rw [← List.head?_drop, List.headD_eq_head?_getD]
  rw [hs, take_append st.base, hget]
  have hknown := knows_headD st.fits hs fun v (hv : v ∈ f.drop n) => List.mem_of_mem_drop hv
  refine stepped_replace st hlive hs 0 ?_ (.refl w) st.fits hs rfl hknown
    (fun o x => x = o.operand n) (fun o next o' hm => ?_) ?_ fun o _ => hreads o
  · rw [List.drop_zero, hf hlive, hlen]
  · exact ⟨(hmoves o next o' hm).1, _, rfl, (hmoves o next o' hm).2⟩
  · rintro o _ rfl hc -
    exact covers_operand hc n

/-- A jump forward: the path waits at the target. -/
theorem after_walkJump (st : PassState w r outer below H wk m) {n : Nat} (hn : wk.pos < n)
    {f : List Value} (hs : m.context.stack = f ++ below) (hlen : f.length = H n)
    (hmoves : ∀ (o : Origins) next o', o.Moves w.registry s wk.pos i next o' → next = n ∧ o' = o)
    (hreads : ∀ o : Origins, ∀ owner ∈ o.readsAt w.registry s i, w.Registered dep owner) :
    After w (Stepped s dep r outer below H i w wk m) (walkJump s r wk n m) := by
  unfold walkJump
  refine after_target ?_
  simp only [if_pos hn]
  refine After.bind_ok (suspendPath_eq r _ m) ?_
  have st' := suspended_state st hs hlen
  refine after_pure st.fits ⟨⟨st'.fits, st'.separates, st'.mark, st'.base, ⟨f, hs, fun h => ?_⟩,
    st'.inside, st'.outside, st'.paths, st'.result⟩, fun path hp => ?_, fun o ho => ⟨hreads o, ?_⟩⟩
  · cases h
  · exact List.mem_append_left _ hp
  · intro next o' hm
    obtain ⟨rfl, rfl⟩ := hmoves o next o' hm
    exact .inr ⟨_, List.mem_append_right _ (List.mem_singleton_self _), rfl,
      suspended_covers st ho _⟩

/-- A jump on a condition that is dropped either way. -/
theorem after_walkJumpIfNot (st : PassState w r outer below H wk m) (hlive : wk.live = true)
    {n : Nat} (hn : wk.pos < n) (hdrop : H wk.pos = H (wk.pos + 1) + 1)
    (htarget : H n = H (wk.pos + 1))
    (hmoves : ∀ (o : Origins) next o', o.Moves w.registry s wk.pos i next o' →
      (next = wk.pos + 1 ∨ next = n) ∧ o' = o.drop 1)
    (hreads : ∀ o : Origins, ∀ owner ∈ o.readsAt w.registry s i, w.Registered dep owner) :
    After w (Stepped s dep r outer below H i w wk m) ((do
      let target ← ofExcept (s.targetInPass wk.pos n)
      let _ ← takeOrNil r.base
      return (← walkBranch r wk target).next : Run Walk) m) := by
  obtain ⟨f, hs, hf⟩ := st.frame
  have hlen : f.length = H (wk.pos + 1) + 1 := (hf hlive).trans hdrop
  refine after_target ?_
  refine After.bind_ok (take_eq st.base hs) ?_
  refine After.bind_ok (run_walkBranch_forward r wk hn _) ?_
  have popped := popped_state st hs hlen
  have htail : f.tail.length = H n := by
    rw [List.length_tail, hlen, htarget]
    rfl
  have st' := suspended_state popped rfl htail
  refine after_pure popped.fits ⟨st', fun path hp => List.mem_append_left _ hp,
    fun o ho => ⟨hreads o, fun next o' hm => ?_⟩⟩
  obtain ⟨hnext, rfl⟩ := hmoves o next o' hm
  have hpop := popped_covers hs ho
  rcases hnext with rfl | rfl
  · exact .inl ⟨hlive, rfl, hpop⟩
  · exact .inr ⟨_, List.mem_append_right _ (List.mem_singleton_self _), rfl,
      suspended_covers popped hpop _⟩

/-- A short-circuit jump keeps the condition for the jumping path. -/
theorem after_walkShortCircuit (st : PassState w r outer below H wk m) (hlive : wk.live = true)
    {n : Nat} (hn : wk.pos < n) (htarget : H n = H wk.pos)
    (hdrop : H wk.pos = H (wk.pos + 1) + 1)
    (hmoves : ∀ (o : Origins) next o', o.Moves w.registry s wk.pos i next o' →
      next = wk.pos + 1 ∧ o' = o.drop 1 ∨ next = n ∧ o' = o)
    (hreads : ∀ o : Origins, ∀ owner ∈ o.readsAt w.registry s i, w.Registered dep owner) :
    After w (Stepped s dep r outer below H i w wk m) ((do
      let target ← ofExcept (s.targetInPass wk.pos n)
      let wk ← walkBranch r wk target
      let _ ← takeOrNil r.base
      return wk.next : Run Walk) m) := by
  obtain ⟨f, hs, hf⟩ := st.frame
  refine after_target ?_
  refine After.bind_ok (run_walkBranch_forward r wk hn _) ?_
  have waits := suspended_state st hs ((hf hlive).trans htarget.symm)
  refine After.bind_ok (take_eq waits.base hs) ?_
  have st' := popped_state waits hs ((hf hlive).trans hdrop)
  refine after_pure st'.fits ⟨st', fun path hp => List.mem_append_left _ hp,
    fun o ho => ⟨hreads o, fun next o' hm => ?_⟩⟩
  rcases hmoves o next o' hm with ⟨rfl, rfl⟩ | ⟨rfl, rfl⟩
  · exact .inl ⟨hlive, rfl, popped_covers hs ho⟩
  · exact .inr ⟨_, List.mem_append_right _ (List.mem_singleton_self _), rfl,
      suspended_covers st ho _⟩

/-- The end of a path. -/
theorem after_returnTop (st : PassState w r outer below H wk m)
    (hmoves : ∀ (o : Origins) next o', ¬ o.Moves w.registry s wk.pos i next o')
    (hreads : ∀ o : Origins, o.readsAt w.registry s i = []) :
    After w (Stepped s dep r outer below H i w wk m) (returnTop r wk m) := by
  unfold returnTop
  obtain ⟨f, hs, -⟩ := st.frame
  obtain ⟨top, hrun, hP, -⟩ := peekOrNil_eq r.base m
  refine After.bind_ok hrun ?_
  have htop : w.Knows top := hP w.Knows (knows_nil w) st.fits.stack
  refine (after_store st.fits (after_either st.fits.store st.result htop)).bind ?_
  rintro v w₁ m₁ hle h₁ ⟨⟨hv, -⟩, hcontext⟩
  have hstack : m₁.context.stack = f ++ below := (congrArg Context.stack hcontext).trans hs
  have henv : m₁.context.env = m.context.env := congrArg Context.env hcontext
  refine after_pure h₁ ⟨⟨h₁, hle.separates st.separates, st.mark, st.base,
    ⟨f, hstack, fun h => ?_⟩, henv ▸ st.inside, hle.old ▸ st.outside, fun path hp => ?_, hv⟩,
    fun path hp => hp, fun o ho => ⟨fun owner hr => ?_, fun next o' hm => absurd hm (hmoves o _ _)⟩⟩
  · cases h
  · obtain ⟨h1, h2, h3⟩ := st.paths path hp
    exact ⟨hle.knowsPath h1, h2, h3⟩
  · rw [hreads o] at hr
    cases hr

/-- A variable that was not bound outside is bound. -/
theorem after_walkSetVar (st : PassState w r outer below H wk m) (hlive : wk.live = true)
    {var : Variable} (hvar : outer.BoundedAt var) (hlen : H (wk.pos + 1) = H wk.pos)
    (hmoves : ∀ (o : Origins) next o', o.Moves w.registry s wk.pos i next o' →
      next = wk.pos + 1 ∧ o' = o.bind var (o.operand 0))
    (hreads : ∀ o : Origins, ∀ owner ∈ o.readsAt w.registry s i, w.Registered dep owner) :
    After w (Stepped s dep r outer below H i w wk m) ((do
      bindVariable var (← peekOrNil r.base)
      return wk.next : Run Walk) m) := by
  obtain ⟨f, hs, hf⟩ := st.frame
  obtain ⟨top, hrun, hP, htop⟩ := peekOrNil_eq r.base m
  refine After.bind_ok hrun ?_
  refine After.bind_ok (bindVariable_eq var top m) ?_
  have hknown : w.Knows top := hP w.Knows (knows_nil w) st.fits.stack
  have hfit : w.Fits (m.withEnv (m.context.env.set var top)) :=
    st.fits.setEnv (st.fits.env.set var hknown)
  refine after_pure hfit (stepped_next st hlive (.refl w) hfit hs ((hf hlive).trans hlen.symm)
    (st.inside.set hvar top) fun o ho => ⟨hreads o, fun next o' hm => ?_⟩)
  obtain ⟨hnext, rfl⟩ := hmoves o next o' hm
  obtain ⟨f₁, hs₁, hc⟩ := ho.frame
  rw [← List.append_cancel_right (hs.symm.trans hs₁)] at hc
  refine ⟨hnext, ⟨⟨f, hs, hc⟩, fun x g hg => ?_⟩⟩
  show Environment.CoversAt (m.context.env.set var top) w.old x g
  unfold Environment.CoversAt
  rw [Environment.get?_set]
  by_cases hx : x = var
  · subst hx
    refine ⟨top, if_pos rfl, ?_⟩
    rw [htop f below st.base hs]
    refine covers_operand hc 0 g ?_
    simpa only [Origins.bind, if_pos] using hg
  · rw [if_neg fun e => hx e.symm]
    refine ho.vars x g ?_
    simpa only [Origins.bind, if_neg hx] using hg

/-- A variable is read: as what is registered, or else what it is bound to. -/
theorem after_walkGetVar (st : PassState w r outer below H wk m) (hlive : wk.live = true)
    (hdep : dep.isDummy = false) {var : Variable} (hlen : H (wk.pos + 1) = H wk.pos + 1)
    (hmoves : ∀ (o : Origins) next o', o.Moves w.registry s wk.pos i next o' →
      next = wk.pos + 1 ∧ o' = o.push (o.read w.registry var))
    (hreads : ∀ o : Origins, ∀ owner ∈ o.readsAt w.registry s i,
      ∃ g, w.registry.lookup? var = some g ∧ owner ∈ g.asOwner) :
    After w (Stepped s dep r outer below H i w wk m) ((do
      push (← variableInPass var dep)
      return wk.next : Run Walk) m) := by
  obtain ⟨f, hs, hf⟩ := st.frame
  refine (after_variableInPass st.fits var dep).bind ?_
  rintro v w₁ m₁ hle h₁ ⟨hv, hcontext, hnode, hbound⟩
  have hs₁ : m₁.context.stack = f.drop 0 ++ below := (congrArg Context.stack hcontext).trans hs
  have henv : m₁.context.env = m.context.env := congrArg Context.env hcontext
  have hlen' : (f.drop 0).length + 1 = H (wk.pos + 1) := by rw [hlen, List.drop_zero, hf hlive]
  refine stepped_replace st hlive hs 0 hlen' hle h₁ hs₁ henv hv
    (fun o x => x = o.read w.registry var) (fun o next o' hm => ?_) ?_ fun o _ owner hr => ?_
  · exact ⟨(hmoves o next o' hm).1, _, rfl, (hmoves o next o' hm).2⟩
  · rintro o _ rfl - hvars g hg
    unfold Origins.read at hg
    cases hl : w.registry.lookup? var with
    | some n =>
      rw [hl] at hg
      cases hg
      obtain ⟨id, hn, rfl⟩ := (hnode g hl).1 st.separates
      exact .here hn
    | none =>
      rw [hl] at hg
      obtain ⟨x, hx, hc⟩ := hvars var g hg
      rw [(hbound hl).1, hx]
      exact hc
  · obtain ⟨g, hg, ho⟩ := hreads o owner hr
    exact ((hnode g hg).2 hdep).registered hle ho

/-- The member that MEMBER_C finds on a node. -/
theorem memberAt_eq_some {o : Origins} {n : Nat} {node : Node} (h : o.memberAt s n = some node) :
    ∃ key name g, s.constant? n = some key ∧ key.toText = .ok name ∧ o.operand 0 = .node g ∧
      g.get? name = some node := by
  obtain ⟨name, hname, hmember⟩ := Option.bind_eq_some_iff.1 h
  unfold Script.keyAt at hname
  cases hkey : s.constant? n with
  | none => rw [hkey] at hname; cases hname
  | some key =>
    rw [hkey] at hname
    dsimp only at hname
    cases htext : key.toText with
    | error e => rw [htext] at hname; cases hname
    | ok name' =>
      rw [htext] at hname
      cases hname
      cases ho : o.operand 0 with
      | node g =>
        rw [ho] at hmember
        exact ⟨key, name, g, rfl, htext, rfl, hmember⟩
      | other => rw [ho] at hmember; cases hmember
      | items list => rw [ho] at hmember; cases hmember

/-- A member with a constant name is read. -/
theorem after_walkMember (st : PassState w r outer below H wk m) (hlive : wk.live = true)
    (hdep : dep.isDummy = false) {n : Nat} (hpos : 0 < H wk.pos) (hlen : H (wk.pos + 1) = H wk.pos)
    (hmoves : ∀ (o : Origins) next o', o.Moves w.registry s wk.pos i next o' →
      next = wk.pos + 1 ∧ o' = (o.drop 1).push (.ofNode? (o.memberAt s n)))
    (hreads : ∀ o : Origins, ∀ owner ∈ o.readsAt w.registry s i,
      ∃ node, o.memberAt s n = some node ∧ owner ∈ node.asOwner) :
    After w (Stepped s dep r outer below H i w wk m) ((do
      let key ← ofExcept (s.constantAt wk.pos n)
      let object ← takeOrNil r.base
      push (← store (object.memberInPassAt key dep))
      return wk.next : Run Walk) m) := by
  obtain ⟨f, hs, hf⟩ := st.frame
  refine after_except fun key hkey => ?_
  refine After.bind_ok (take_eq st.base hs) ?_
  have hfit := fits_withoutTop st.fits hs fun v hv => List.mem_of_mem_tail hv
  have hobject := knows_headD st.fits hs fun v hv => hv
  refine (after_store hfit (after_memberInPassAt hfit.store hobject dep)).bind ?_
  rintro v w₁ m₁ hle h₁ ⟨⟨hv, hcov⟩, hcontext⟩
  have hs₁ : m₁.context.stack = f.drop 1 ++ below := by
    rw [hcontext, List.drop_one]
    rfl
  have henv : m₁.context.env = _ := congrArg Context.env hcontext
  have hlen' : (f.drop 1).length + 1 = H (wk.pos + 1) := by
    rw [List.length_drop, hf hlive, hlen]
    omega
  -- what the member of a node is, and its owner
  have hmember : ∀ o : Origins, List.Forall₂ (CoversOrigin w.old) o.frame f → ∀ node,
      o.memberAt s n = some node → Covers w.old node v ∧
        (dep.isDummy = false → ∀ owner ∈ node.asOwner, w₁.Registered dep owner) := by
    intro o hc node hnode
    obtain ⟨key', name, g, hkey', hname, ho, hg⟩ := memberAt_eq_some hnode
    rw [constant_of_constantAt hkey] at hkey'
    cases hkey'
    exact hcov name hname st.separates g node (covers_operand hc 0 g ho) hg
  refine stepped_replace st hlive hs 1 hlen' hle h₁ hs₁ henv hv
    (fun o x => x = .ofNode? (o.memberAt s n)) (fun o next o' hm => ?_) ?_ fun o hc owner hr => ?_
  · exact ⟨(hmoves o next o' hm).1, _, rfl, (hmoves o next o' hm).2⟩
  · rintro o _ rfl hc - g hg
    cases hnode : o.memberAt s n with
    | none => rw [hnode] at hg; cases hg
    | some node =>
      rw [hnode] at hg
      cases hg
      exact (hmember o hc g hnode).1
  · obtain ⟨node, hnode, ho⟩ := hreads o owner hr
    exact (hmember o hc node hnode).2 hdep owner ho

/-- An object is made of keys and values. -/
theorem after_walkMakeObject (st : PassState w r outer below H wk m) (hlive : wk.live = true)
    {n : Nat} (hle : 2 * n ≤ H wk.pos) (hlen : H (wk.pos + 1) + 2 * n = H wk.pos + 1)
    (hmoves : ∀ (o : Origins) next o', o.Moves w.registry s wk.pos i next o' →
      next = wk.pos + 1 ∧ ∃ items, o' = (o.drop (2 * n)).push (.items items))
    (hreads : ∀ {w' : World} (o : Origins), ∀ owner ∈ o.readsAt w.registry s i,
      w'.Registered dep owner) :
    After w (Stepped s dep r outer below H i w wk m) ((do
      let values ← takeManyOrNil r.base (2 * n)
      push (← store (makeObject values))
      return wk.next : Run Walk) m) := by
  obtain ⟨f, hs, hf⟩ := st.frame
  refine After.bind_ok (takeMany_eq st.base hs (hf hlive ▸ hle)) ?_
  have hfit : w.Fits (m.withStack (f.drop (2 * n) ++ below)) :=
    fits_withoutTop st.fits hs fun v hv => List.mem_of_mem_drop hv
  have hknown : ∀ v ∈ (f.take (2 * n)).reverse, w.Knows v := fun v hv =>
    st.fits.stack v (hs ▸ List.mem_append_left _ (List.mem_of_mem_take (List.mem_reverse.1 hv)))
  refine (after_store hfit (after_makeObject hfit.store hknown)).bind ?_
  rintro v w₁ m₁ hle₁ h₁ ⟨hv, hcontext⟩
  have henv : m₁.context.env = _ := congrArg Context.env hcontext
  refine stepped_other st hlive hs (2 * n) ?_ hle₁ h₁ (congrArg Context.stack hcontext) henv hv
    (fun o next o' hm => ?_) hreads
  · rw [List.length_drop, hf hlive]
    omega
  · obtain ⟨hnext, items, ho⟩ := hmoves o next o' hm
    exact ⟨hnext, .items items, fun _ e => (by cases e), ho⟩

/-- What a unary operator gives comes from no node. -/
theorem after_walkUnary (st : PassState w r outer below H wk m) (hlive : wk.live = true) {n : Nat}
    (hpos : 0 < H wk.pos) (hlen : H (wk.pos + 1) = H wk.pos)
    (hmoves : ∀ (o : Origins) next o', o.Moves w.registry s wk.pos i next o' → next = wk.pos + 1 ∧
      ∃ op : UnaryOp,
        o' = (o.drop 1).push (if op = .iteratorC then (o.operand 0).iterated else .other))
    (hreads : ∀ {w' : World} (o : Origins), ∀ owner ∈ o.readsAt w.registry s i,
      w'.Registered dep owner) :
    After w (Stepped s dep r outer below H i w wk m) ((do
      let a ← takeOrNil r.base
      let op ← ofExcept (operatorAt UnaryOp wk.pos n)
      push (← store (a.unaryInPass op dep))
      return wk.next : Run Walk) m) := by
  obtain ⟨f, hs, hf⟩ := st.frame
  refine After.bind_ok (take_eq st.base hs) ?_
  refine after_except fun op _ => ?_
  have hfit := fits_withoutTop st.fits hs fun v hv => List.mem_of_mem_tail hv
  have htop := knows_headD st.fits hs fun v hv => hv
  refine (after_store hfit (after_unaryInPass hfit.store op htop dep)).bind ?_
  rintro v w₁ m₁ hle₁ h₁ ⟨hv, hcontext⟩
  have hs₁ : m₁.context.stack = f.drop 1 ++ below := by
    rw [hcontext, List.drop_one]
    rfl
  have henv : m₁.context.env = _ := congrArg Context.env hcontext
  refine stepped_other st hlive hs 1 ?_ hle₁ h₁ hs₁ henv hv (fun o next o' hm => ?_) hreads
  · rw [List.length_drop, hf hlive]
    omega
  · obtain ⟨hnext, op', ho⟩ := hmoves o next o' hm
    refine ⟨hnext, _, fun g => ?_, ho⟩
    by_cases he : op' = .iteratorC
    · rw [if_pos he]
      unfold Origin.iterated
      split <;> exact fun e => (by cases e)
    · rw [if_neg he]
      exact fun e => (by cases e)

/-- Which origins a binary operator can give: OR_ELSE either operand, the others no node. -/
theorem afterBinary_eq (o : Origins) (op : BinaryOp) (fails : Bool) :
    ∃ x, (op = .orElse ∧ (x = o.operand 0 ∨ x = o.operand 1) ∨ ∀ g, x ≠ Origin.node g) ∧
      o.afterBinary op fails = (o.drop 2).push x := by
  cases op with
  | orElse =>
    refine ⟨_, .inl ⟨rfl, ?_⟩, rfl⟩
    cases fails
    · exact .inr rfl
    · exact .inl rfl
  | add =>
    refine ⟨_, .inr fun g => ?_, rfl⟩
    unfold Origin.sum
    split <;> exact fun e => (by cases e)
  | _ => exact ⟨.other, .inr fun _ e => (by cases e), rfl⟩

theorem after_walkBinary (st : PassState w r outer below H wk m) (hlive : wk.live = true) {n : Nat}
    (hdrop : H wk.pos = H (wk.pos + 1) + 1) (hpos : 0 < H (wk.pos + 1))
    (hmoves : ∀ (o : Origins) next o', o.Moves w.registry s wk.pos i next o' → next = wk.pos + 1 ∧
      ∃ op fails, (Family.find? n : Option BinaryOp) = some op ∧ o' = o.afterBinary op fails)
    (hreads : ∀ {w' : World} (o : Origins), ∀ owner ∈ o.readsAt w.registry s i,
      w'.Registered dep owner) :
    After w (Stepped s dep r outer below H i w wk m) ((do
      let op ← ofExcept (operatorAt BinaryOp wk.pos n)
      let b ← takeOrNil r.base
      let a ← takeOrNil r.base
      push (← store (a.binaryInPass op b dep))
      return wk.next : Run Walk) m) := by
  obtain ⟨f, hs, hf⟩ := st.frame
  have hlen : f.length = H (wk.pos + 1) + 1 := (hf hlive).trans hdrop
  refine after_except fun op hop => ?_
  refine After.bind_ok (take_eq st.base hs) ?_
  have popped := popped_state st hs hlen
  refine After.bind_ok (take_eq popped.base rfl) ?_
  have hmem : ∀ v ∈ f.tail, v ∈ f := fun v hv => List.mem_of_mem_tail hv
  have hfit := fits_withoutTop popped.fits rfl fun v hv => List.mem_of_mem_tail hv
  have hb := knows_headD st.fits hs fun v hv => hv
  have ha := knows_headD st.fits hs hmem
  refine (after_store hfit (after_binaryInPass hfit.store op ha hb dep)).bind ?_
  rintro v w₁ m₁ hle h₁ ⟨⟨hv, hcov⟩, hcontext⟩
  have hs₁ : m₁.context.stack = f.drop 2 ++ below := by
    rw [hcontext, ← List.drop_one, ← List.drop_one, List.drop_drop]
    rfl
  have henv : m₁.context.env = _ := congrArg Context.env hcontext
  have hlen' : (f.drop 2).length + 1 = H (wk.pos + 1) := by
    rw [List.length_drop, hlen]
    omega
  refine stepped_replace st hlive hs 2 hlen' hle h₁ hs₁ henv hv
    (fun o x => op = .orElse ∧ (x = o.operand 0 ∨ x = o.operand 1) ∨ ∀ g, x ≠ Origin.node g)
    (fun o next o' hm => ?_) ?_ fun o _ => hreads o
  · obtain ⟨hnext, op', fails, hop', rfl⟩ := hmoves o next o' hm
    rw [find?_of_operatorAt hop] at hop'
    cases hop'
    exact ⟨hnext, afterBinary_eq o op fails⟩
  · rintro o x (⟨horElse, hx⟩ | hx) hc - g hg
    · refine hcov horElse st.separates g ?_
      rcases hx with rfl | rfl
      · exact .inr (covers_operand hc 0 g hg)
      · refine .inl ?_
        rw [← List.drop_one]
        exact covers_operand hc 1 g hg
    · exact absurd hg (hx g)

/-- An operator whose result is not followed. -/
theorem after_walkOperands (st : PassState w r outer below H wk m) (hlive : wk.live = true)
    {f : List Value} (hs : m.context.stack = f ++ below) (k : Nat) (hk : k ≤ f.length)
    (hlen : f.length + 1 = H (wk.pos + 1) + k)
    (hmoves : ∀ (o : Origins) next o', o.Moves w.registry s wk.pos i next o' →
      next = wk.pos + 1 ∧ o' = (o.drop k).push .other)
    (hreads : ∀ o : Origins, ∀ owner ∈ o.readsAt w.registry s i, w.Registered dep owner) :
    After w (Stepped s dep r outer below H i w wk m) ((do
      let _ ← takeManyOrNil r.base k
      push .nil
      return wk.next : Run Walk) m) := by
  refine After.bind_ok (takeMany_eq st.base hs hk) ?_
  have hfit : w.Fits (m.withStack (f.drop k ++ below)) :=
    fits_withoutTop st.fits hs fun v hv => List.mem_of_mem_drop hv
  refine stepped_other st hlive hs k ?_ (.refl w) hfit rfl rfl (knows_nil w)
    (fun o next o' hm => ?_) hreads
  · rw [List.length_drop]
    omega
  · exact ⟨(hmoves o next o' hm).1, .other, fun _ e => (by cases e), (hmoves o next o' hm).2⟩

/-- The pass covers every move over an instruction of branching code. -/
theorem after_walkInstr (st : PassState w r outer below H wk m) (hlive : wk.live = true)
    (hconst : KnowsConstants w s) (hdep : dep.isDummy = false)
    (hat : HeightsAt H wk.pos i.opcode i.operand) (hset : i.opcode = .setVar → outer.BoundedAt ⟨i.operand⟩) :
    After w (Stepped s dep r outer below H i w wk m) (walkInstr analyse dep s r wk i m) := by
  rcases i with ⟨opcode, n, hn⟩
  have hno : ∀ {w' : World}, opcode ≠ .getVar → opcode ≠ .memberC → ∀ o : Origins,
      ∀ owner ∈ o.readsAt w.registry s ⟨opcode, n, hn⟩, w'.Registered dep owner := by
    intro w' h1 h2 o owner ho
    rw [no_reads o w.registry s _ h1 h2] at ho
    cases ho
  obtain ⟨f, hs, hf⟩ := st.frame
  have hlen := hf hlive
  cases opcode with
  | nop =>
    refine after_pure st.fits (stepped_frame st hlive (.refl w) st.fits hs hs
      (hlen.trans hat.symm) rfl (fun o o' => o' = o) (fun o next o' hm => hm) ?_ fun o _ =>
      hno (by decide) (by decide) o)
    rintro o _ rfl hc _
    exact ⟨hc, rfl⟩
  | pushConst =>
    exact after_walkPushConst st hlive hconst hat (fun o next o' hm => hm)
      (hno (by decide) (by decide))
  | pop =>
    exact after_walkPop st hlive hat (fun o next o' hm => hm) (hno (by decide) (by decide))
  | dup =>
    exact after_walkDup st hlive hat.2 (fun o next o' hm => hm) (hno (by decide) (by decide))
  | jump =>
    exact after_walkJump st hat.1 hs (hlen.trans hat.2.symm) (fun o next o' hm => hm)
      (hno (by decide) (by decide))
  | jumpIfNot =>
    exact after_walkJumpIfNot st hlive hat.1 hat.2.1 hat.2.2 (fun o next o' hm => hm)
      (hno (by decide) (by decide))
  | jumpScAnd =>
    exact after_walkShortCircuit st hlive hat.1 hat.2.1 hat.2.2 (fun o next o' hm => hm)
      (hno (by decide) (by decide))
  | jumpScOr =>
    exact after_walkShortCircuit st hlive hat.1 hat.2.1 hat.2.2 (fun o next o' hm => hm)
      (hno (by decide) (by decide))
  | getVar =>
    refine after_walkGetVar st hlive hdep hat (fun o next o' hm => hm) fun o owner ho => ?_
    unfold Origins.readsAt at ho
    dsimp only at ho
    cases hg : w.registry.lookup? ⟨n⟩ with
    | none => rw [hg] at ho; cases ho
    | some g => rw [hg] at ho; exact ⟨g, rfl, ho⟩
  | setVar =>
    exact after_walkSetVar st hlive (hset rfl) hat.2 (fun o next o' hm => hm)
      (hno (by decide) (by decide))
  | memberC =>
    refine after_walkMember st hlive hdep hat.1 hat.2 (fun o next o' hm => hm) fun o owner ho => ?_
    unfold Origins.readsAt at ho
    dsimp only at ho
    cases hg : o.memberAt s n with
    | none => rw [hg] at ho; cases ho
    | some g => rw [hg] at ho; exact ⟨g, rfl, ho⟩
  | makeObject =>
    exact after_walkMakeObject st hlive hat.1 hat.2 (fun o next o' hm => ⟨hm.1, _, hm.2⟩)
      (hno (by decide) (by decide))
  | unary =>
    exact after_walkUnary st hlive hat.1 hat.2
      (fun o next o' hm => ⟨hm.1, hm.2.choose, hm.2.choose_spec.2⟩) (hno (by decide) (by decide))
  | binary =>
    exact after_walkBinary st hlive hat.1 hat.2 (fun o next o' hm => hm)
      (hno (by decide) (by decide))
  | ternary =>
    obtain ⟨hle, hlen'⟩ := hat
    exact after_walkOperands st hlive hs 3 (Nat.le_trans hle (Nat.le_of_eq hlen.symm)) (by rw [hlen]; omega)
      (fun o next o' hm => hm) (hno (by decide) (by decide))
  | quaternary =>
    obtain ⟨hle, hlen'⟩ := hat
    exact after_walkOperands st hlive hs 4 (Nat.le_trans hle (Nat.le_of_eq hlen.symm)) (by rw [hlen]; omega)
      (fun o next o' hm => hm) (hno (by decide) (by decide))
  | ret =>
    exact after_returnTop st (fun o next o' hm => hm) fun o =>
      no_reads o w.registry s _ (fun e => (by cases e)) fun e => (by cases e)
  | loop => exact absurd hat id
  | loopWithKey => exact absurd hat id
  | call => exact absurd hat id
  | closure => exact absurd hat id
  | tailCall => exact absurd hat id

/-! ## Whole passes -/

/-- What the pass has still to follow registers the dependency with every owner that an evaluation
reads from the frontier on. -/
def Settled (dep : Dependency) (s : Script Value) (below : List Value) (w : World) (wk : Walk)
    (m : Machine) (w' : World) : Prop :=
  ∀ pos o, Frontier w.old below wk m pos o →
    ∀ (call : Caller) (base budget : Nat) (m₂ : Machine),
      ∀ owner ∈ readsFrom call w.registry s base budget pos o m₂, w'.Registered dep owner

/-- One instruction of the evaluation, and then the rest from where the pass goes on. -/
theorem reads_of_stepped {w' w'' : World} {wk' : Walk} {m' : Machine} {i : Instruction}
    (hi : s.code[wk.pos]? = some i) (hle : w.Le w') (hle' : w'.Le w'')
    (h : Stepped s dep r outer below H i w wk m wk' w' m')
    (hrest : Settled dep s below w' wk' m' w'') {o : Origins} (ho : CoversLive w.old below o m)
    (call : Caller) (base budget : Nat) (m₂ : Machine) :
    ∀ owner ∈ readsFrom call w.registry s base budget wk.pos o m₂, w''.Registered dep owner := by
  cases budget with
  | zero => exact fun owner howner => by cases howner
  | succ budget =>
    intro owner howner
    unfold readsFrom at howner
    rw [hi] at howner
    obtain ⟨hreads, hmoves⟩ := h.covers o ho
    rcases List.mem_append.1 howner with howner | howner
    · exact hle'.registered (hreads owner howner)
    · rcases hstep : step call s base wk.pos m₂ with ⟨stop | ⟨next | exit⟩, m₃⟩
      · rw [hstep] at howner; cases howner
      · rw [hstep] at howner
        have hfront := hmoves next _ (moves_of_step w.registry hi o hstep)
        rw [← hle.old] at hfront
        rw [← hle.registry] at howner hfront
        exact hrest next _ hfront call base budget m₃ owner howner
      · rw [hstep] at howner; cases howner

/-- A pass over branching code registers the dependency with whatever is read from its frontier. -/
theorem walkFrom_settles {free : Variable → Prop} (hcode : Branching s H free)
    (hfree : ∀ var, free var → outer.BoundedAt var) (hdep : dep.isDummy = false) (budget : Nat)
    {v : Value} {m' : Machine} (st : PassState w r outer below H wk m) (hconst : KnowsConstants w s)
    (hrun : walkFrom analyse dep s r budget wk m = (.ok v, m')) :
    ∃ w', w.Le w' ∧ w'.Fits m' ∧ Settled dep s below w wk m w' := by
  induction budget generalizing w wk m with
  | zero => cases hrun
  | succ budget ih =>
    unfold walkFrom at hrun
    obtain ⟨out, m₃, hstep, hnext⟩ := run_bind_eq_ok hrun
    clear hrun
    rcases walkStep_cases hstep with ⟨rfl, rfl, hl, hp⟩ | ⟨wk₁, m₁, wk₂, m₂, wk₃, h₁, h₂, rfl, h₃⟩
    · -- nothing is left: the frontier is empty
      cases hnext
      refine ⟨w, .refl w, st.fits, fun pos o hfront => ?_⟩
      rcases hfront with ⟨hl', -⟩ | ⟨path, hpath, -⟩
      · rw [hl] at hl'; cases hl'
      · rw [hp] at hpath; cases hpath
    · obtain ⟨w₂, hle₂, st₂, hlive₂, hfront₂⟩ := arrive st h₁ h₂
      have hconst₂ : KnowsConstants w₂ s := fun v hv => hle₂.knows (hconst v hv)
      -- it is enough that the current path was followed over what stands at its position
      suffices hdone : ∃ w₃ i, w₂.Le w₃ ∧ Stepped s dep r outer below H i w₂ wk₂ m₂ wk₃ w₃ m₃ ∧
          (s.code[wk₂.pos]? = some i ∨ s.code[wk₂.pos]? = none) by
        obtain ⟨w₃, i, hle₃, hstepped, hi⟩ := hdone
        obtain ⟨w', hle', hfit, hrest⟩ := ih hstepped.state
          (fun v hv => hle₃.knows (hconst₂ v hv)) hnext
        refine ⟨w', hle₂.trans (hle₃.trans hle'), hfit, fun pos o hfront => ?_⟩
        rcases hfront₂ pos o hfront with ⟨rfl, ho⟩ | ⟨path, hpath, htarget, hc⟩
        · rw [← hle₂.old] at ho
          rw [← hle₂.registry]
          rcases hi with hi | hi
          · exact reads_of_stepped hi hle₃ hle' hstepped hrest ho
          · intro call base b m₄ owner howner
            cases b with
            | zero => cases howner
            | succ b => rw [readsFrom, hi] at howner; cases howner
        · have hle := hle₂.trans hle₃
          rw [← hle.old] at hc
          rw [← hle.registry]
          exact hrest pos o (.inr ⟨path, hstepped.kept path hpath, htarget, hc⟩)
      cases hi : s.code[wk₂.pos]? with
      | some i =>
        rw [hi] at h₃
        have hset : i.opcode = .setVar → outer.BoundedAt ⟨i.operand⟩ := fun hop =>
          hfree _ (hcode.binds _ i hi hop)
        have hafter : After w₂ (Stepped s dep r outer below H i w₂ wk₂ m₂)
            (walkInstr analyse dep s r wk₂ i m₂) :=
          after_walkInstr st₂ hlive₂ hconst₂ hdep (hcode.heights _ i hi) hset
        rw [h₃] at hafter
        obtain ⟨w₃, hle₃, -, hstepped⟩ := hafter wk₃ rfl
        exact ⟨w₃, i, hle₃, hstepped, .inl rfl⟩
      | none =>
        -- the end of the code returns like RET
        rw [hi] at h₃
        let i : Instruction := ⟨.ret, 0, by decide⟩
        have hafter : After w₂ (Stepped s dep r outer below H i w₂ wk₂ m₂) (returnTop r wk₂ m₂) :=
          after_returnTop st₂ (fun _ _ _ h => h) fun _ => rfl
        rw [h₃] at hafter
        obtain ⟨w₃, hle₃, -, hstepped⟩ := hafter wk₃ rfl
        exact ⟨w₃, _, hle₃, hstepped, .inr rfl⟩

/-- What a pass knows when it begins: every identity so far is an old one. -/
def worldOf (m : Machine) : World where
  old id := id < m.store.nextIdent
  body _ := .placeholder (.group "" [])
  allowed _ := True
  allowed_of_made _ _ := trivial
  next := m.store.nextIdent
  dependents := m.store.dependents
  registry := m.context.registry
  settings := m.context.settings
  callDepth := m.context.callDepth

theorem knows_worldOf {m : Machine} {v : Value} (h : v.IssuedBelow m.store.nextIdent) :
    (worldOf m).Knows v :=
  h.mono fun _ h => ⟨trivial, fun id body e => .inl (h id body e)⟩

theorem fits_worldOf {m : Machine} (h : m.Issued) : (worldOf m).Fits m where
  store := ⟨rfl, rfl, fun it hit => all_iteration_mono (fun _ => knows_worldOf) (h.iterations it hit)⟩
  env := h.env.mono fun _ => knows_worldOf
  stack v hv := knows_worldOf (h.stack v hv)
  registry := rfl
  settings := rfl
  callDepth := rfl

/-- The pass starts on the frontier of every evaluation that starts. -/
theorem state_start {m : Machine} (h : m.Issued) (hstart : H 0 = 0) {m₀ : Machine}
    (hfit : (worldOf m).Fits m₀) (hstack : m₀.context.stack = m.context.stack)
    (henv : m₀.context.env = m.context.env.enterScope.2) :
    PassState (worldOf m) ⟨m.context.stack.length, m.context.env.hiddenCount⟩ m.context.env
      m.context.stack H .start m₀ := by
  refine ⟨hfit, fun id hid => hid, rfl, rfl, ⟨[], hstack, fun _ => hstart.symm⟩,
    henv ▸ Environment.inside_enterScope _, fun var v g hv hc => ?_, fun path hp => (by cases hp),
    knows_nil _⟩
  obtain ⟨id, body, rfl, hn⟩ := hc.object
  exact hn ((h.env.get? hv).holds id body rfl)

/-- A successful pass over branching code, which binds only variables that are bound and registered
nowhere, has registered its dependency with every owner that an evaluation of the code reads. -/
theorem registers_of_trackReads {budget : Nat} {m m' : Machine} {v : Value}
    (hcode : Branching s H fun var => m.context.env.get? var = none)
    (hissued : m.Issued) (hconst : ∀ v ∈ s.constants, v.IssuedBelow m.store.nextIdent)
    (hdep : dep.isDummy = false) (hrun : trackReads budget dep s m = (.ok v, m'))
    (call : Caller) (base b : Nat) (m₂ : Machine) :
    ∀ owner ∈ readsFrom call m.context.registry s base b 0 .start m₂,
      owner < m.store.dependents.size → dep ∈ m'.store.dependents[owner]?.getD [] := by
  obtain ⟨m₁, hwalk, hstore⟩ := walkFrom_of_passWith hrun
  have hfit := fits_worldOf hissued
  have hfit₀ : (worldOf m).Fits (passStart s [] m) :=
    ⟨hfit.store, hfit.env.enterScope, hfit.stack, rfl, rfl, rfl⟩
  have st := state_start hissued hcode.start hfit₀ rfl rfl
  have hfree : ∀ var, m.context.env.get? var = none → m.context.env.BoundedAt var := by
    intro var hvar slot hslot
    unfold Environment.get? at hvar
    rw [hslot] at hvar
    cases hvar
  obtain ⟨w', hle, hfit', hsettled⟩ := walkFrom_settles hcode hfree hdep budget st
    (fun c hc => knows_worldOf (hconst c hc)) hwalk
  intro owner howner hlt
  have hlive : CoversLive (worldOf m).old m.context.stack .start (passStart s [] m) :=
    ⟨⟨[], rfl, .nil⟩, fun var g hg => by cases hg⟩
  have hreg := hsettled 0 .start (.inl ⟨rfl, rfl, hlive⟩) call base b m₂ owner howner
  rw [hstore, hfit'.store.dependents]
  exact hreg (hle.dependents.1.symm ▸ hlt)

end ReactiveScript.Run
