import Mathlib.Logic.Hydra
import Mathlib.Tactic.Abel
import ReactiveScript.Proofs.Flow
import ReactiveScript.Proofs.Origin
import ReactiveScript.Proofs.Schedule

/-
  The positions that a pass has still to follow.

  An instruction expands the current path: its position is replaced by those it goes on to
  (`Expands`). If no new mark is set, because it is no first backward jump and no first round of a
  loop, these are positions onward. A pass that ends has followed every position it can get to, and going onward from
  each of them comes to an end, so no exit of a loop leads back (`leavesLoops_of_trackReads`).
-/

namespace ReactiveScript

/-- The positions of the current path and of those that wait. -/
def Walk.positions (wk : Walk) : Multiset Nat :=
  (if wk.live then {wk.pos} else 0) + (wk.pending.map WaitingPath.target : List Nat)

namespace Walk

variable {wk : Walk}

theorem positions_goto (h : wk.live = true) (pos : Nat) :
    (wk.goto pos).positions + {wk.pos} = wk.positions + {pos} := by
  unfold positions goto
  simp only [h, if_true]
  rw [add_right_comm, add_comm ({pos} : Multiset Nat), add_right_comm]

theorem positions_stop (h : wk.live = true) : wk.stop.positions + {wk.pos} = wk.positions := by
  unfold positions stop
  simp only [h, if_true]
  rw [if_neg Bool.false_ne_true, zero_add, add_comm]

theorem positions_wait (wk : Walk) (path : WaitingPath) :
    (wk.wait path).positions = wk.positions + {path.target} := by
  unfold positions wait
  rw [List.map_append, ← Multiset.coe_add, ← add_assoc]
  rfl

end Walk

/-- An instruction replaces the current position by others. -/
structure Expands (i : Instruction) (wk wk' : Walk) (others : Multiset Nat) : Prop where
  moved : wk'.positions + {wk.pos} = wk.positions + others
  flows : ∀ pos ∈ others, i.opcode.FlowsTo i.operand wk.pos pos
  onward : ∀ pos, i.opcode.GoesOnTo i.operand wk.pos pos → pos ∈ others
  all : ∀ pos, i.opcode.FlowsTo i.operand wk.pos pos →
    pos ∈ others ∨ wk.pos ∈ wk.backEdges ∨ wk.pos ∈ wk.enteredLoops
  marks :
    (wk'.backEdges = wk.backEdges ∧ wk'.enteredLoops = wk.enteredLoops ∧
      ∀ pos ∈ others, i.opcode.GoesOnTo i.operand wk.pos pos) ∨
    (wk.pos ∉ wk.backEdges ∧ wk'.backEdges = wk.pos :: wk.backEdges ∧
      wk'.enteredLoops = wk.enteredLoops) ∨
    (wk.pos ∉ wk.enteredLoops ∧ wk'.backEdges = wk.backEdges ∧
      wk'.enteredLoops = wk.pos :: wk.enteredLoops)

/-- The other positions stand in the place of the current one. -/
theorem Expands.replaced {i : Instruction} {wk wk' : Walk} {others : Multiset Nat}
    (h : Expands i wk wk' others) (hlive : wk.live = true) :
    ∃ rest, wk.positions = rest + {wk.pos} ∧ wk'.positions = rest + others := by
  refine ⟨(wk.pending.map WaitingPath.target : List Nat), ?_, ?_⟩
  · unfold Walk.positions
    rw [hlive, if_pos rfl, add_comm]
  · have hmoved := h.moved
    unfold Walk.positions at hmoved ⊢
    rw [hlive, if_pos rfl] at hmoved
    exact add_right_cancel (hmoved.trans (by abel))

namespace Run

variable {i : Instruction} {wk : Walk} {s : Script Value} {r : Region} {α β : Type}

/-- The value of the first part is known to satisfy `Q`. -/
theorem Gives.bind_of {P : β → Prop} {Q : α → Prop} {x : Run α} {f : α → Run β} (hx : Gives Q x)
    (hf : ∀ a, Q a → Gives P (f a)) : Gives P (x >>= f) := by
  intro m b m' h
  obtain ⟨a, m₁, h₁, h₂⟩ := run_bind_eq_ok h
  exact hf a (hx m a m₁ h₁) m₁ b m' h₂

theorem gives_target (pos n : Nat) : Gives (· = n) (ofExcept (s.targetInPass pos n)) := by
  unfold Script.targetInPass
  by_cases h : n > s.length
  · rw [if_pos h]
    exact gives_fail _
  · rw [if_neg h]
    exact gives_pure rfl

theorem gives_suspendPath (target : Nat) :
    Gives (fun path => path.target = target) (suspendPath r target) :=
  Gives.bind _ fun _ => Gives.bind _ fun _ => gives_pure rfl

/-- The only way is to one other position. -/
theorem expands_goto (h : wk.live = true) {pos : Nat}
    (hflow : ∀ q, i.opcode.FlowsTo i.operand wk.pos q ↔ q = pos)
    (honward : ∀ q, i.opcode.GoesOnTo i.operand wk.pos q ↔ q = pos) :
    Expands i wk (wk.goto pos) {pos} where
  moved := Walk.positions_goto h pos
  flows q hq := (hflow q).2 (Multiset.mem_singleton.1 hq)
  onward q hq := Multiset.mem_singleton.2 ((honward q).1 hq)
  all q hq := .inl (Multiset.mem_singleton.2 ((hflow q).1 hq))
  marks := .inl ⟨rfl, rfl, fun q hq => (honward q).2 (Multiset.mem_singleton.1 hq)⟩

/-- The path ends here. -/
theorem expands_stop (h : wk.live = true) (hflow : ∀ q, ¬ i.opcode.FlowsTo i.operand wk.pos q)
    (honward : ∀ q, ¬ i.opcode.GoesOnTo i.operand wk.pos q) {wk' : Walk}
    (hpos : wk'.positions = wk.stop.positions) (hback : wk'.backEdges = wk.backEdges)
    (hloops : wk'.enteredLoops = wk.enteredLoops) : Expands i wk wk' 0 where
  moved := hpos ▸ (Walk.positions_stop h).trans (add_zero _).symm
  flows q hq := absurd hq (Multiset.notMem_zero q)
  onward q hq := absurd hq (honward q)
  all q hq := absurd hq (hflow q)
  marks := .inl ⟨hback, hloops, fun q hq => absurd hq (Multiset.notMem_zero q)⟩

/-- A jump forward waits at its target; a jump backward is taken unless it was taken before. -/
theorem gives_walkJump (h : wk.live = true) {n : Nat}
    (hflow : ∀ q, i.opcode.FlowsTo i.operand wk.pos q ↔ q = n)
    (honward : ∀ q, i.opcode.GoesOnTo i.operand wk.pos q ↔ wk.pos < n ∧ q = n) :
    Gives (fun wk' => ∃ others, Expands i wk wk' others) (walkJump s r wk n) := by
  unfold walkJump
  refine Gives.bind_of (gives_target wk.pos n) fun target htarget => ?_
  subst htarget
  by_cases hlt : target > wk.pos
  · simp only [if_pos hlt]
    refine Gives.bind_of (gives_suspendPath _) fun path hpath => gives_pure ⟨{target}, ?_⟩
    have hlive : (wk.wait path).live = true := h
    have hmoved : (wk.wait path).stop.positions + {wk.pos} = wk.positions + {target} := by
      rw [← hpath, ← Walk.positions_wait]
      exact Walk.positions_stop hlive
    refine ⟨hmoved, fun q hq => ?_, fun q hq => ?_, fun q hq => ?_, .inl ⟨rfl, rfl, fun q hq => ?_⟩⟩
    · exact (hflow q).2 (Multiset.mem_singleton.1 hq)
    · exact Multiset.mem_singleton.2 ((honward q).1 hq).2
    · exact .inl (Multiset.mem_singleton.2 ((hflow q).1 hq))
    · exact (honward q).2 ⟨hlt, Multiset.mem_singleton.1 hq⟩
  · simp only [if_neg hlt]
    by_cases hc : wk.backEdges.contains wk.pos = true
    · simp only [if_pos hc]
      have hmem : wk.pos ∈ wk.backEdges := List.contains_iff_mem.1 hc
      refine gives_pure ⟨0, (Walk.positions_stop h).trans (add_zero _).symm,
        fun q hq => absurd hq (Multiset.notMem_zero q), fun q hq => absurd ((honward q).1 hq).1 hlt,
        fun q _ => .inr (.inl hmem), .inl ⟨rfl, rfl, fun q hq => absurd hq (Multiset.notMem_zero q)⟩⟩
    · simp only [if_neg hc]
      refine Gives.bind _ fun _ => gives_pure ⟨{target}, Walk.positions_goto h target, fun q hq => ?_,
        fun q hq => absurd ((honward q).1 hq).1 hlt, fun q hq => ?_, .inr (.inl ⟨fun hmem => ?_, rfl, rfl⟩)⟩
      · exact (hflow q).2 (Multiset.mem_singleton.1 hq)
      · exact .inl (Multiset.mem_singleton.2 ((hflow q).1 hq))
      · exact hc (List.contains_iff_mem.2 hmem)

/-- The jumping path of a branch waits, unless it goes back once more. -/
theorem gives_walkBranch (r : Region) (wk : Walk) (n : Nat) :
    Gives (fun wk₁ =>
      (∃ path, path.target = n ∧ (wk.pos < n ∧ wk₁ = wk.wait path ∨
        ¬ wk.pos < n ∧ wk.pos ∉ wk.backEdges ∧
          wk₁ = { wk with backEdges := wk.pos :: wk.backEdges }.wait path)) ∨
      ¬ wk.pos < n ∧ wk.pos ∈ wk.backEdges ∧ wk₁ = wk) (walkBranch r wk n) := by
  refine walkBranch_cases (fun hlt => ?_) (fun hlt hmem => gives_pure (.inr ⟨hlt, hmem, rfl⟩))
    fun hlt hmem => ?_
  · refine Gives.bind_of (gives_suspendPath n) fun path hpath => gives_pure (.inl ?_)
    exact ⟨path, hpath, .inl ⟨hlt, rfl⟩⟩
  · refine Gives.bind_of (gives_suspendPath n) fun path hpath => gives_pure (.inl ?_)
    exact ⟨path, hpath, .inr ⟨hlt, hmem, rfl⟩⟩

/-- The current path goes on while another one waits. -/
theorem positions_forked (h : wk.live = true) (path : WaitingPath) {wk₁ : Walk}
    (hwk₁ : wk₁.positions = (wk.wait path).positions) (hpos : wk₁.pos = wk.pos)
    (hlive : wk₁.live = wk.live) :
    wk₁.next.positions + {wk.pos} = wk.positions + ({path.target} + {wk.pos + 1}) := by
  have hgo := Walk.positions_goto (hlive.trans h) (wk.pos + 1)
  rw [hpos, hwk₁, Walk.positions_wait, add_assoc] at hgo
  have hnext : wk₁.next = wk₁.goto (wk.pos + 1) := by
    rw [← hpos]
    rfl
  rw [hnext]
  exact hgo

theorem mem_forked {n p q : Nat} : q ∈ ({n} + {p} : Multiset Nat) ↔ q = p ∨ q = n := by
  rw [Multiset.mem_add, Multiset.mem_singleton, Multiset.mem_singleton, or_comm]

/-- After a branch the current path goes on at the next position. -/
theorem gives_branchNext (h : wk.live = true) {n : Nat}
    (hflow : ∀ q, i.opcode.FlowsTo i.operand wk.pos q ↔ q = wk.pos + 1 ∨ q = n)
    (honward : ∀ q, i.opcode.GoesOnTo i.operand wk.pos q ↔ q = wk.pos + 1 ∨ wk.pos < n ∧ q = n)
    {f : Walk → Run Walk} (hf : ∀ wk₁, Gives (· = wk₁.next) (f wk₁)) :
    Gives (fun wk' => ∃ others, Expands i wk wk' others) (walkBranch r wk n >>= f) := by
  refine Gives.bind_of (gives_walkBranch r wk n) fun wk₁ hwk₁ => ?_
  refine fun m wk' m' hrun => ?_
  have hwk' := hf wk₁ m wk' m' hrun
  subst hwk'
  rcases hwk₁ with ⟨path, rfl, ⟨hlt, rfl⟩ | ⟨hlt, hnew, rfl⟩⟩ | ⟨hlt, hmem, rfl⟩
  · refine ⟨_, positions_forked h path rfl rfl rfl, fun q hq => (hflow q).2 (mem_forked.1 hq),
      fun q hq => ?_, fun q hq => .inl (mem_forked.2 ((hflow q).1 hq)),
      .inl ⟨rfl, rfl, fun q hq => ?_⟩⟩
    · exact mem_forked.2 (((honward q).1 hq).imp_right And.right)
    · exact (honward q).2 ((mem_forked.1 hq).imp_right fun hq => ⟨hlt, hq⟩)
  · refine ⟨_, positions_forked h path rfl rfl rfl, fun q hq => (hflow q).2 (mem_forked.1 hq),
      fun q hq => ?_, fun q hq => .inl (mem_forked.2 ((hflow q).1 hq)), .inr (.inl ⟨hnew, rfl, rfl⟩)⟩
    exact mem_forked.2 (((honward q).1 hq).imp_right And.right)
  · refine ⟨{wk₁.pos + 1}, Walk.positions_goto h _, fun q hq => ?_, fun q hq => ?_,
      fun q _ => .inr (.inl hmem), .inl ⟨rfl, rfl, fun q hq => ?_⟩⟩
    · exact (hflow q).2 (.inl (Multiset.mem_singleton.1 hq))
    · rcases (honward q).1 hq with rfl | ⟨hlt', -⟩
      · exact Multiset.mem_singleton_self _
      · exact absurd hlt' hlt
    · exact (honward q).2 (.inl (Multiset.mem_singleton.1 hq))

/-- The exit of a loop waits. The first time its body follows. -/
theorem gives_walkLoop (h : wk.live = true) {n : Nat} (withKey : Bool)
    (hflow : ∀ q, i.opcode.FlowsTo i.operand wk.pos q ↔ q = wk.pos + 1 ∨ q = n)
    (honward : ∀ q, i.opcode.GoesOnTo i.operand wk.pos q ↔ q = n) :
    Gives (fun wk' => ∃ others, Expands i wk wk' others) (walkLoop s r wk n withKey) := by
  unfold walkLoop
  refine Gives.bind_of (gives_target wk.pos n) fun target htarget => ?_
  subst htarget
  refine Gives.bind_of (gives_suspendPath target) fun path hpath => ?_
  generalize hexit : ({ path with frame := withoutSecond path.frame } : WaitingPath) = exit
  have htarget : exit.target = target := by
    rw [← hexit]
    exact hpath
  by_cases hc : wk.enteredLoops.contains wk.pos = true
  · simp only [if_pos hc]
    have hmem : wk.pos ∈ wk.enteredLoops := List.contains_iff_mem.1 hc
    have hlive : (wk.wait exit).live = true := h
    refine Gives.bind _ fun _ => gives_pure ⟨{target}, ?_, fun q hq => ?_, fun q hq => ?_,
      fun q _ => .inr (.inr hmem), .inl ⟨rfl, rfl, fun q hq => ?_⟩⟩
    · rw [← htarget, ← Walk.positions_wait]
      exact Walk.positions_stop hlive
    · exact (hflow q).2 (.inr (Multiset.mem_singleton.1 hq))
    · exact Multiset.mem_singleton.2 ((honward q).1 hq)
    · exact (honward q).2 (Multiset.mem_singleton.1 hq)
  · simp only [if_neg hc]
    have hexpands : Expands i wk ({ wk with enteredLoops := wk.pos :: wk.enteredLoops }.wait exit).next
        ({exit.target} + {wk.pos + 1}) := by
      rw [← htarget] at hflow honward
      refine ⟨positions_forked h exit rfl rfl rfl, fun q hq => (hflow q).2 (mem_forked.1 hq),
        fun q hq => mem_forked.2 (.inr ((honward q).1 hq)),
        fun q hq => .inl (mem_forked.2 ((hflow q).1 hq)), .inr (.inr ⟨fun hmem => ?_, rfl, rfl⟩)⟩
      exact hc (List.contains_iff_mem.2 hmem)
    refine Gives.bind _ fun entry => ?_
    rcases entry with ⟨key, v⟩
    cases withKey with
    | true => exact Gives.bind _ fun _ => Gives.bind _ fun _ => gives_pure ⟨_, hexpands⟩
    | false => exact Gives.bind _ fun _ => gives_pure ⟨_, hexpands⟩

/-- Whatever is done on the way, the path goes on at the next position. -/
theorem expands_next {op : Opcode} {n : Nat} (hn : n < operandBound) (h : wk.live = true)
    (hflow : ∀ q, op.FlowsTo n wk.pos q ↔ q = wk.pos + 1)
    (honward : ∀ q, op.GoesOnTo n wk.pos q ↔ q = wk.pos + 1) :
    ∃ others, Expands ⟨op, n, hn⟩ wk wk.next others :=
  ⟨_, expands_goto h hflow honward⟩

variable {analyse : Analyser} {dep : Dependency}

/-- Every instruction expands the current position. -/
theorem gives_walkInstr (h : wk.live = true) :
    Gives (fun wk' => ∃ others, Expands i wk wk' others) (walkInstr analyse dep s r wk i) := by
  rcases i with ⟨op, n, hn⟩
  cases op with
  | nop => exact gives_pure (expands_next hn h (fun _ => .rfl) fun _ => .rfl)
  | pushConst | dup | getVar =>
    refine Gives.bind _ fun _ => Gives.bind _ fun _ => gives_pure ?_
    exact expands_next hn h (fun _ => .rfl) fun _ => .rfl
  | pop => exact Gives.bind _ fun _ => gives_pure (expands_next hn h (fun _ => .rfl) fun _ => .rfl)
  | jump => exact gives_walkJump h (fun _ => .rfl) fun _ => .rfl
  | jumpIfNot =>
    refine Gives.bind_of (gives_target wk.pos n) fun target htarget => Gives.bind _ fun _ => ?_
    subst htarget
    exact gives_branchNext h (fun _ => .rfl) (fun _ => .rfl) fun _ => gives_pure rfl
  | jumpScAnd | jumpScOr =>
    refine Gives.bind_of (gives_target wk.pos n) fun target htarget => ?_
    subst htarget
    exact gives_branchNext h (fun _ => .rfl) (fun _ => .rfl) fun _ => Gives.bind _ fun _ =>
      gives_pure rfl
  | loop => exact gives_walkLoop h false (fun _ => .rfl) fun _ => .rfl
  | loopWithKey => exact gives_walkLoop h true (fun _ => .rfl) fun _ => .rfl
  | ret =>
    refine Gives.bind _ fun _ => Gives.bind _ fun _ => gives_pure ⟨0, ?_⟩
    exact expands_stop h (fun _ => id) (fun _ => id) rfl rfl rfl
  | setVar =>
    refine Gives.bind _ fun _ => Gives.bind _ fun _ => gives_pure ?_
    exact expands_next hn h (fun _ => .rfl) fun _ => .rfl
  | memberC =>
    refine Gives.bind _ fun _ => Gives.bind _ fun _ => Gives.bind _ fun _ => Gives.bind _ fun _ =>
      gives_pure ?_
    exact expands_next hn h (fun _ => .rfl) fun _ => .rfl
  | makeObject =>
    refine Gives.bind _ fun _ => Gives.bind _ fun _ => Gives.bind _ fun _ => gives_pure ?_
    exact expands_next hn h (fun _ => .rfl) fun _ => .rfl
  | call =>
    refine Gives.bind _ fun _ => Gives.bind _ fun _ => Gives.bind _ fun _ => Gives.bind _ fun _ =>
      Gives.bind _ fun _ => gives_pure ⟨_, expands_goto h (fun _ => .rfl) fun _ => .rfl⟩
  | closure | tailCall =>
    refine Gives.bind _ fun _ => Gives.bind _ fun _ => Gives.bind _ fun _ => Gives.bind _ fun _ =>
      Gives.bind _ fun _ => gives_pure ⟨_, expands_goto h (fun _ => .rfl) fun _ => .rfl⟩
  | unary =>
    refine Gives.bind _ fun _ => Gives.bind _ fun _ => Gives.bind _ fun _ => Gives.bind _ fun _ =>
      gives_pure ?_
    exact expands_next hn h (fun _ => .rfl) fun _ => .rfl
  | binary =>
    refine Gives.bind _ fun _ => Gives.bind _ fun _ => Gives.bind _ fun _ => Gives.bind _ fun _ =>
      Gives.bind _ fun _ => gives_pure ?_
    exact expands_next hn h (fun _ => .rfl) fun _ => .rfl
  | ternary | quaternary =>
    refine Gives.bind _ fun _ => Gives.bind _ fun _ => gives_pure ?_
    exact expands_next hn h (fun _ => .rfl) fun _ => .rfl

/-- At the end of the code the path ends as well. -/
theorem gives_returnTop (h : wk.live = true) :
    Gives (fun wk' => wk'.positions + {wk.pos} = wk.positions ∧ wk'.backEdges = wk.backEdges ∧
      wk'.enteredLoops = wk.enteredLoops) (returnTop r wk) :=
  Gives.bind _ fun _ => Gives.bind _ fun _ => gives_pure ⟨Walk.positions_stop h, rfl, rfl⟩

/-! ## Steps -/

/-- What a step does to the positions: a current one is chosen, what waits there is joined with it,
and it is replaced by others. -/
structure Stride (s : Script Value) (wk wk₂ wk' : Walk) : Prop where
  live : wk₂.live = true
  positions : ∃ k, wk₂.positions + Multiset.replicate k wk₂.pos = wk.positions
  backEdges : wk₂.backEdges = wk.backEdges
  enteredLoops : wk₂.enteredLoops = wk.enteredLoops
  expands : (∃ i others, s.code[wk₂.pos]? = some i ∧ Expands i wk₂ wk' others) ∨
    s.code[wk₂.pos]? = none ∧ wk'.positions + {wk₂.pos} = wk₂.positions ∧
      wk'.backEdges = wk₂.backEdges ∧ wk'.enteredLoops = wk₂.enteredLoops

theorem stride_of_walkStep {m m' : Machine} {out : Option Walk}
    (h : walkStep analyse dep s r wk m = (.ok out, m')) :
    out = none ∧ m' = m ∧ wk.positions = 0 ∨ ∃ wk₂ wk', out = some wk' ∧ Stride s wk wk₂ wk' := by
  rcases walkStep_cases h with ⟨rfl, rfl, hl, hp⟩ | ⟨wk₁, m₁, wk₂, m₂, wk', h₁, h₂, rfl, h₃⟩
  · refine .inl ⟨rfl, rfl, ?_⟩
    unfold Walk.positions
    rw [hl, hp]
    rfl
  · refine .inr ⟨wk₂, wk', rfl, ?_⟩
    -- resuming keeps the positions
    have hres : wk₁.live = true ∧ wk₁.positions = wk.positions ∧ wk₁.backEdges = wk.backEdges ∧
        wk₁.enteredLoops = wk.enteredLoops := by
      rcases resume_cases r wk m with ⟨hl, hr⟩ | ⟨-, -, hr⟩ | ⟨hl, path, rest, hperm, -, hr⟩
      · rw [h₁] at hr
        cases hr
        exact ⟨hl, rfl, rfl, rfl⟩
      · rw [h₁] at hr
        cases hr
      · rw [h₁] at hr
        cases hr
        refine ⟨rfl, ?_, rfl, rfl⟩
        unfold Walk.positions
        rw [hl, Multiset.coe_eq_coe.2 (hperm.map WaitingPath.target)]
        exact (zero_add _).symm
    -- joining takes out positions equal to the current one
    have hmerge := mergeWaiting_keeps (r := r) (Q := fun w _ => w.live = true ∧
      (∃ k, w.positions + Multiset.replicate k w.pos = wk.positions) ∧
      w.backEdges = wk.backEdges ∧ w.enteredLoops = wk.enteredLoops) ?_ wk₁.pending.length
      ⟨hres.1, ⟨0, (add_zero _).trans hres.2.1⟩, hres.2.2⟩ h₂
    · obtain ⟨⟨hlive, hpos, hback, hloops⟩, -⟩ := hmerge
      refine ⟨hlive, hpos, hback, hloops, ?_⟩
      cases hi : s.code[wk₂.pos]? with
      | some i =>
        rw [hi] at h₃
        obtain ⟨others, hexpands⟩ := gives_walkInstr hlive m₂ wk' m' h₃
        exact .inl ⟨i, others, rfl, hexpands⟩
      | none =>
        rw [hi] at h₃
        exact .inr ⟨rfl, gives_returnTop hlive m₂ wk' m' h₃⟩
    · rintro w m path rest m₁ hperm htarget - ⟨hlive, ⟨k, hk⟩, hback, hloops⟩
      refine ⟨hlive, ⟨k + 1, ?_⟩, hback, hloops⟩
      rw [← hk]
      unfold Walk.positions
      rw [Multiset.coe_eq_coe.2 (hperm.map WaitingPath.target), Multiset.replicate_succ,
        List.map_cons, htarget, ← Multiset.cons_coe]
      simp only [← Multiset.singleton_add]
      abel

/-! ## Passes that end -/

/-- What a pass has followed when it is over: going onward from there comes to an end, and it is
closed under the flow, except where a mark was set before. -/
structure Followed (s : Script Value) (wk : Walk) (V : Nat → Prop) : Prop where
  positions : ∀ pos ∈ wk.positions, V pos
  acc : ∀ pos, V pos → Acc (Function.swap s.Onward) pos
  flow : ∀ pos next, V pos → s.Flow pos next → V next ∨ pos ∈ wk.backEdges ∨ pos ∈ wk.enteredLoops

/-- One more position has been followed. -/
theorem Stride.followed {wk₂ wk' : Walk} {V : Nat → Prop} (h : Stride s wk wk₂ wk')
    (hV : Followed s wk' V) : Followed s wk fun pos => pos = wk₂.pos ∨ V pos := by
  obtain ⟨hlive, ⟨k, hk⟩, hback, hloops, hexpands⟩ := h
  -- the positions that were left waiting
  have hkept : ∀ others, wk'.positions + {wk₂.pos} = wk₂.positions + others →
      ∀ pos ∈ wk.positions, pos = wk₂.pos ∨ V pos := by
    intro others hmoved pos hpos
    rw [← hk] at hpos
    rcases Multiset.mem_add.1 hpos with hpos | hpos
    · have hmem : pos ∈ wk'.positions + {wk₂.pos} := hmoved ▸ Multiset.mem_add.2 (.inl hpos)
      rcases Multiset.mem_add.1 hmem with hmem | hmem
      · exact .inr (hV.positions pos hmem)
      · exact .inl (Multiset.mem_singleton.1 hmem)
    · exact .inl (Multiset.eq_of_mem_replicate hpos)
  rcases hexpands with ⟨i, others, hi, hexpands⟩ | ⟨hi, hmoved, hback', hloops'⟩
  · -- the positions it goes on to are followed
    have hothers : ∀ pos ∈ others, V pos := by
      obtain ⟨rest, -, hreplaced⟩ := hexpands.replaced hlive
      exact fun pos hpos => hV.positions pos (hreplaced ▸ Multiset.mem_add.2 (.inr hpos))
    have hcurrent : ∀ {next} {P : Opcode → Nat → Nat → Nat → Prop},
        (∃ j, s.code[wk₂.pos]? = some j ∧ P j.opcode j.operand wk₂.pos next) →
        P i.opcode i.operand wk₂.pos next := by
      rintro next P ⟨j, hj, hnext⟩
      rw [hi] at hj
      cases hj
      exact hnext
    refine ⟨hkept others hexpands.moved, fun pos hpos => ?_, fun pos next hpos hflow => ?_⟩
    · rcases hpos with rfl | hpos
      · exact Acc.intro _ fun next hnext =>
          hV.acc next (hothers next (hexpands.onward next (hcurrent hnext)))
      · exact hV.acc pos hpos
    · rw [← hback, ← hloops]
      by_cases hp : pos = wk₂.pos
      · subst hp
        exact (hexpands.all next (hcurrent hflow)).imp_left fun hnext => .inr (hothers next hnext)
      · -- a mark that was set is none at this position
        have hmarks : pos ∈ wk'.backEdges ∨ pos ∈ wk'.enteredLoops →
            pos ∈ wk₂.backEdges ∨ pos ∈ wk₂.enteredLoops := by
          rcases hexpands.marks with ⟨h1, h2, -⟩ | ⟨-, h1, h2⟩ | ⟨-, h1, h2⟩
          · rw [h1, h2]
            exact id
          · rw [h1, h2]
            exact Or.imp_left fun hmem => (List.mem_cons.1 hmem).resolve_left hp
          · rw [h1, h2]
            exact Or.imp_right fun hmem => (List.mem_cons.1 hmem).resolve_left hp
        exact (hV.flow pos next (hpos.resolve_left hp) hflow).imp .inr hmarks
  · refine ⟨hkept 0 (hmoved.trans (add_zero _).symm), fun pos hpos => ?_, fun pos next hpos hflow => ?_⟩
    · rcases hpos with rfl | hpos
      · refine Acc.intro _ fun next ⟨i, hi', _⟩ => ?_
        rw [hi] at hi'
        cases hi'
      · exact hV.acc pos hpos
    · rcases hpos with rfl | hpos
      · obtain ⟨i, hi', -⟩ := hflow
        rw [hi] at hi'
        cases hi'
      · rw [← hback, ← hloops, ← hback', ← hloops']
        exact (hV.flow pos next hpos hflow).imp_left .inr

theorem followed_of_walkFrom (budget : Nat) {v : Value} {m m' : Machine}
    (hrun : walkFrom analyse dep s r budget wk m = (.ok v, m')) : ∃ V, Followed s wk V := by
  induction budget generalizing wk m with
  | zero => cases hrun
  | succ budget ih =>
    unfold walkFrom at hrun
    obtain ⟨out, m₁, hstep, hnext⟩ := run_bind_eq_ok hrun
    rcases stride_of_walkStep hstep with ⟨rfl, -, hempty⟩ | ⟨wk₂, wk', rfl, hstride⟩
    · refine ⟨fun _ => False, fun pos hpos => ?_, fun _ h => h.elim, fun _ _ h => h.elim⟩
      rw [hempty] at hpos
      exact absurd hpos (Multiset.notMem_zero pos)
    · obtain ⟨V, hV⟩ := ih hnext
      exact ⟨_, hstride.followed hV⟩

/-- A pass that succeeds is over a script whose loops have exits that do not lead back. -/
theorem leavesLoops_of_trackReads {budget : Nat} {v : Value} {m m' : Machine}
    (hrun : trackReads budget dep s m = (.ok v, m')) : s.LeavesLoops := by
  obtain ⟨m₁, hwalk, -⟩ := walkFrom_of_passWith hrun
  obtain ⟨V, hV⟩ := followed_of_walkFrom budget hwalk
  have hreach : ∀ pos, s.Reaches pos → V pos := by
    intro pos hpos
    induction hpos with
    | refl => exact hV.positions 0 (Multiset.mem_singleton_self 0)
    | @tail a b _ hflow ih =>
      rcases hV.flow a b ih hflow with hb | hmem | hmem
      · exact hb
      · exact absurd hmem (List.not_mem_nil)
      · exact absurd hmem (List.not_mem_nil)
  exact fun pos hpos => Script.not_leadsBack_of_acc (hV.acc pos (hreach pos hpos))

end Run

end ReactiveScript
