import ReactiveScript.Proofs.Mirror
import ReactiveScript.Proofs.Run
import ReactiveScript.Proofs.Scope
import ReactiveScript.Tracking.Walk

/-
  Paths on machines that mirror one another.

  `Machine.Mirrors` says that two machines hold like variables, hidden ones included, and like
  operands over stores that mirror one another, and agree on everything else that a pass looks at.
  The registries need only have the same nodes. `Run.Paired` is the judgement on two evaluations
  with respect to any relation of machines. The lemmas are on the part of a pass that signals
  nobody: operands, paths that wait and are joined, jumps and loops.
-/

namespace ReactiveScript

open Value (Like like_nil)

variable {r : Renaming} {k l : Marks}

/-! ## Lists -/

section

variable {α β : Type} {R : α → β → Prop} {xs : List α} {ys : List β}

theorem forall₂_set (h : List.Forall₂ R xs ys) {a : α} {b : β} (hab : R a b) (n : Nat) :
    List.Forall₂ R (xs.set n a) (ys.set n b) := by
  induction h generalizing n with
  | nil => exact .nil
  | cons hentry hrest ih =>
    cases n with
    | zero => exact .cons hab hrest
    | succ n => exact .cons hentry (ih n)

theorem forall₂_swapRemove (h : List.Forall₂ R xs ys) (n : Nat) :
    List.Forall₂ R (swapRemove xs n) (swapRemove ys n) := by
  have hlength : xs.length = ys.length := h.length_eq
  have hlast := forall₂_getElem? h (xs.length - 1)
  have hinit : List.Forall₂ R xs.dropLast ys.dropLast := by
    rw [List.dropLast_eq_take, List.dropLast_eq_take, ← hlength]
    exact List.forall₂_take _ h
  unfold swapRemove
  rw [List.getLast?_eq_getElem?, List.getLast?_eq_getElem?, ← hlength]
  generalize xs[xs.length - 1]? = x, ys[xs.length - 1]? = y at hlast
  cases hlast with
  | none => exact .nil
  | some hlast =>
    dsimp only
    split
    · exact forall₂_set hinit hlast n
    · exact hinit

end

/-! ## Variables -/

/-- Slots of the same level with like values. -/
def LikeSlot (r : Renaming) : Option Slot → Option Slot → Prop :=
  Option.Rel fun a b => a.level = b.level ∧ Like r a.value b.value

/-- The same variables are bound at the same levels, and hidden, to like values. -/
structure Environment.Mirrors (r : Renaming) (env other : Environment) : Prop where
  slots : ∀ var, LikeSlot r (env.slot? var) (other.slot? var)
  shadowed : List.Forall₂ (fun b c => b.1 = c.1 ∧ LikeSlot r b.2 c.2) env.shadowed other.shadowed
  level : env.level = other.level

/-- Variables with their values, where they have one, are like. -/
abbrev LikeBindings (r : Renaming) : List (Variable × Option Value) →
    List (Variable × Option Value) → Prop :=
  List.Forall₂ fun b c => b.1 = c.1 ∧ Option.Rel (Like r) b.2 c.2

namespace Environment.Mirrors

variable {env other : Environment}

theorem get? (h : env.Mirrors r other) (var : Variable) :
    Option.Rel (Like r) (env.get? var) (other.get? var) := by
  have hslot := h.slots var
  unfold Environment.get?
  generalize env.slot? var = x, other.slot? var = y at hslot
  cases hslot with
  | none => exact .none
  | some hslot => exact .some hslot.2

theorem hiddenCount (h : env.Mirrors r other) : env.hiddenCount = other.hiddenCount :=
  h.shadowed.length_eq

theorem hides (h : env.Mirrors r other) (var : Variable) : env.hides var = other.hides var := by
  have hslot := h.slots var
  unfold Environment.hides
  rw [h.level]
  generalize env.slot? var = x, other.slot? var = y at hslot
  cases hslot with
  | none => rfl
  | some hslot =>
    dsimp only
    rw [hslot.1]

theorem set (h : env.Mirrors r other) (var : Variable) {v w : Value} (hv : Like r v w) :
    (env.set var v).Mirrors r (other.set var w) := by
  refine ⟨fun x => ?_, ?_, h.level⟩
  · rw [slot?_set, slot?_set]
    by_cases hx : var = x
    · rw [if_pos hx, if_pos hx]
      exact .some ⟨h.level, hv⟩
    · rw [if_neg hx, if_neg hx]
      exact h.slots x
  · unfold Environment.set
    dsimp only
    rw [← h.hides var]
    by_cases hh : env.hides var = true
    · rw [if_pos hh, if_pos hh]
      exact .cons ⟨rfl, h.slots var⟩ h.shadowed
    · rw [if_neg hh, if_neg hh]
      exact h.shadowed

theorem setAll (h : env.Mirrors r other) {bs cs : Bindings} (hb : LikeEach r bs cs) :
    (env.setAll bs).Mirrors r (other.setAll cs) := by
  refine List.rel_foldl (fun e f hef b c hbc => ?_) h hb
  rw [← hbc.1]
  exact hef.set b.1 hbc.2

theorem enterScope (h : env.Mirrors r other) : env.enterScope.2.Mirrors r other.enterScope.2 :=
  ⟨h.slots, h.shadowed, congrArg (· + 1) h.level⟩

theorem unwind {shadowed shadowed' : List (Variable × Option Slot)}
    {slots slots' : List (Variable × Slot)}
    (hs : List.Forall₂ (fun b c => b.1 = c.1 ∧ LikeSlot r b.2 c.2) shadowed shadowed')
    (h : ∀ x, LikeSlot r (Assoc.find? x slots) (Assoc.find? x slots')) (mark : Nat) :
    (∀ x, LikeSlot r (Assoc.find? x (Environment.unwind mark shadowed slots).2)
      (Assoc.find? x (Environment.unwind mark shadowed' slots').2)) ∧
    List.Forall₂ (fun b c => b.1 = c.1 ∧ LikeSlot r b.2 c.2)
      (Environment.unwind mark shadowed slots).1 (Environment.unwind mark shadowed' slots').1 := by
  induction hs generalizing slots slots' with
  | nil => exact ⟨h, .nil⟩
  | @cons b c rest rest' hbc hrest ih =>
    unfold Environment.unwind
    rw [← hrest.length_eq]
    by_cases hm : mark < rest.length + 1
    · simp only [if_pos hm]
      refine ih fun x => ?_
      rw [Environment.find?_restoreSlot, Environment.find?_restoreSlot, ← hbc.1]
      by_cases hx : b.1 = x
      · rw [if_pos hx, if_pos hx]
        exact hbc.2
      · rw [if_neg hx, if_neg hx]
        exact h x
    · simp only [if_neg hm]
      exact ⟨h, .cons hbc hrest⟩

theorem unwindTo (h : env.Mirrors r other) (mark : Nat) :
    (env.unwindTo mark).Mirrors r (other.unwindTo mark) := by
  obtain ⟨hslots, hshadowed⟩ := unwind h.shadowed h.slots mark
  exact ⟨hslots, hshadowed, h.level⟩

theorem leaveScope (h : env.Mirrors r other) (mark : Nat) :
    (env.leaveScope mark).Mirrors r (other.leaveScope mark) := by
  have hlower : ({ env with level := env.level - 1 } : Environment).Mirrors r
      { other with level := other.level - 1 } :=
    ⟨h.slots, h.shadowed, congrArg (· - 1) h.level⟩
  exact hlower.unwindTo mark

theorem reboundSince (h : env.Mirrors r other) (mark : Nat) :
    LikeBindings r (env.reboundSince mark) (other.reboundSince mark) := by
  unfold Environment.reboundSince
  rw [← h.hiddenCount]
  refine List.rel_map (fun b c hbc => ?_) (List.rel_reverse (List.forall₂_take _ h.shadowed))
  exact ⟨hbc.1, hbc.1 ▸ h.get? b.1⟩

end Environment.Mirrors

/-! ## Walks -/

/-- Paths that wait at the same position with like frames and variables. -/
structure WaitingPath.Mirrors (r : Renaming) (p q : WaitingPath) : Prop where
  target : p.target = q.target
  frame : List.Forall₂ (Like r) p.frame q.frame
  bindings : LikeBindings r p.bindings q.bindings

/-- Passes that stand at the same position, with the same paths waiting. -/
structure Walk.Mirrors (r : Renaming) (w w' : Walk) : Prop where
  pos : w.pos = w'.pos
  live : w.live = w'.live
  pending : List.Forall₂ (WaitingPath.Mirrors r) w.pending w'.pending
  backEdges : w.backEdges = w'.backEdges
  enteredLoops : w.enteredLoops = w'.enteredLoops
  result : Like r w.result w'.result

/-- The passes differ at most in the values that they hold. -/
theorem Walk.Mirrors.exists_eq {w w' : Walk} (h : w.Mirrors r w') :
    ∃ pending result, w' = { w with pending, result } := by
  obtain ⟨pos, live, pending, backEdges, enteredLoops, result⟩ := w'
  obtain ⟨rfl, rfl, -, rfl, rfl, -⟩ := h
  exact ⟨pending, result, rfl⟩

namespace Walk.Mirrors

variable {w w' : Walk} {p q : WaitingPath}

theorem goto (h : w.Mirrors r w') (pos : Nat) : (w.goto pos).Mirrors r (w'.goto pos) :=
  { h with pos := rfl }

theorem next (h : w.Mirrors r w') : w.next.Mirrors r w'.next :=
  { h with pos := congrArg (· + 1) h.pos }

theorem stop (h : w.Mirrors r w') : w.stop.Mirrors r w'.stop := { h with live := rfl }

theorem wait (h : w.Mirrors r w') (hp : p.Mirrors r q) :
    (w.wait p).Mirrors r (w'.wait q) :=
  { h with pending := List.rel_append h.pending (.cons hp .nil) }

end Walk.Mirrors

/-! ## Machines -/

/-- The machines are the same for a pass, up to a renaming. -/
structure Machine.Mirrors (r : Renaming) (k l : Marks) (m n : Machine) : Prop where
  store : m.store.Mirrors r k l n.store
  env : m.context.env.Mirrors r n.context.env
  stack : List.Forall₂ (Like r) m.context.stack n.context.stack
  settings : m.context.settings = n.context.settings
  callDepth : m.context.callDepth = n.context.callDepth
  registry : ∀ var, m.context.registry.lookup? var = n.context.registry.lookup? var
  analyzing : m.context.analyzing = n.context.analyzing

/-- Results of two evaluations: values that are related, or the same reason to stop. -/
def Related {α β : Type} (R : α → β → Prop) : Except Stop α → Except Stop β → Prop
  | .ok a, .ok b => R a b
  | .error stop, .error stop' => stop = stop'
  | _, _ => False

namespace Run

variable {α β α' β' : Type} {S : Machine → Machine → Prop} {R : α → β → Prop}
variable {R' : α' → β' → Prop}

/-- Evaluations that on related machines have related results and leave related machines. -/
def Paired (S : Machine → Machine → Prop) (R : α → β → Prop) (x : Run α) (y : Run β) : Prop :=
  ∀ m n, S m n → Related R (x m).1 (y n).1 ∧ S (x m).2 (y n).2

theorem paired_pure {a : α} {b : β} (h : R a b) : Paired S R (pure a) (pure b) :=
  fun _ _ hmn => ⟨h, hmn⟩

theorem paired_throw (stop : Stop) : Paired S R (throw stop) (throw stop) :=
  fun _ _ hmn => ⟨rfl, hmn⟩

theorem Paired.bind {x : Run α} {y : Run β} {f : α → Run α'} {g : β → Run β'}
    (hx : Paired S R x y) (hf : ∀ a b, R a b → Paired S R' (f a) (g b)) :
    Paired S R' (x >>= f) (y >>= g) := by
  intro m n hmn
  obtain ⟨hR, hS⟩ := hx m n hmn
  rw [run_bind, run_bind]
  generalize x m = out, y n = out' at hR hS
  rcases out with ⟨stop | a, m₁⟩ <;> rcases out' with ⟨stop' | b, n₁⟩
  · exact ⟨hR, hS⟩
  · cases hR
  · cases hR
  · exact hf a b hR m₁ n₁ hS

theorem attempt_machine (x : Run α) (m : Machine) : (attempt x m).2 = (x m).2 := by
  unfold Run.attempt
  rcases x m with ⟨(e | p | g | _) | a, m₁⟩ <;> rfl

theorem related_attempt {x : Run α} {y : Run β} {m n : Machine}
    (h : Related R (x m).1 (y n).1) :
    Related (fun a b => Related R (a.mapError .error) (b.mapError .error)) (attempt x m).1
      (attempt y n).1 := by
  unfold Run.attempt
  generalize x m = out, y n = out' at h
  rcases out with ⟨stop | a, m₁⟩ <;> rcases out' with ⟨stop' | b, n₁⟩
  · obtain rfl : stop = stop' := h
    cases stop <;> rfl
  · cases h
  · cases h
  · exact h

theorem Paired.attempt {x : Run α} {y : Run β} (hx : Paired S R x y) :
    Paired S (fun a b => Related R (a.mapError .error) (b.mapError .error)) (attempt x)
      (attempt y) := by
  intro m n hmn
  obtain ⟨hR, hS⟩ := hx m n hmn
  rw [attempt_machine, attempt_machine]
  exact ⟨related_attempt hR, hS⟩

theorem paired_ofExcept {a : Except EvalError α} {b : Except EvalError β}
    (h : Related R (a.mapError .error) (b.mapError .error)) :
    Paired S R (ofExcept a) (ofExcept b) := by
  intro m n hmn
  cases a <;> cases b <;> exact ⟨h, hmn⟩

/-- A result that was computed without the machine is the same for both. -/
theorem paired_sameExcept (a : Except EvalError α) :
    Paired S (fun a b => a = b) (ofExcept a) (ofExcept a) := by
  cases a <;> exact fun _ _ hmn => ⟨rfl, hmn⟩

/-! ## Operations on machines that mirror one another -/

/-- Evaluations that do the same on machines that mirror one another, and note nothing. -/
abbrev Mirrored (r : Renaming) (k l : Marks) (R : α → β → Prop) (x : Run α) (y : Run β) : Prop :=
  Paired (Machine.Mirrors r k l) R x y

theorem mirrored_store {x : StateM Store α} {y : StateM Store β} (h : Store.Paired r R x y) :
    Mirrored r k l R (store x) (store y) := by
  intro m n hmn
  obtain ⟨hR, hS⟩ := h k l m.store n.store hmn.store
  exact ⟨hR, { hmn with store := hS }⟩

theorem mirrored_context : Mirrored r k l (fun c d => c.env.Mirrors r d.env ∧
    List.Forall₂ (Like r) c.stack d.stack ∧ c.settings = d.settings ∧ c.callDepth = d.callDepth ∧
    (∀ var, c.registry.lookup? var = d.registry.lookup? var) ∧ c.analyzing = d.analyzing)
    context context :=
  fun _ _ h => ⟨⟨h.env, h.stack, h.settings, h.callDepth, h.registry, h.analyzing⟩, h⟩

theorem mirrored_operands : Mirrored r k l (List.Forall₂ (Like r)) operands operands :=
  fun _ _ h => ⟨h.stack, h⟩

theorem mirrored_height : Mirrored r k l (fun a b => a = b) height height :=
  fun _ _ h => ⟨h.stack.length_eq, h⟩

theorem mirrored_setOperands {vs ws : List Value} (h : List.Forall₂ (Like r) vs ws) :
    Mirrored r k l (fun _ _ => True) (setOperands vs) (setOperands ws) :=
  fun _ _ hmn => ⟨trivial, { hmn with stack := h }⟩

theorem mirrored_push {v w : Value} (h : Like r v w) :
    Mirrored r k l (fun _ _ => True) (push v) (push w) :=
  fun _ _ hmn => ⟨trivial, { hmn with stack := .cons h hmn.stack }⟩

theorem mirrored_truncate (base : Nat) :
    Mirrored r k l (fun _ _ => True) (truncate base) (truncate base) := by
  intro m n hmn
  refine ⟨trivial, { hmn with stack := ?_ }⟩
  have hlength := hmn.stack.length_eq
  simp only [truncate, change, ← hlength]
  exact List.forall₂_drop _ hmn.stack

theorem mirrored_bindVariable (var : Variable) {v w : Value} (h : Like r v w) :
    Mirrored r k l (fun _ _ => True) (bindVariable var v) (bindVariable var w) :=
  fun _ _ hmn => ⟨trivial, { hmn with env := hmn.env.set var h }⟩

theorem mirrored_bindAll {bs cs : Bindings} (h : LikeEach r bs cs) :
    Mirrored r k l (fun _ _ => True) (bindAll bs) (bindAll cs) :=
  fun _ _ hmn => ⟨trivial, { hmn with env := hmn.env.setAll h }⟩

theorem mirrored_enterScope : Mirrored r k l (fun a b => a = b) enterScope enterScope :=
  fun _ _ hmn => ⟨hmn.env.hiddenCount, { hmn with env := hmn.env.enterScope }⟩

theorem mirrored_leaveScope (mark : Nat) :
    Mirrored r k l (fun _ _ => True) (leaveScope mark) (leaveScope mark) :=
  fun _ _ hmn => ⟨trivial, { hmn with env := hmn.env.leaveScope mark }⟩

theorem mirrored_changeAnalyzing (f : List Ident → List Ident) :
    Mirrored r k l (fun _ _ => True) (change fun c => { c with analyzing := f c.analyzing })
      (change fun c => { c with analyzing := f c.analyzing }) :=
  fun _ _ hmn => ⟨trivial, { hmn with analyzing := congrArg f hmn.analyzing }⟩

theorem mirrored_beginCall : Mirrored r k l (fun _ _ => True) beginCall beginCall := by
  refine mirrored_context.bind fun c d hcd => ?_
  obtain ⟨-, -, hsettings, hdepth, -, -⟩ := hcd
  rw [← hsettings, ← hdepth]
  split
  · exact paired_throw _
  · exact fun _ _ hmn => ⟨trivial, { hmn with callDepth := congrArg (· + 1) hmn.callDepth }⟩

theorem mirrored_endCall : Mirrored r k l (fun _ _ => True) endCall endCall :=
  fun _ _ hmn => ⟨trivial, { hmn with callDepth := congrArg (· - 1) hmn.callDepth }⟩

theorem mirrored_heedInterrupt : Mirrored r k l (fun _ _ => True) heedInterrupt heedInterrupt := by
  refine mirrored_context.bind fun c d hcd => ?_
  obtain ⟨-, -, hsettings, -, -, -⟩ := hcd
  rw [← hsettings]
  refine (mirrored_store (Store.paired_isInterrupted _)).bind fun on on' hon => ?_
  obtain rfl : on = on' := hon
  cases on
  · exact paired_pure trivial
  · exact paired_throw _

/-! ## Frames -/

variable {base : Nat}

theorem mirrored_frame : Mirrored r k l (List.Forall₂ (Like r)) (frame base) (frame base) := by
  refine mirrored_operands.bind fun vs ws hvs => paired_pure ?_
  rw [← hvs.length_eq]
  exact List.forall₂_take _ hvs

theorem mirrored_setFrame {f g : List Value} (h : List.Forall₂ (Like r) f g) :
    Mirrored r k l (fun _ _ => True) (setFrame base f) (setFrame base g) := by
  intro m n hmn
  refine ⟨trivial, { hmn with stack := ?_ }⟩
  have hlength := hmn.stack.length_eq
  simp only [setFrame, change, ← hlength]
  exact List.rel_append h (List.forall₂_drop _ hmn.stack)

theorem mirrored_takeOrNil : Mirrored r k l (Like r) (takeOrNil base) (takeOrNil base) := by
  refine mirrored_operands.bind fun vs ws hvs => ?_
  cases hvs with
  | nil => exact paired_pure like_nil
  | @cons v w rest rest' hv hrest =>
    dsimp only
    rw [← hrest.length_eq]
    split
    · exact (mirrored_setOperands hrest).bind fun _ _ _ => paired_pure hv
    · exact paired_pure like_nil

theorem mirrored_takeManyOrNil (n : Nat) :
    Mirrored r k l (List.Forall₂ (Like r)) (takeManyOrNil base n) (takeManyOrNil base n) := by
  induction n with
  | zero => exact paired_pure .nil
  | succ n ih =>
    refine mirrored_takeOrNil.bind fun v w hv => ?_
    exact ih.bind fun vs ws hvs => paired_pure (List.rel_append hvs (.cons hv .nil))

theorem mirrored_peekOrNil : Mirrored r k l (Like r) (peekOrNil base) (peekOrNil base) := by
  refine mirrored_frame.bind fun f g hfg => paired_pure ?_
  cases hfg with
  | nil => exact like_nil
  | cons h _ => exact h

/-! ## Paths -/

variable {reg : Region} {p q : WaitingPath} {w w' : Walk} {s : Script Value}

theorem likeEach_boundOnly {bs cs : List (Variable × Option Value)} (h : LikeBindings r bs cs) :
    LikeEach r (boundOnly bs) (boundOnly cs) := by
  refine List.rel_filterMap (fun b c hbc => ?_) h
  obtain ⟨var, v⟩ := b
  obtain ⟨var', v'⟩ := c
  obtain ⟨rfl, hvalue⟩ : var = var' ∧ Option.Rel (Like r) v v' := hbc
  cases hvalue with
  | none => exact .none
  | some hvalue => exact .some ⟨rfl, hvalue⟩

theorem mirrored_suspendPath (target : Nat) :
    Mirrored r k l (WaitingPath.Mirrors r) (suspendPath reg target) (suspendPath reg target) := by
  refine mirrored_frame.bind fun f g hfg => ?_
  refine mirrored_context.bind fun c d hcd => paired_pure ?_
  exact ⟨rfl, hfg, hcd.1.reboundSince reg.mark⟩

theorem mirrored_resumePath (h : p.Mirrors r q) :
    Mirrored r k l (fun _ _ => True) (resumePath reg p) (resumePath reg q) := by
  refine (mirrored_setFrame h.frame).bind fun _ _ _ m n hmn => ⟨trivial, { hmn with env := ?_ }⟩
  exact (hmn.env.unwindTo reg.mark).setAll (likeEach_boundOnly h.bindings)

theorem mirrored_mergeBindings {bs cs : Bindings} (h : LikeEach r bs cs) :
    Mirrored r k l (fun _ _ => True) (mergeBindings bs) (mergeBindings cs) := by
  induction h with
  | nil => exact paired_pure trivial
  | @cons b c bs cs hbc _ ih =>
    obtain ⟨var, v⟩ := b
    obtain ⟨var', v'⟩ := c
    obtain ⟨rfl, hv⟩ : var = var' ∧ Like r v v' := hbc
    refine mirrored_context.bind fun c d hcd => ?_
    have hcurrent := hcd.1.get? var
    generalize c.env.get? var = x, d.env.get? var = y at hcurrent
    cases hcurrent with
    | none => exact (mirrored_bindVariable var hv).bind fun _ _ _ => ih
    | some hcurrent =>
      refine (mirrored_store (paired_either hcurrent hv)).bind fun u u' hu => ?_
      exact (mirrored_bindVariable var hu).bind fun _ _ _ => ih

theorem mirrored_mergePath (h : p.Mirrors r q) :
    Mirrored r k l (fun _ _ => True) (mergePath reg p) (mergePath reg q) := by
  refine mirrored_frame.bind fun f g hfg => ?_
  refine (mirrored_store (paired_eitherFrames (List.rel_reverse hfg)
    (List.rel_reverse h.frame))).bind fun joined joined' hjoined => ?_
  refine (mirrored_setFrame (List.rel_reverse hjoined)).bind fun _ _ _ => ?_
  exact mirrored_mergeBindings (likeEach_boundOnly h.bindings)

/-! ## Scheduling -/

theorem mirrors_start : Walk.start.Mirrors r .start := ⟨rfl, rfl, .nil, rfl, rfl, like_nil⟩

theorem targets_eq {ps qs : List WaitingPath} (h : List.Forall₂ (WaitingPath.Mirrors r) ps qs) :
    ps.map WaitingPath.target = qs.map WaitingPath.target := by
  induction h with
  | nil => rfl
  | cons hpq _ ih => rw [List.map_cons, List.map_cons, hpq.target, ih]

theorem findIdx?_target (ps : List WaitingPath) (pos : Nat) :
    (ps.findIdx? fun p => p.target == pos) =
      (ps.map WaitingPath.target).findIdx? fun t => t == pos := by
  rw [List.findIdx?_map]
  rfl

theorem earliest?_congr {ps qs : List WaitingPath}
    (h : List.Forall₂ (WaitingPath.Mirrors r) ps qs) : earliest? ps = earliest? qs := by
  unfold earliest?
  simp only [findIdx?_target, targets_eq h]

theorem mirrored_resume (h : w.Mirrors r w') :
    Mirrored r k l (Option.Rel (Walk.Mirrors r)) (resume reg w) (resume reg w') := by
  unfold resume
  rw [← h.live, ← earliest?_congr h.pending]
  by_cases hl : w.live = true
  · simp only [if_pos hl]
    exact paired_pure (.some h)
  · simp only [if_neg hl]
    cases earliest? w.pending with
    | none => exact paired_pure .none
    | some index =>
      dsimp only
      have hpath := forall₂_getElem? h.pending index
      generalize w.pending[index]? = x, w'.pending[index]? = y at hpath
      cases hpath with
      | none => exact paired_pure .none
      | some hpath =>
        refine (mirrored_resumePath hpath).bind fun _ _ _ => paired_pure (.some ?_)
        exact { h with
          pos := hpath.target, live := rfl, pending := forall₂_swapRemove h.pending index }

theorem mirrored_mergeWaiting (tries : Nat) (h : w.Mirrors r w') :
    Mirrored r k l (Walk.Mirrors r) (mergeWaiting reg w tries) (mergeWaiting reg w' tries) := by
  induction tries generalizing w w' with
  | zero => exact paired_pure h
  | succ tries ih =>
    obtain ⟨pending, result, rfl⟩ := h.exists_eq
    unfold mergeWaiting
    rw [findIdx?_target, findIdx?_target, targets_eq h.pending]
    cases (pending.map WaitingPath.target).findIdx? fun t => t == w.pos with
    | none => exact paired_pure h
    | some index =>
      dsimp only
      have hpath := forall₂_getElem? h.pending index
      generalize w.pending[index]? = x, hy : pending[index]? = y at hpath
      cases hpath with
      | none => exact paired_pure h
      | some hpath =>
        refine (mirrored_mergePath hpath).bind fun _ _ _ => ih ?_
        exact { h with pending := forall₂_swapRemove h.pending index }

theorem mirrored_returnTop (h : w.Mirrors r w') :
    Mirrored r k l (Walk.Mirrors r) (returnTop reg w) (returnTop reg w') := by
  refine mirrored_peekOrNil.bind fun v v' hv => ?_
  refine (mirrored_store (paired_either h.result hv)).bind fun u u' hu => paired_pure ?_
  exact { h with live := rfl, result := hu }

/-! ## Jumps and loops -/

theorem mirrored_walkJump (h : w.Mirrors r w') (n : Nat) :
    Mirrored r k l (Walk.Mirrors r) (walkJump s reg w n) (walkJump s reg w' n) := by
  obtain ⟨pending, result, rfl⟩ := h.exists_eq
  unfold walkJump
  refine (paired_sameExcept _).bind fun target target' ht => ?_
  obtain rfl : target = target' := ht
  by_cases hahead : target > w.pos
  · simp only [if_pos hahead]
    exact (mirrored_suspendPath target).bind fun p q hpq => paired_pure (h.wait hpq).stop
  · simp only [if_neg hahead]
    split
    · exact paired_pure h.stop
    · refine mirrored_heedInterrupt.bind fun _ _ _ => paired_pure ?_
      exact { h with pos := rfl, backEdges := rfl }

theorem mirrored_walkBranch (h : w.Mirrors r w') (target : Nat) :
    Mirrored r k l (Walk.Mirrors r) (walkBranch reg w target) (walkBranch reg w' target) := by
  obtain ⟨pending, result, rfl⟩ := h.exists_eq
  unfold walkBranch
  by_cases hahead : target > w.pos
  · simp only [if_pos hahead]
    exact (mirrored_suspendPath target).bind fun p q hpq => paired_pure (h.wait hpq)
  · simp only [if_neg hahead]
    split
    · exact paired_pure h
    · refine (mirrored_suspendPath target).bind fun p q hpq => paired_pure ?_
      exact { h with
        backEdges := rfl, pending := List.rel_append h.pending (.cons hpq .nil) }

theorem forall₂_withoutSecond {f g : List Value} (h : List.Forall₂ (Like r) f g) :
    List.Forall₂ (Like r) (withoutSecond f) (withoutSecond g) := by
  cases h with
  | nil => exact .nil
  | cons ha hrest =>
    cases hrest with
    | nil => exact .cons ha .nil
    | cons _ hrest => exact .cons ha hrest

theorem mirrored_loopElement {f g : List Value} (h : List.Forall₂ (Like r) f g) :
    Mirrored r k l (LikeEntry r) (loopElement f) (loopElement g) := by
  have hnone : Mirrored r k l (LikeEntry r) (pure (.nil, .nil)) (pure (.nil, .nil)) :=
    paired_pure ⟨like_nil, like_nil⟩
  cases h with
  | nil => exact hnone
  | cons ha hrest =>
    cases hrest with
    | nil => exact hnone
    | @cons b b' rest rest' hb hrest =>
      cases hb with
      | iterator hb =>
        refine (mirrored_store (Store.paired_drawEntry hb)).bind fun x y hxy => paired_pure ?_
        cases hxy with
        | none => exact ⟨like_nil, like_nil⟩
        | some hxy => exact hxy
      | scalar hb => cases b <;> first | exact hnone | cases hb
      | _ => exact hnone

theorem mirrored_walkLoop (h : w.Mirrors r w') (n : Nat) (withKey : Bool) :
    Mirrored r k l (Walk.Mirrors r) (walkLoop s reg w n withKey) (walkLoop s reg w' n withKey) := by
  obtain ⟨pending, result, rfl⟩ := h.exists_eq
  unfold walkLoop
  refine (paired_sameExcept _).bind fun target target' ht => ?_
  obtain rfl : target = target' := ht
  refine (mirrored_suspendPath target).bind fun p q hpq => ?_
  have hexit : WaitingPath.Mirrors r { p with frame := withoutSecond p.frame }
      { q with frame := withoutSecond q.frame } :=
    { hpq with frame := forall₂_withoutSecond hpq.frame }
  dsimp only
  split
  · refine (mirrored_setFrame hexit.frame).bind fun _ _ _ => paired_pure ?_
    exact (h.wait hexit).stop
  · refine (mirrored_loopElement hpq.frame).bind fun x y hxy => ?_
    have hentered : Mirrored r k l (Walk.Mirrors r)
        (do
          push x.2
          return ({ w with enteredLoops := w.pos :: w.enteredLoops }.wait
            { p with frame := withoutSecond p.frame }).next)
        (do
          push y.2
          return ({ w with
            pending, result, enteredLoops := w.pos :: w.enteredLoops }.wait
              { q with frame := withoutSecond q.frame }).next) := by
      refine (mirrored_push hxy.2).bind fun _ _ _ => paired_pure ?_
      exact Walk.Mirrors.next (Walk.Mirrors.wait { h with enteredLoops := rfl } hexit)
    cases withKey with
    | false => exact hentered
    | true => exact (mirrored_push hxy.1).bind fun _ _ _ => hentered

/-! ## Constants and arguments -/

theorem likeEach_zip {vs ws : List Value} (params : List Variable)
    (h : List.Forall₂ (Like r) vs ws) : LikeEach r (params.zip vs) (params.zip ws) := by
  induction params generalizing vs ws with
  | nil => exact .nil
  | cons var rest ih =>
    cases h with
    | nil => exact .nil
    | cons hv hvs => exact .cons ⟨rfl, hv⟩ (ih hvs)

theorem mirrored_constantAt (hconst : ∀ c ∈ s.constants, Like r c c) (pos index : Nat) :
    Mirrored r k l (Like r) (ofExcept (s.constantAt pos index))
      (ofExcept (s.constantAt pos index)) := by
  refine paired_ofExcept ?_
  unfold Script.constantAt Script.constant?
  cases hc : s.constants[index]? with
  | none => rfl
  | some c => exact hconst c (Array.mem_of_getElem? hc)

theorem mirrored_pushNext {x y : Run Value} (h : w.Mirrors r w')
    (hx : Mirrored r k l (Like r) x y) :
    Mirrored r k l (Walk.Mirrors r)
      (do
        push (← x)
        return w.next)
      (do
        push (← y)
        return w'.next) :=
  hx.bind fun _ _ hv => (mirrored_push hv).bind fun _ _ _ => paired_pure h.next

end Run

end ReactiveScript
