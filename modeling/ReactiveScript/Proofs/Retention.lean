import ReactiveScript.Proofs.Scope

/-
  What a scope gives back in any environment.

  `close_scope` takes any mark, so a binding can stay behind at a level that is no longer open, and
  the next scope at that level takes it for its own. All other variables are safe: `env.Retains other`
  says that level and hidden bindings are the same, and the slots of the variables that are not bound
  deeper than the level. Entering a scope, binding in it and leaving it with its own mark retains the
  environment, whatever was left behind in it (`Nested.leaveScope`). Where nothing was left behind this
  is all there is to see (`Retains.same`).
-/

namespace ReactiveScript.Environment

variable {env other : Environment} {var : Variable}

/-! ## Variables that are bound too deep -/

theorem not_boundedAt : ¬ env.BoundedAt var ↔
    ∃ slot, env.slot? var = some slot ∧ env.level < slot.level := by
  constructor
  · intro h
    cases hs : env.slot? var with
    | none => exact absurd (fun slot he => by rw [hs] at he; cases he) h
    | some slot =>
      refine ⟨slot, rfl, Nat.lt_of_not_le fun hle => h fun slot' he => ?_⟩
      rw [hs] at he
      cases he
      exact hle
  · rintro ⟨slot, hs, hlt⟩ hb
    have hle := hb slot hs
    omega

theorem boundedAt_set (x : Variable) (v : Value) :
    (env.set x v).BoundedAt var ↔ x = var ∨ env.BoundedAt var := by
  unfold BoundedAt
  rw [slot?_set, level_set]
  by_cases hx : x = var
  · simp [hx]
  · simp [hx]

/-- What is bound too deep is taken for a binding of the current scope. -/
theorem hides_eq_false (h : ¬ env.BoundedAt var) : env.hides var = false := by
  obtain ⟨slot, hslot, hlevel⟩ := not_boundedAt.1 h
  unfold Environment.hides
  rw [hslot]
  have hle : ¬ slot.level < env.level := by omega
  simp [hle]

theorem boundedAt_of_hides (h : env.hides var = true) : env.BoundedAt var := by
  refine Classical.byContradiction fun hb => ?_
  rw [hides_eq_false hb] at h
  cases h

/-! ## What is retained -/

/-- The same level and hidden bindings, and the same slot for each variable that is not bound deeper
than the level. What is bound deeper stays so. -/
structure Retains (env other : Environment) : Prop where
  level : other.level = env.level
  shadowed : other.shadowed = env.shadowed
  slots : ∀ var, env.BoundedAt var → other.slot? var = env.slot? var
  deeper : ∀ var, other.BoundedAt var → env.BoundedAt var

theorem Retains.refl (env : Environment) : env.Retains env :=
  ⟨rfl, rfl, fun _ _ => rfl, fun _ h => h⟩

theorem Retains.boundedAt (h : env.Retains other) (hb : env.BoundedAt var) :
    other.BoundedAt var := by
  intro slot hslot
  rw [h.slots var hb] at hslot
  rw [h.level]
  exact hb slot hslot

theorem Retains.trans {a b c : Environment} (h : a.Retains b) (h' : b.Retains c) : a.Retains c where
  level := h'.level.trans h.level
  shadowed := h'.shadowed.trans h.shadowed
  slots var hb := (h'.slots var (h.boundedAt hb)).trans (h.slots var hb)
  deeper var hb := h.deeper var (h'.deeper var hb)

theorem Retains.hiddenCount (h : env.Retains other) : other.hiddenCount = env.hiddenCount :=
  congrArg List.length h.shadowed

theorem Retains.get? (h : env.Retains other) (hb : env.BoundedAt var) :
    other.get? var = env.get? var :=
  congrArg (Option.map Slot.value) (h.slots var hb)

theorem Retains.distance? (h : env.Retains other) (hb : env.BoundedAt var) :
    other.distance? var = env.distance? var := by
  unfold Environment.distance?
  rw [h.slots var hb, h.level]

/-- Where no variable is bound too deep, nothing has changed. -/
theorem Retains.same (h : env.Retains other) (hb : env.LevelsBounded) : env.Same other :=
  ⟨fun var => (h.slots var (hb var)).symm, h.shadowed.symm, h.level.symm⟩

theorem Retains.hides (h : env.Retains other) (var : Variable) : other.hides var = env.hides var := by
  by_cases hb : env.BoundedAt var
  · unfold Environment.hides
    rw [h.slots var hb, h.level]
  · rw [hides_eq_false hb, hides_eq_false fun ho => hb (h.deeper var ho)]

/-- Binding a variable makes no difference to what is retained. -/
theorem Retains.set (h : env.Retains other) (var : Variable) (v : Value) :
    (env.set var v).Retains (other.set var v) where
  level := h.level
  shadowed := by
    simp only [Environment.set, h.hides var]
    by_cases hh : env.hides var = true
    · rw [if_pos hh, if_pos hh, h.slots var (boundedAt_of_hides hh), h.shadowed]
    · rw [if_neg hh, if_neg hh, h.shadowed]
  slots x hb := by
    rw [slot?_set, slot?_set, h.level]
    by_cases hx : var = x
    · rw [if_pos hx, if_pos hx]
    · rw [if_neg hx, if_neg hx]
      exact h.slots x (((boundedAt_set var v).1 hb).resolve_left hx)
  deeper x hb := by
    rcases (boundedAt_set var v).1 hb with hx | hb
    · exact (boundedAt_set var v).2 (.inl hx)
    · exact (boundedAt_set var v).2 (.inr (h.deeper x hb))

theorem Retains.setAll (h : env.Retains other) (bindings : Bindings) :
    (env.setAll bindings).Retains (other.setAll bindings) := by
  induction bindings generalizing env other with
  | nil => exact h
  | cons b rest ih => exact ih (h.set b.1 b.2)

/-- Bindings were added to the current scope; what there was besides is retained. -/
def Extends (env other : Environment) : Prop := ∃ bindings, (env.setAll bindings).Retains other

theorem Retains.extends (h : env.Retains other) : env.Extends other := ⟨[], h⟩

theorem extends_setAll (env : Environment) (bindings : Bindings) :
    env.Extends (env.setAll bindings) := ⟨bindings, .refl _⟩

theorem Extends.trans {a b c : Environment} (h : a.Extends b) (h' : b.Extends c) : a.Extends c := by
  obtain ⟨xs, hx⟩ := h
  obtain ⟨ys, hy⟩ := h'
  have he : a.setAll (xs ++ ys) = (a.setAll xs).setAll ys := List.foldl_append ..
  refine ⟨xs ++ ys, ?_⟩
  rw [he]
  exact (hx.setAll ys).trans hy

theorem Extends.grows (h : env.Extends other) (hb : env.LevelsBounded) : env.Grows other := by
  obtain ⟨bindings, hr⟩ := h
  exact ⟨bindings, (hr.same (hb.setAll bindings)).symm⟩

/-! ## Nested in a scope -/

/-- What was hidden since a scope was entered in `outer`, where variables may be bound too deep: those
are never hidden, and stay bound too deep for `outer`. -/
structure HidesBounded (outer env : Environment) (hidden : List (Variable × Option Slot)) : Prop where
  shadowed : env.shadowed = hidden ++ outer.shadowed
  saved : ∀ b ∈ hidden, b.2 = outer.slot? b.1
  bounded : ∀ var ∈ Assoc.keys hidden, outer.BoundedAt var
  bound : ∀ var ∈ Assoc.keys hidden, ∃ v, env.slot? var = some ⟨env.level, v⟩
  kept : ∀ var, var ∉ Assoc.keys hidden → outer.BoundedAt var → env.slot? var = outer.slot? var
  deeper : ∀ var, ¬ outer.BoundedAt var → ∃ slot, env.slot? var = some slot ∧ env.level ≤ slot.level

/-- `env` is `outer` with a scope entered and variables bound in it. -/
structure Nested (outer env : Environment) : Prop where
  level : env.level = outer.level + 1
  hidden : ∃ hidden, HidesBounded outer env hidden

variable {outer : Environment}

theorem nested_enterScope (env : Environment) : Nested env env.enterScope.2 := by
  refine ⟨rfl, [], rfl, ?_, ?_, ?_, fun _ _ _ => rfl, fun var hv => ?_⟩
  · intro b hb
    cases hb
  · intro var hv
    cases hv
  · intro var hv
    cases hv
  · exact not_boundedAt.1 hv

namespace HidesBounded

variable {hidden : List (Variable × Option Slot)}

/-- Binding in a scope hides what was there before it, once, unless that was bound too deep. -/
theorem hides_iff (h : HidesBounded outer env hidden) (hlevel : env.level = outer.level + 1)
    (var : Variable) :
    env.hides var = true ↔ var ∉ Assoc.keys hidden ∧ outer.BoundedAt var := by
  constructor
  · intro hh
    constructor
    · intro hm
      obtain ⟨w, hw⟩ := h.bound var hm
      simp [hides, hw] at hh
    · refine Classical.byContradiction fun hb => ?_
      obtain ⟨slot, hs, hle⟩ := h.deeper var hb
      have hlt : ¬ slot.level < env.level := by omega
      simp [hides, hs, hlt] at hh
  · rintro ⟨hfree, hb⟩
    unfold hides
    rw [h.kept var hfree hb]
    cases ho : outer.slot? var with
    | none => simp [hlevel]
    | some slot =>
      have hle := hb slot ho
      have hlt : slot.level < outer.level + 1 := by omega
      simp [hlevel, hlt]

theorem bound_set (h : HidesBounded outer env hidden) (var : Variable) (v : Value) :
    ∀ x, x = var ∨ x ∈ Assoc.keys hidden → ∃ w, (env.set var v).slot? x = some ⟨env.level, w⟩ := by
  intro x hx
  rw [slot?_set]
  by_cases he : var = x
  · exact ⟨v, if_pos he⟩
  · rw [if_neg he]
    exact h.bound x (hx.resolve_left fun e => he e.symm)

theorem deeper_set (h : HidesBounded outer env hidden) (var : Variable) (v : Value) :
    ∀ x, ¬ outer.BoundedAt x → ∃ slot, (env.set var v).slot? x = some slot ∧ env.level ≤ slot.level := by
  intro x hx
  rw [slot?_set]
  by_cases he : var = x
  · exact ⟨_, if_pos he, Nat.le_refl _⟩
  · rw [if_neg he]
    exact h.deeper x hx

/-- A first binding of a variable in the scope. -/
theorem set_first (h : HidesBounded outer env hidden) (hlevel : env.level = outer.level + 1)
    {var : Variable} (hfree : var ∉ Assoc.keys hidden) (hb : outer.BoundedAt var) (v : Value) :
    HidesBounded outer (env.set var v) ((var, env.slot? var) :: hidden) where
  shadowed := by simp [Environment.set, (h.hides_iff hlevel var).2 ⟨hfree, hb⟩, h.shadowed]
  saved b hm := by
    rcases List.mem_cons.1 hm with rfl | hm
    · exact h.kept var hfree hb
    · exact h.saved b hm
  bounded x hx := by
    rcases List.mem_cons.1 hx with rfl | hx
    · exact hb
    · exact h.bounded x hx
  bound x hx := h.bound_set var v x (List.mem_cons.1 hx)
  kept x hx hbx := by
    rw [Assoc.keys_cons, List.mem_cons, not_or] at hx
    rw [slot?_set, if_neg fun e => hx.1 e.symm]
    exact h.kept x hx.2 hbx
  deeper := h.deeper_set var v

/-- A variable bound once more in the scope, or bound too deep outside. -/
theorem set_again (h : HidesBounded outer env hidden) (hlevel : env.level = outer.level + 1)
    {var : Variable} (hagain : ¬ (var ∉ Assoc.keys hidden ∧ outer.BoundedAt var)) (v : Value) :
    HidesBounded outer (env.set var v) hidden where
  shadowed := by
    have hh := mt (h.hides_iff hlevel var).1 hagain
    simp [Environment.set, hh, h.shadowed]
  saved := h.saved
  bounded := h.bounded
  bound x hx := h.bound_set var v x (.inr hx)
  kept x hx hbx := by
    have he : var ≠ x := by
      rintro rfl
      exact hagain ⟨hx, hbx⟩
    rw [slot?_set, if_neg he]
    exact h.kept x hx hbx
  deeper := h.deeper_set var v

end HidesBounded

theorem Nested.set (h : Nested outer env) (var : Variable) (v : Value) :
    Nested outer (env.set var v) := by
  obtain ⟨hlevel, hidden, hh⟩ := h
  by_cases hfirst : var ∉ Assoc.keys hidden ∧ outer.BoundedAt var
  · exact ⟨hlevel, _, hh.set_first hlevel hfirst.1 hfirst.2 v⟩
  · exact ⟨hlevel, _, hh.set_again hlevel hfirst v⟩

theorem Nested.setAll (h : Nested outer env) (bindings : Bindings) :
    Nested outer (env.setAll bindings) := by
  induction bindings generalizing env with
  | nil => exact h
  | cons b rest ih => exact ih (h.set b.1 b.2)

theorem Nested.retains (h : Nested outer env) (hr : env.Retains other) : Nested outer other := by
  obtain ⟨hlevel, hidden, hsh, hsaved, hbounded, hbound, hkept, hdeeper⟩ := h
  refine ⟨hr.level.trans hlevel, hidden, hr.shadowed.trans hsh, hsaved, hbounded, ?_, ?_, ?_⟩
  · intro x hx
    obtain ⟨w, hw⟩ := hbound x hx
    have hb : env.BoundedAt x := by
      intro slot hs
      rw [hw] at hs
      cases hs
      exact Nat.le_refl _
    exact ⟨w, by rw [hr.slots x hb, hw, hr.level]⟩
  · intro x hx hbx
    have hb : env.BoundedAt x := by
      intro slot hs
      rw [hkept x hx hbx] at hs
      have hle := hbx slot hs
      omega
    rw [hr.slots x hb]
    exact hkept x hx hbx
  · intro x hx
    rw [hr.level]
    by_cases hb : env.BoundedAt x
    · rw [hr.slots x hb]
      exact hdeeper x hx
    · obtain ⟨slot, hs, hlt⟩ := not_boundedAt.1 fun ho => hb (hr.deeper x ho)
      rw [hr.level] at hlt
      exact ⟨slot, hs, Nat.le_of_lt hlt⟩

theorem Nested.extends (h : Nested outer env) (he : env.Extends other) : Nested outer other := by
  obtain ⟨bindings, hr⟩ := he
  exact (h.setAll bindings).retains hr

/-- What undoing the bindings of a scope leaves. -/
theorem Nested.unwound (h : Nested outer env) :
    (env.unwindTo outer.hiddenCount).shadowed = outer.shadowed ∧
      (∀ var, outer.BoundedAt var → (env.unwindTo outer.hiddenCount).slot? var = outer.slot? var) ∧
      ∀ var, ¬ outer.BoundedAt var → (env.unwindTo outer.hiddenCount).slot? var = env.slot? var := by
  obtain ⟨_, hidden, hsh, hsaved, hbounded, _, hkept, _⟩ := h
  have hslots : ∀ var, (env.unwindTo outer.hiddenCount).slot? var =
      if var ∈ Assoc.keys hidden then outer.slot? var else env.slot? var := by
    intro var
    unfold Environment.unwindTo Environment.hiddenCount
    rw [hsh, unwind_append]
    exact find?_foldl_restoreSlot hidden outer.slot? hsaved var env.slots
  refine ⟨?_, fun var hb => ?_, fun var hb => ?_⟩
  · unfold Environment.unwindTo Environment.hiddenCount
    rw [hsh, unwind_append]
  · rw [hslots]
    by_cases hm : var ∈ Assoc.keys hidden
    · rw [if_pos hm]
    · rw [if_neg hm]
      exact hkept var hm hb
  · rw [hslots, if_neg fun hm => hb (hbounded var hm)]

/-- Leaving a scope with its own mark retains the environment in which it was entered. -/
theorem Nested.leaveScope (h : Nested outer env) :
    outer.Retains (env.leaveScope outer.hiddenCount) := by
  obtain ⟨hshadowed, hslots, hdeeper⟩ := h.unwound
  have hlevel : (env.leaveScope outer.hiddenCount).level = outer.level := by
    rw [level_leaveScope, h.level]
    exact Nat.add_sub_cancel ..
  refine ⟨hlevel, hshadowed, hslots, fun var hb => Classical.byContradiction fun hnot => ?_⟩
  obtain ⟨hl, hidden, hh⟩ := h
  obtain ⟨slot, hs, hle⟩ := hh.deeper var hnot
  have hafter : (env.leaveScope outer.hiddenCount).slot? var = some slot :=
    (hdeeper var hnot).trans hs
  have hbounded := hb slot hafter
  omega

/-- Undoing the bindings of a scope leaves a scope that was just entered. -/
theorem Nested.unwindTo (h : Nested outer env) : Nested outer (env.unwindTo outer.hiddenCount) := by
  obtain ⟨hshadowed, hslots, hdeeper⟩ := h.unwound
  obtain ⟨hl, hidden, hh⟩ := h
  refine ⟨hl, [], hshadowed, ?_, ?_, ?_, fun var _ hb => hslots var hb, fun var hb => ?_⟩
  · intro b hb
    cases hb
  · intro var hv
    cases hv
  · intro var hv
    cases hv
  · rw [hdeeper var hb]
    exact hh.deeper var hb

end ReactiveScript.Environment
