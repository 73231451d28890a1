import ReactiveScript.Environment

/-
  Scopes leave no trace.

  `Environment.Same` says that two environments hold the same slots, hide the same bindings and
  stand at the same level; their association lists may be ordered differently. `Inside outer env`
  says that `env` is `outer` with a scope entered and variables bound in it. Binding keeps it
  (`Inside.set`) and leaving the scope gives `outer` back (`Inside.leaveScope`), provided that no
  variable of `outer` is bound deeper than the level of `outer` (`LevelsBounded`). Environments that
  are inside one another are bounded (`Stacked.levelsBounded`).
-/

namespace ReactiveScript.Environment

/-! ## Environments that can not be told apart -/

/-- The same slots, hidden bindings and level. -/
structure Same (env other : Environment) : Prop where
  slots : ∀ var, env.slot? var = other.slot? var
  shadowed : env.shadowed = other.shadowed
  level : env.level = other.level

theorem Same.refl (env : Environment) : env.Same env := ⟨fun _ => rfl, rfl, rfl⟩

theorem Same.symm {env other : Environment} (h : env.Same other) : other.Same env :=
  ⟨fun var => (h.slots var).symm, h.shadowed.symm, h.level.symm⟩

theorem Same.trans {a b c : Environment} (h : a.Same b) (h' : b.Same c) : a.Same c :=
  ⟨fun var => (h.slots var).trans (h'.slots var), h.shadowed.trans h'.shadowed,
    h.level.trans h'.level⟩

theorem Same.hides {env other : Environment} (h : env.Same other) (var : Variable) :
    env.hides var = other.hides var := by
  unfold Environment.hides
  rw [h.slots var, h.level]

theorem Same.set {env other : Environment} (h : env.Same other) (var : Variable) (v : Value) :
    (env.set var v).Same (other.set var v) := by
  refine ⟨fun x => ?_, ?_, h.level⟩
  · rw [slot?_set, slot?_set, h.slots x, h.level]
  · simp only [Environment.set, h.hides var, h.slots var, h.shadowed]

theorem Same.setAll {env other : Environment} (h : env.Same other) (bindings : Bindings) :
    (env.setAll bindings).Same (other.setAll bindings) := by
  induction bindings generalizing env other with
  | nil => exact h
  | cons b rest ih => exact ih (h.set b.1 b.2)

theorem Same.hiddenCount {env other : Environment} (h : env.Same other) :
    env.hiddenCount = other.hiddenCount := by
  unfold Environment.hiddenCount
  rw [h.shadowed]

theorem Same.get? {env other : Environment} (h : env.Same other) (var : Variable) :
    env.get? var = other.get? var := by
  unfold Environment.get?
  rw [h.slots var]

theorem Same.distance? {env other : Environment} (h : env.Same other) (var : Variable) :
    env.distance? var = other.distance? var := by
  unfold Environment.distance?
  rw [h.slots var, h.level]

/-- No observation tells the environments apart. -/
structure Alike (env other : Environment) : Prop where
  level : env.level = other.level
  hiddenCount : env.hiddenCount = other.hiddenCount
  get? : ∀ var, env.get? var = other.get? var
  distance? : ∀ var, env.distance? var = other.distance? var

theorem Same.alike {env other : Environment} (h : env.Same other) : env.Alike other :=
  ⟨h.level, h.hiddenCount, h.get?, h.distance?⟩

/-! ## Unwinding -/

theorem find?_restoreSlot (var other : Variable) (slot : Option Slot)
    (slots : List (Variable × Slot)) :
    Assoc.find? other (restoreSlot var slot slots) =
      if var = other then slot else Assoc.find? other slots := by
  cases slot with
  | none => exact Assoc.find?_erase var other slots
  | some slot => exact Assoc.find?_insert var other slot slots

/-- What unwinding leaves does not depend on the order of the slots. -/
theorem unwind_congr (mark : Nat) (hidden : List (Variable × Option Slot))
    {slots slots' : List (Variable × Slot)}
    (h : ∀ var, Assoc.find? var slots = Assoc.find? var slots') :
    (unwind mark hidden slots).1 = (unwind mark hidden slots').1 ∧
      ∀ var, Assoc.find? var (unwind mark hidden slots).2 =
        Assoc.find? var (unwind mark hidden slots').2 := by
  induction hidden generalizing slots slots' with
  | nil => exact ⟨rfl, h⟩
  | cons b rest ih =>
    unfold unwind
    by_cases hmark : mark < rest.length + 1
    · rw [if_pos hmark, if_pos hmark]
      exact ih fun var => by rw [find?_restoreSlot, find?_restoreSlot, h var]
    · rw [if_neg hmark, if_neg hmark]
      exact ⟨rfl, h⟩

theorem Same.leaveScope {env other : Environment} (h : env.Same other) (mark : Nat) :
    (env.leaveScope mark).Same (other.leaveScope mark) := by
  obtain ⟨hshadowed, hslots⟩ := unwind_congr mark env.shadowed h.slots
  have hother : other.leaveScope mark = { other with
      level := other.level - 1
      shadowed := (unwind mark env.shadowed other.slots).1
      slots := (unwind mark env.shadowed other.slots).2 } := by
    rw [h.shadowed]
    rfl
  rw [hother]
  exact ⟨hslots, hshadowed, congrArg (· - 1) h.level⟩

/-- Unwinding to a mark takes back exactly what was hidden after it. -/
theorem unwind_append (hidden rest : List (Variable × Option Slot))
    (slots : List (Variable × Slot)) :
    unwind rest.length (hidden ++ rest) slots =
      (rest, hidden.foldl (fun slots b => restoreSlot b.1 b.2 slots) slots) := by
  induction hidden generalizing slots with
  | nil => cases rest <;> simp [unwind]
  | cons b hidden ih =>
    have h : rest.length < (hidden ++ rest).length + 1 := by
      rw [List.length_append]; omega
    simp only [List.cons_append, unwind, if_pos h, List.foldl_cons]
    exact ih _

theorem find?_foldl_restoreSlot (hidden : List (Variable × Option Slot))
    (old : Variable → Option Slot) (h : ∀ b ∈ hidden, b.2 = old b.1) (var : Variable)
    (slots : List (Variable × Slot)) :
    Assoc.find? var (hidden.foldl (fun slots b => restoreSlot b.1 b.2 slots) slots) =
      if var ∈ Assoc.keys hidden then old var else Assoc.find? var slots := by
  induction hidden generalizing slots with
  | nil => simp
  | cons b hidden ih =>
    have hb : b.2 = old b.1 := h b (by simp)
    rw [List.foldl_cons, ih (fun c hc => h c (List.mem_cons_of_mem _ hc)), find?_restoreSlot, hb]
    rw [Assoc.keys_cons]
    by_cases he : b.1 = var
    · subst he; simp
    · have he' : var ≠ b.1 := fun e => he e.symm
      simp [he, he']

/-! ## Inside a scope -/

/-- The variable is not bound deeper than the current level. -/
def BoundedAt (env : Environment) (var : Variable) : Prop :=
  ∀ slot, env.slot? var = some slot → slot.level ≤ env.level

/-- No variable is bound deeper than the current level. -/
def LevelsBounded (env : Environment) : Prop := ∀ var, env.BoundedAt var

/-- What was hidden since a scope was entered in `outer`: each variable, which was not bound deeper
there, with the slot it had. A variable that was not hidden still has that slot. -/
structure Hides (outer env : Environment) (hidden : List (Variable × Option Slot)) : Prop where
  shadowed : env.shadowed = hidden ++ outer.shadowed
  saved : ∀ b ∈ hidden, b.2 = outer.slot? b.1
  bounded : ∀ var ∈ Assoc.keys hidden, outer.BoundedAt var
  bound : ∀ var ∈ Assoc.keys hidden, ∃ v, env.slot? var = some ⟨env.level, v⟩
  kept : ∀ var, var ∉ Assoc.keys hidden → env.slot? var = outer.slot? var

/-- `env` is `outer` with a scope entered and variables bound in it. -/
structure Inside (outer env : Environment) : Prop where
  level : env.level = outer.level + 1
  hidden : ∃ hidden, Hides outer env hidden

theorem inside_enterScope (env : Environment) : Inside env env.enterScope.2 :=
  ⟨rfl, [], rfl, by simp, by simp, by simp, fun _ _ => rfl⟩

theorem Inside.same_right {outer env other : Environment} (h : Inside outer env)
    (hs : env.Same other) : Inside outer other := by
  obtain ⟨hl, hidden, hsh, hsaved, hbounded, hbound, hkept⟩ := h
  refine ⟨hs.level ▸ hl, hidden, hs.shadowed ▸ hsh, hsaved, hbounded, fun var hv => ?_,
    fun var hv => ?_⟩
  · rw [← hs.slots var, ← hs.level]; exact hbound var hv
  · rw [← hs.slots var]; exact hkept var hv

theorem LevelsBounded.same {env other : Environment} (h : env.LevelsBounded)
    (hs : env.Same other) : other.LevelsBounded := by
  intro var slot hv
  rw [← hs.slots var] at hv
  rw [← hs.level]
  exact h var slot hv

theorem LevelsBounded.set {env : Environment} (h : env.LevelsBounded) (var : Variable)
    (v : Value) : (env.set var v).LevelsBounded := by
  intro x slot hx
  rw [slot?_set] at hx
  by_cases he : var = x
  · simp only [he, if_true, Option.some.injEq] at hx
    subst hx; exact Nat.le_refl _
  · simp only [he, if_false] at hx
    exact h x slot hx

theorem LevelsBounded.setAll {env : Environment} (h : env.LevelsBounded) (bindings : Bindings) :
    (env.setAll bindings).LevelsBounded := by
  induction bindings generalizing env with
  | nil => exact h
  | cons b rest ih => exact ih (h.set b.1 b.2)

theorem LevelsBounded.enterScope {env : Environment} (h : env.LevelsBounded) :
    env.enterScope.2.LevelsBounded :=
  fun var slot hv => Nat.le_succ_of_le (h var slot hv)

/-- Binding in a scope hides what was there before it, once. -/
theorem Inside.set {outer env : Environment} (h : Inside outer env) {var : Variable}
    (hb : outer.BoundedAt var) (v : Value) : Inside outer (env.set var v) := by
  obtain ⟨hl, hidden, hsh, hsaved, hbounded, hbound, hkept⟩ := h
  by_cases hm : var ∈ Assoc.keys hidden
  · -- bound in this scope already: nothing is hidden
    have hh : env.hides var = false := by
      obtain ⟨w, hw⟩ := hbound var hm
      simp [Environment.hides, hw]
    refine ⟨hl, hidden, ?_, hsaved, hbounded, fun x hx => ?_, fun x hx => ?_⟩
    · simp [Environment.set, hh, hsh]
    · rw [slot?_set]
      by_cases he : var = x
      · exact ⟨v, by simp [he]⟩
      · simpa [he] using hbound x hx
    · have he : var ≠ x := fun e => hx (e ▸ hm)
      rw [slot?_set, if_neg he]; exact hkept x hx
  · have hh : env.hides var = true := by
      have hpos : 0 < env.level := by omega
      unfold Environment.hides
      rw [hkept var hm]
      cases ho : outer.slot? var with
      | none => simp [hpos]
      | some slot =>
        have := hb slot ho
        simp [hl]; omega
    refine ⟨hl, (var, env.slot? var) :: hidden, ?_, fun b hb' => ?_, fun x hx => ?_,
      fun x hx => ?_, fun x hx => ?_⟩
    · simp [Environment.set, hh, hsh]
    · rcases List.mem_cons.1 hb' with rfl | hb'
      · exact hkept var hm
      · exact hsaved b hb'
    · rcases List.mem_cons.1 hx with rfl | hx
      · exact hb
      · exact hbounded x hx
    · rw [slot?_set]
      by_cases he : var = x
      · exact ⟨v, by simp [he]⟩
      · rw [Assoc.keys_cons, List.mem_cons] at hx
        simpa [he] using hbound x (hx.resolve_left (fun e => he e.symm))
    · rw [Assoc.keys_cons, List.mem_cons, not_or] at hx
      rw [slot?_set, if_neg (fun e => hx.1 e.symm)]
      exact hkept x hx.2

theorem Inside.setAll {outer env : Environment} (h : Inside outer env) {bindings : Bindings}
    (hb : ∀ b ∈ bindings, outer.BoundedAt b.1) : Inside outer (env.setAll bindings) := by
  induction bindings generalizing env with
  | nil => exact h
  | cons b rest ih =>
    exact ih (h.set (hb b List.mem_cons_self) b.2) fun c hc => hb c (List.mem_cons_of_mem _ hc)

theorem Inside.levelsBounded {outer env : Environment} (hb : outer.LevelsBounded)
    (h : Inside outer env) : env.LevelsBounded := by
  obtain ⟨hl, hidden, _, _, _, hbound, hkept⟩ := h
  intro var slot hv
  by_cases hm : var ∈ Assoc.keys hidden
  · obtain ⟨w, hw⟩ := hbound var hm
    rw [hv, Option.some.injEq] at hw
    subst hw; exact Nat.le_refl _
  · rw [hkept var hm] at hv
    have := hb var slot hv
    omega

theorem Inside.slot?_unwindTo {outer env : Environment} (h : Inside outer env) (var : Variable) :
    (env.unwindTo outer.hiddenCount).slot? var = outer.slot? var ∧
      (env.unwindTo outer.hiddenCount).shadowed = outer.shadowed := by
  obtain ⟨_, hidden, hsh, hsaved, _, _, hkept⟩ := h
  unfold unwindTo Environment.hiddenCount
  rw [hsh, unwind_append]
  refine ⟨?_, rfl⟩
  simp only [Environment.slot?]
  rw [find?_foldl_restoreSlot hidden outer.slot? hsaved]
  by_cases hm : var ∈ Assoc.keys hidden
  · simp only [hm, if_true]; rfl
  · simp only [hm, if_false]; exact hkept var hm

/-- Leaving a scope gives back what it was entered in. -/
theorem Inside.leaveScope {outer env : Environment} (h : Inside outer env) :
    (env.leaveScope outer.hiddenCount).Same outer := by
  refine ⟨fun var => (h.slot?_unwindTo var).1, (h.slot?_unwindTo ⟨0⟩).2, ?_⟩
  rw [level_leaveScope, h.level]
  exact Nat.add_sub_cancel ..

/-- Undoing the bindings of a scope leaves the scope just entered. -/
theorem Inside.unwindTo {outer env : Environment} (h : Inside outer env) :
    Inside outer (env.unwindTo outer.hiddenCount) :=
  ⟨h.level, [], (h.slot?_unwindTo ⟨0⟩).2, by simp, by simp, by simp,
    fun var _ => (h.slot?_unwindTo var).1⟩

theorem Hides.reboundSince {outer env : Environment} {hidden : List (Variable × Option Slot)}
    (h : Hides outer env hidden) :
    env.reboundSince outer.hiddenCount = hidden.reverse.map fun b => (b.1, env.get? b.1) := by
  unfold Environment.reboundSince Environment.hiddenCount
  rw [h.shadowed, List.length_append, Nat.add_sub_cancel, List.take_left]

/-- What was bound since the scope was entered. -/
theorem Inside.reboundSince {outer env : Environment} (h : Inside outer env) :
    (∀ b ∈ env.reboundSince outer.hiddenCount, outer.BoundedAt b.1 ∧ b.2 = env.get? b.1) ∧
      ∀ var, env.get? var ≠ outer.get? var →
        (var, env.get? var) ∈ env.reboundSince outer.hiddenCount := by
  obtain ⟨_, hidden, hh⟩ := h
  have he := hh.reboundSince
  obtain ⟨_, _, hbounded, _, hkept⟩ := hh
  rw [he]
  refine ⟨fun b hb => ?_, fun var hne => ?_⟩
  · obtain ⟨c, hc, rfl⟩ := List.mem_map.1 hb
    exact ⟨hbounded c.1 (List.mem_map_of_mem (List.mem_reverse.1 hc)), rfl⟩
  · by_cases hm : var ∈ Assoc.keys hidden
    · obtain ⟨c, hc, rfl⟩ := List.mem_map.1 hm
      exact List.mem_map.2 ⟨c, List.mem_reverse.2 hc, rfl⟩
    · refine absurd ?_ hne
      unfold Environment.get?
      rw [hkept var hm]

/-! ## Bound in the current scope -/

theorem level_setAll (env : Environment) (bindings : Bindings) :
    (env.setAll bindings).level = env.level := by
  induction bindings generalizing env with
  | nil => rfl
  | cons b rest ih => exact ih (env.set b.1 b.2)

/-- What is bound in the current scope stays bound in it. -/
theorem slot?_setAll_of_bound {env : Environment} {var : Variable} {v : Value} (bindings : Bindings)
    (h : env.slot? var = some ⟨env.level, v⟩) :
    ∃ v', (env.setAll bindings).slot? var = some ⟨(env.setAll bindings).level, v'⟩ := by
  induction bindings generalizing env v with
  | nil => exact ⟨v, h⟩
  | cons b rest ih =>
    by_cases he : b.1 = var
    · have hset : (env.set b.1 b.2).slot? var = some ⟨(env.set b.1 b.2).level, b.2⟩ := by
        rw [slot?_set, if_pos he]
        rfl
      exact ih hset
    · have hset : (env.set b.1 b.2).slot? var = some ⟨(env.set b.1 b.2).level, v⟩ := by
        rw [slot?_set, if_neg he]
        exact h
      exact ih hset

/-- Bindings that give a variable one value only. -/
theorem slot?_setAll {bindings : Bindings} {var : Variable} {v : Value}
    (hmem : (var, v) ∈ bindings) (huniq : ∀ u, (var, u) ∈ bindings → u = v) (env : Environment) :
    (env.setAll bindings).slot? var = some ⟨env.level, v⟩ := by
  induction bindings generalizing env with
  | nil => cases hmem
  | cons b rest ih =>
    show ((env.set b.1 b.2).setAll rest).slot? var = _
    by_cases hrest : ∃ u, (var, u) ∈ rest
    · obtain ⟨u, hu⟩ := hrest
      have hv := huniq u (List.mem_cons_of_mem _ hu)
      subst hv
      exact ih hu (fun u' hu' => huniq u' (List.mem_cons_of_mem _ hu')) (env.set b.1 b.2)
    · have hkeep : ∀ (env : Environment) (rest : Bindings), (¬ ∃ u, (var, u) ∈ rest) →
          (env.setAll rest).slot? var = env.slot? var := by
        intro env rest hnone
        induction rest generalizing env with
        | nil => rfl
        | cons c rest ih =>
          show ((env.set c.1 c.2).setAll rest).slot? var = _
          have hne : ¬ c.1 = var := fun he => hnone ⟨c.2, he ▸ List.mem_cons_self⟩
          rw [ih _ fun ⟨u, hu⟩ => hnone ⟨u, List.mem_cons_of_mem _ hu⟩, slot?_set, if_neg hne]
      rcases List.mem_cons.1 hmem with rfl | hmem
      · rw [hkeep _ rest hrest, slot?_set, if_pos rfl]
      · exact absurd ⟨v, hmem⟩ hrest

/-- What is bound in a scope is among what was bound since it was entered. -/
theorem Inside.mem_reboundSince {outer env : Environment} (h : Inside outer env) {var : Variable}
    {v : Value} (hb : outer.BoundedAt var) (hv : env.slot? var = some ⟨env.level, v⟩) :
    (var, some v) ∈ env.reboundSince outer.hiddenCount := by
  have hget : env.get? var = some v := congrArg (Option.map Slot.value) hv
  obtain ⟨hl, hidden, hh⟩ := h
  rw [hh.reboundSince, ← hget]
  by_cases hm : var ∈ Assoc.keys hidden
  · obtain ⟨c, hc, rfl⟩ := List.mem_map.1 hm
    exact List.mem_map.2 ⟨c, List.mem_reverse.2 hc, rfl⟩
  · -- else the slot would be that of the outer scope
    have hlevel : env.level ≤ outer.level := hb _ ((hh.kept var hm).symm.trans hv)
    omega

/-! ## Growing -/

/-- `env` has got bindings in its current scope, and is otherwise as it was. -/
def Grows (env other : Environment) : Prop := ∃ bindings, other.Same (env.setAll bindings)

theorem Same.grows {env other : Environment} (h : env.Same other) : env.Grows other :=
  ⟨[], h.symm⟩

theorem Grows.trans {a b c : Environment} (h : a.Grows b) (h' : b.Grows c) : a.Grows c := by
  obtain ⟨xs, hx⟩ := h
  obtain ⟨ys, hy⟩ := h'
  have he : a.setAll (xs ++ ys) = (a.setAll xs).setAll ys := List.foldl_append ..
  exact ⟨xs ++ ys, he ▸ hy.trans (hx.setAll ys)⟩

theorem grows_setAll (env : Environment) (bindings : Bindings) :
    env.Grows (env.setAll bindings) := ⟨bindings, Same.refl _⟩

theorem Grows.levelsBounded {env other : Environment} (h : env.Grows other)
    (hb : env.LevelsBounded) : other.LevelsBounded := by
  obtain ⟨bindings, hs⟩ := h
  exact (hb.setAll bindings).same hs.symm

theorem Inside.grows {outer env other : Environment} (hb : outer.LevelsBounded)
    (h : Inside outer env) (hg : env.Grows other) : Inside outer other := by
  obtain ⟨bindings, hs⟩ := hg
  exact (h.setAll fun b _ => hb b.1).same_right hs.symm

/-! ## Properly nested scopes -/

/-- Each environment is inside the next one, and the last is bounded. -/
def Stacked : List Environment → Environment → Prop
  | [], env => env.LevelsBounded
  | o :: outer, env => Inside o env ∧ Stacked outer o

theorem Stacked.levelsBounded {outer : List Environment} {env : Environment}
    (h : Stacked outer env) : env.LevelsBounded := by
  induction outer generalizing env with
  | nil => exact h
  | cons o outer ih => exact h.1.levelsBounded (ih h.2)

theorem Stacked.same {outer : List Environment} {env other : Environment}
    (h : Stacked outer env) (hs : env.Same other) : Stacked outer other := by
  cases outer with
  | nil => exact LevelsBounded.same h hs
  | cons o outer => exact ⟨h.1.same_right hs, h.2⟩

theorem stacked_empty : Stacked [] .empty := by
  intro var slot hv
  simp [Environment.empty, Environment.slot?] at hv

theorem Stacked.enter {outer : List Environment} {env : Environment} (h : Stacked outer env) :
    Stacked (env :: outer) env.enterScope.2 :=
  ⟨inside_enterScope env, h⟩

theorem Stacked.leave {o env : Environment} {outer : List Environment}
    (h : Stacked (o :: outer) env) : Stacked outer (env.leaveScope o.hiddenCount) :=
  h.2.same h.1.leaveScope.symm

theorem Stacked.grows {outer : List Environment} {env other : Environment}
    (h : Stacked outer env) (hg : env.Grows other) : Stacked outer other := by
  cases outer with
  | nil => exact hg.levelsBounded h
  | cons o outer => exact ⟨h.1.grows h.2.levelsBounded hg, h.2⟩

end ReactiveScript.Environment
