import Mathlib
import ReactiveScript.Proofs.Scope
import ReactiveScript.Proofs.WordLevels

/-
  The environment as a stack of finite maps.

  `Layers` is what an environment stands for: one map for each open scope and one for the outermost
  level. Binding goes into the innermost map, entering a scope puts an empty map on top and leaving
  it takes that map away. The environment has a single table and a stack of hidden slots instead.
  `Scoped.Shows` ties the two together: the slots of each open scope are those of the scope around
  it, overlaid with the map, and as many slots are hidden as the map binds variables. Entering,
  binding and leaving keep it (`Represents.step`), so every sequence of them has the same observable
  outcome on both sides, and a scope that is left leaves no trace. With levels of 32 bits this is so
  while fewer than `UInt32.size` scopes are open (`WordScoped.run_refines_layers`), and no longer
  (`WordScoped.level_wraps`).
-/

namespace ReactiveScript

/-! ## Stacks of maps -/

/-- The bindings made in one scope. -/
abbrev Layer := Finmap fun _ : Variable => Value

/-- The maps of the open scopes, the innermost first, above the outermost map. -/
structure Layers where
  inner : List Layer
  outermost : Layer

/-- What can be done with scopes and variables. -/
inductive ScopeUse
  | enter
  | bind (var : Variable) (value : Value)
  | leave

namespace Layers

/-- No scope is open and nothing is bound. -/
def start : Layers := ⟨[], ∅⟩

/-- All maps, the innermost first. -/
def all (layers : Layers) : List Layer := layers.inner ++ [layers.outermost]

/-- The value of a variable in the innermost map that binds it. -/
def get? (layers : Layers) (var : Variable) : Option Value :=
  layers.all.findSome? fun layer => layer.lookup var

/-- The number of maps above the innermost one that binds a variable. -/
def distance? (layers : Layers) (var : Variable) : Option Nat :=
  layers.all.findIdx? fun layer => (layer.lookup var).isSome

/-- The number of bindings in all maps but the outermost. -/
def boundInside (layers : Layers) : Nat :=
  (layers.inner.map fun layer => layer.keys.card).sum

/-- Bind a variable in the innermost map. -/
def bind (layers : Layers) (var : Variable) (value : Value) : Layers :=
  match layers.inner with
  | [] => { layers with outermost := layers.outermost.insert var value }
  | layer :: inner => { layers with inner := layer.insert var value :: inner }

/-- One use. A scope can only be left if one is open. -/
def step (layers : Layers) : ScopeUse → Option Layers
  | .enter => some { layers with inner := ∅ :: layers.inner }
  | .bind var value => some (layers.bind var value)
  | .leave =>
    match layers.inner with
    | [] => none
    | _ :: inner => some { layers with inner }

/-- Uses in order. -/
def run (layers : Layers) (uses : List ScopeUse) : Option Layers := uses.foldlM step layers

/-- On the way there are never as many open scopes. -/
def StaysBelow (bound : Nat) (layers : Layers) (uses : List ScopeUse) : Prop :=
  ∀ before, before <+: uses → ∀ after ∈ layers.run before, after.inner.length < bound

variable {bound : Nat} {layers : Layers} {uses rest : List ScopeUse}

theorem StaysBelow.of_append (h : layers.StaysBelow bound (uses ++ rest)) :
    layers.StaysBelow bound uses :=
  fun before hbefore => h before (hbefore.trans (List.prefix_append uses rest))

theorem StaysBelow.after_step {use : ScopeUse} {layers' : Layers}
    (h : layers.StaysBelow bound (use :: rest)) (hstep : layers.step use = some layers') :
    layers'.StaysBelow bound rest := by
  intro before hbefore after hafter
  refine h (use :: before) ((List.prefix_cons_inj use).mpr hbefore) after ?_
  unfold run
  rw [List.foldlM_cons, hstep]
  exact hafter

/-- Each use opens at most one scope. -/
theorem length_step {use : ScopeUse} {layers' : Layers} (hstep : layers.step use = some layers') :
    layers'.inner.length ≤ layers.inner.length + 1 := by
  obtain ⟨inner, outermost⟩ := layers
  cases use with
  | enter =>
    cases hstep
    exact Nat.le_refl _
  | bind var value =>
    cases hstep
    cases inner <;> exact Nat.le_succ _
  | leave =>
    cases inner with
    | nil => cases hstep
    | cons layer inner =>
      cases hstep
      exact Nat.le_succ_of_le (Nat.le_succ _)

/-- Few uses open few scopes. -/
theorem staysBelow_of_length (h : layers.inner.length + uses.length < bound) :
    layers.StaysBelow bound uses := by
  induction uses generalizing layers with
  | nil =>
    intro before hbefore after hafter
    cases List.prefix_nil.mp hbefore
    cases hafter
    exact h
  | cons use rest ih =>
    rintro (_ | ⟨first, before⟩) hbefore after hafter
    · cases hafter
      exact Nat.lt_of_le_of_lt (Nat.le_add_right ..) h
    · obtain ⟨rfl, hprefix⟩ := List.cons_prefix_cons.mp hbefore
      unfold run at hafter
      rw [List.foldlM_cons] at hafter
      obtain ⟨layers', hstep, hafter⟩ := Option.bind_eq_some_iff.mp hafter
      have hlength := length_step hstep
      rw [List.length_cons] at h
      exact ih (by omega) before hprefix after hafter

end Layers

/-! ## Environments with their marks -/

/-- An environment with the marks of its open scopes, the innermost first. -/
structure Scoped where
  env : Environment
  marks : List Nat

namespace Scoped

/-- The empty environment, with no scope open. -/
def start : Scoped := ⟨.empty, []⟩

/-- One use. A scope is left with the mark that entering it gave. -/
def step (s : Scoped) : ScopeUse → Option Scoped
  | .enter => some ⟨s.env.enterScope.2, s.env.enterScope.1 :: s.marks⟩
  | .bind var value => some { s with env := s.env.set var value }
  | .leave =>
    match s.marks with
    | [] => none
    | mark :: marks => some ⟨s.env.leaveScope mark, marks⟩

/-- Uses in order. -/
def run (s : Scoped) (uses : List ScopeUse) : Option Scoped := uses.foldlM step s

theorem run_append (s : Scoped) (uses rest : List ScopeUse) :
    s.run (uses ++ rest) = (s.run uses).bind fun s => s.run rest :=
  List.foldlM_append ..

/-- Every observation of the environment is that of the stack of maps. -/
structure Agrees (s : Scoped) (layers : Layers) : Prop where
  get? : ∀ var, s.env.get? var = layers.get? var
  distance? : ∀ var, s.env.distance? var = layers.distance? var
  level : s.env.level = layers.inner.length
  hiddenCount : s.env.hiddenCount = layers.boundInside

/-! ## The invariant -/

/-- `env` is `outer` with a scope entered and the bindings of the layer made in it. -/
structure Overlays (layer : Layer) (outer env : Environment) : Prop where
  inside : outer.Inside env
  slot? : ∀ var, env.slot? var =
    ((layer.lookup var).map fun v => ⟨env.level, v⟩).or (outer.slot? var)
  hiddenCount : env.hiddenCount = layer.keys.card + outer.hiddenCount

/-- The environment holds the maps, and the marks are those of its open scopes. -/
inductive Shows (outermost : Layer) : List Layer → List Nat → Environment → Prop
  | base {env : Environment} : env.level = 0 → env.shadowed = [] →
      (∀ var, env.slot? var = (outermost.lookup var).map fun v => ⟨0, v⟩) →
      Shows outermost [] [] env
  | scope {layer : Layer} {inner : List Layer} {marks : List Nat} {outer env : Environment} :
      Shows outermost inner marks outer → Overlays layer outer env →
      Shows outermost (layer :: inner) (outer.hiddenCount :: marks) env

/-- The environment and its marks stand for the stack of maps. -/
def Represents (s : Scoped) (layers : Layers) : Prop :=
  Shows layers.outermost layers.inner s.marks s.env

theorem represents_start : start.Represents .start :=
  .base rfl rfl fun _ => rfl

section Observations

variable {outermost : Layer} {inner : List Layer} {marks : List Nat} {env : Environment}

theorem Shows.levelsBounded (h : Shows outermost inner marks env) : env.LevelsBounded := by
  induction h with
  | @base env hlevel _ hslot =>
    intro var slot hv
    rw [hslot var] at hv
    obtain ⟨v, _, rfl⟩ := Option.map_eq_some_iff.1 hv
    exact Nat.zero_le _
  | scope _ hover ih => exact hover.inside.levelsBounded ih

theorem Shows.level (h : Shows outermost inner marks env) : env.level = inner.length := by
  induction h with
  | base hlevel => exact hlevel
  | scope _ hover ih => rw [hover.inside.level, ih, List.length_cons]

theorem Shows.hiddenCount (h : Shows outermost inner marks env) :
    env.hiddenCount = (Layers.mk inner outermost).boundInside := by
  induction h with
  | base _ hshadowed => simp [Environment.hiddenCount, hshadowed, Layers.boundInside]
  | scope _ hover ih => simp [hover.hiddenCount, ih, Layers.boundInside]

theorem Shows.get? (h : Shows outermost inner marks env) (var : Variable) :
    env.get? var = (Layers.mk inner outermost).get? var := by
  induction h with
  | base _ _ hslot =>
    cases hv : outermost.lookup var <;>
      simp [Environment.get?, hslot var, Layers.get?, Layers.all, hv]
  | @scope layer inner marks outer env _ hover ih =>
    cases hv : layer.lookup var with
    | none =>
      have hslot : env.slot? var = outer.slot? var := by simp [hover.slot? var, hv]
      have hget : env.get? var = outer.get? var := congrArg (Option.map Slot.value) hslot
      rw [hget, ih]
      simp [Layers.get?, Layers.all, hv]
    | some v => simp [Environment.get?, hover.slot? var, Layers.get?, Layers.all, hv]

theorem Shows.distance? (h : Shows outermost inner marks env) (var : Variable) :
    env.distance? var = (Layers.mk inner outermost).distance? var := by
  induction h with
  | base hlevel _ hslot =>
    cases hv : outermost.lookup var <;>
      simp [Environment.distance?, hslot var, Layers.distance?, Layers.all, hlevel, hv]
  | @scope layer inner marks outer env houter hover ih =>
    cases hv : layer.lookup var with
    | none =>
      -- one more scope lies between the top and the binding
      have hdeeper : env.distance? var = (outer.distance? var).map (· + 1) := by
        have hslot : env.slot? var = outer.slot? var := by simp [hover.slot? var, hv]
        unfold Environment.distance?
        rw [hslot, hover.inside.level, Option.map_map]
        cases ho : outer.slot? var with
        | none => rfl
        | some slot =>
          have hle := houter.levelsBounded var slot ho
          simp only [Option.map_some, Function.comp_apply, Option.some.injEq]
          omega
      rw [hdeeper, ih]
      simp [Layers.distance?, Layers.all, List.findIdx?_cons, hv]
    | some v =>
      simp [Environment.distance?, hover.slot? var, Layers.distance?, Layers.all,
        List.findIdx?_cons, hv]

end Observations

theorem Represents.agrees {s : Scoped} {layers : Layers} (h : s.Represents layers) :
    s.Agrees layers :=
  ⟨Shows.get? h, Shows.distance? h, Shows.level h, Shows.hiddenCount h⟩

/-! ## Each use keeps the invariant -/

theorem lookup_insert (layer : Layer) (var other : Variable) (v : Value) :
    (layer.insert var v).lookup other = if var = other then some v else layer.lookup other := by
  by_cases he : var = other
  · subst he; simp
  · simp [he, Finmap.lookup_insert_of_ne layer (fun e => he e.symm)]

theorem keys_insert (layer : Layer) (var : Variable) (v : Value) :
    (layer.insert var v).keys = Insert.insert var layer.keys := by
  ext other
  simp [Finmap.mem_keys]

/-- Binding in a scope hides a slot unless the scope has bound the variable before. -/
theorem Overlays.set {layer : Layer} {outer env : Environment} (h : Overlays layer outer env)
    (hb : outer.LevelsBounded) (var : Variable) (v : Value) :
    Overlays (layer.insert var v) outer (env.set var v) := by
  refine ⟨h.inside.set (hb var) v, fun other => ?_, ?_⟩
  · rw [Environment.slot?_set, lookup_insert, Environment.level_set, h.slot? other]
    by_cases he : var = other <;> simp [he]
  · have hlevel := h.inside.level
    by_cases hm : var ∈ layer
    · have hhides : env.hides var = false := by
        obtain ⟨w, hw⟩ := Finmap.mem_iff.1 hm
        simp [Environment.hides, h.slot? var, hw]
      rw [keys_insert, Finset.insert_eq_of_mem (Finmap.mem_keys.2 hm), ← h.hiddenCount]
      simp [Environment.hiddenCount, Environment.set, hhides]
    · have hhides : env.hides var = true := by
        have hslot : env.slot? var = outer.slot? var := by
          simp [h.slot? var, Finmap.lookup_eq_none.2 hm]
        unfold Environment.hides
        rw [hslot, hlevel]
        cases ho : outer.slot? var with
        | none => simp
        | some slot =>
          have hle := hb var slot ho
          simp
          omega
      have hcount := h.hiddenCount
      rw [keys_insert, Finset.card_insert_of_notMem (fun hk => hm (Finmap.mem_keys.1 hk))]
      simp only [Environment.hiddenCount, Environment.set, hhides, if_true, List.length_cons]
        at hcount ⊢
      omega

/-- Binding at the outermost level hides nothing. -/
theorem Shows.set_base {outermost : Layer} {marks : List Nat} {env : Environment}
    (h : Shows outermost [] marks env) (var : Variable) (v : Value) :
    Shows (outermost.insert var v) [] marks (env.set var v) := by
  cases h with
  | base hlevel hshadowed hslot =>
    refine .base hlevel ?_ fun other => ?_
    · simp [Environment.set, Environment.hides, hlevel, hshadowed]
    · rw [Environment.slot?_set, lookup_insert, hslot other, hlevel]
      by_cases he : var = other <;> simp [he]

theorem Represents.bind {s : Scoped} {layers : Layers} (h : s.Represents layers) (var : Variable)
    (v : Value) : Represents { s with env := s.env.set var v } (layers.bind var v) := by
  obtain ⟨inner, outermost⟩ := layers
  cases inner with
  | nil => exact Shows.set_base h var v
  | cons layer inner =>
    obtain ⟨env, marks⟩ := s
    cases h with
    | scope houter hover => exact .scope houter (hover.set houter.levelsBounded var v)

theorem Represents.enter {s : Scoped} {layers : Layers} (h : s.Represents layers) :
    Represents ⟨s.env.enterScope.2, s.env.enterScope.1 :: s.marks⟩
      { layers with inner := ∅ :: layers.inner } := by
  refine .scope h ⟨Environment.inside_enterScope s.env, fun var => ?_, ?_⟩
  · rw [Finmap.lookup_empty]
    rfl
  · simp [Environment.hiddenCount, Environment.enterScope]

/-- What stands for a stack of maps still does when its table is ordered differently. -/
theorem Shows.same {outermost : Layer} {inner : List Layer} {marks : List Nat}
    {env other : Environment} (h : Shows outermost inner marks env) (hs : env.Same other) :
    Shows outermost inner marks other := by
  cases h with
  | base hlevel hshadowed hslot =>
    exact .base (hs.level ▸ hlevel) (hs.shadowed ▸ hshadowed) fun var => hs.slots var ▸ hslot var
  | scope houter hover =>
    refine .scope houter ⟨hover.inside.same_right hs, fun var => ?_, ?_⟩
    · rw [← hs.slots var, ← hs.level]
      exact hover.slot? var
    · rw [← hs.hiddenCount]
      exact hover.hiddenCount

/-- One use: both sides can do it or neither can, and the invariant holds again. -/
theorem Represents.step {s : Scoped} {layers : Layers} (h : s.Represents layers) (use : ScopeUse) :
    Option.Rel Represents (s.step use) (layers.step use) := by
  cases use with
  | enter => exact .some h.enter
  | bind var v => exact .some (h.bind var v)
  | leave =>
    obtain ⟨env, marks⟩ := s
    obtain ⟨inner, outermost⟩ := layers
    cases h with
    | base => exact .none
    | scope houter hover => exact .some (houter.same hover.inside.leaveScope.symm)

/-- Uses in order. -/
theorem Represents.run {s : Scoped} {layers : Layers} (h : s.Represents layers)
    (uses : List ScopeUse) : Option.Rel Represents (s.run uses) (layers.run uses) := by
  induction uses generalizing s layers with
  | nil => exact .some h
  | cons use rest ih =>
    unfold Scoped.run Layers.run
    rw [List.foldlM_cons, List.foldlM_cons]
    have hstep := h.step use
    generalize s.step use = after, layers.step use = layersAfter at hstep
    cases hstep with
    | none => exact .none
    | some h' => exact ih h'

/-! ## Leaving no trace -/

/-- Uses in which every scope that is entered is left again, and no other. -/
inductive Nested : List ScopeUse → Prop
  | nil : Nested []
  | bind {uses : List ScopeUse} (var : Variable) (value : Value) :
      Nested uses → Nested (.bind var value :: uses)
  | scope {inside uses : List ScopeUse} :
      Nested inside → Nested uses → Nested (.enter :: (inside ++ .leave :: uses))

/-- A scope in which bindings were made and all inner scopes were left: leaving it restores what was
there before it, and the uses that follow start from there. -/
theorem run_scope {s s' : Scoped} {inside : List ScopeUse} (hb : s.env.LevelsBounded)
    (hrun : Scoped.run ⟨s.env.enterScope.2, s.env.enterScope.1 :: s.marks⟩ inside = some s')
    (hmarks : s'.marks = s.env.enterScope.1 :: s.marks) (hgrows : s.env.enterScope.2.Grows s'.env) :
    ∃ env, env.Same s.env ∧ ∀ rest,
      s.run (.enter :: (inside ++ .leave :: rest)) = Scoped.run ⟨env, s.marks⟩ rest := by
  have hinside : s.env.Inside s'.env := (Environment.inside_enterScope s.env).grows hb hgrows
  refine ⟨s'.env.leaveScope s.env.hiddenCount, hinside.leaveScope, fun rest => ?_⟩
  have hleave : s'.step .leave = some ⟨s'.env.leaveScope s.env.hiddenCount, s.marks⟩ := by
    simp only [Scoped.step, hmarks]
    rfl
  calc s.run (.enter :: (inside ++ .leave :: rest))
      = (Scoped.run ⟨s.env.enterScope.2, s.env.enterScope.1 :: s.marks⟩ inside).bind
          fun s => s.run (.leave :: rest) := run_append _ inside (.leave :: rest)
    _ = s'.run (.leave :: rest) := by rw [hrun, Option.bind_some]
    _ = Scoped.run ⟨s'.env.leaveScope s.env.hiddenCount, s.marks⟩ rest := by
      unfold Scoped.run
      rw [List.foldlM_cons, hleave]
      rfl

/-- Nested uses only add bindings to the scope they are made in. -/
theorem Nested.grows {uses : List ScopeUse} (h : Nested uses) (s : Scoped)
    (hb : s.env.LevelsBounded) :
    ∃ s', s.run uses = some s' ∧ s'.marks = s.marks ∧ s.env.Grows s'.env := by
  induction h generalizing s with
  | nil => exact ⟨s, rfl, rfl, (Environment.Same.refl _).grows⟩
  | bind var value _ ih =>
    obtain ⟨s', hrun, hmarks, hgrows⟩ := ih { s with env := s.env.set var value } (hb.set var value)
    exact ⟨s', hrun, hmarks, (Environment.grows_setAll s.env [(var, value)]).trans hgrows⟩
  | @scope inside uses _ _ ihInside ihUses =>
    obtain ⟨s₁, hrun, hmarks, hgrows⟩ :=
      ihInside ⟨s.env.enterScope.2, s.env.enterScope.1 :: s.marks⟩ hb.enterScope
    obtain ⟨env, hsame, hrest⟩ := run_scope hb hrun hmarks hgrows
    obtain ⟨s₂, hrun₂, hmarks₂, hgrows₂⟩ := ihUses ⟨env, s.marks⟩ (hb.same hsame.symm)
    exact ⟨s₂, (hrest uses).trans hrun₂, hmarks₂, hsame.symm.grows.trans hgrows₂⟩

/-- A scope with nested uses in it leaves the environment as it was. -/
theorem Nested.restores {inside : List ScopeUse} (h : Nested inside) (s : Scoped)
    (hb : s.env.LevelsBounded) :
    ∃ s', s.run (.enter :: (inside ++ [.leave])) = some s' ∧ s'.marks = s.marks ∧
      s'.env.Same s.env := by
  obtain ⟨s₁, hrun, hmarks, hgrows⟩ :=
    h.grows ⟨s.env.enterScope.2, s.env.enterScope.1 :: s.marks⟩ hb.enterScope
  obtain ⟨env, hsame, hrest⟩ := run_scope hb hrun hmarks hgrows
  exact ⟨⟨env, s.marks⟩, hrest [], rfl, hsame⟩

/-- The same scopes are open, and there is the same to be seen of the variables. -/
structure Alike (s s' : Scoped) : Prop where
  marks : s'.marks = s.marks
  env : s'.env.Same s.env

/-- From the start, a scope with nested uses in it leaves everything as it was. -/
theorem Nested.restores_start {inside : List ScopeUse} (h : Nested inside)
    (before : List ScopeUse) :
    Option.Rel Alike (start.run before)
      (start.run (before ++ .enter :: (inside ++ [.leave]))) := by
  rw [run_append]
  have hbefore := represents_start.run before
  generalize start.run before = s, Layers.start.run before = layers at hbefore
  cases hbefore with
  | none => exact .none
  | @some s layers hs =>
    obtain ⟨s', hrun, hmarks, hsame⟩ := h.restores s (Shows.levelsBounded hs)
    rw [Option.bind_some, hrun]
    exact .some ⟨hmarks, hsame⟩

end Scoped

/-! ## Levels of 32 bits -/

/-- An environment with levels of 32 bits, with the marks of its open scopes, the innermost first. -/
structure WordScoped where
  env : WordEnvironment
  marks : List Nat

namespace WordScoped

/-- The empty environment, with no scope open. -/
def start : WordScoped := ⟨.empty, []⟩

/-- One use. A scope is left with the mark that entering it gave. -/
def step (s : WordScoped) : ScopeUse → Option WordScoped
  | .enter => some ⟨s.env.enterScope.2, s.env.enterScope.1 :: s.marks⟩
  | .bind var value => some { s with env := s.env.set var value }
  | .leave =>
    match s.marks with
    | [] => none
    | mark :: marks => some ⟨s.env.leaveScope mark, marks⟩

/-- Uses in order. -/
def run (s : WordScoped) (uses : List ScopeUse) : Option WordScoped := uses.foldlM step s

/-- Every observation of the environment is that of the stack of maps. -/
structure Agrees (s : WordScoped) (layers : Layers) : Prop where
  get? : ∀ var, s.env.get? var = layers.get? var
  distance? : ∀ var, (s.env.distance? var).map UInt32.toNat = layers.distance? var
  level : s.env.level.toNat = layers.inner.length
  hiddenCount : s.env.hiddenCount = layers.boundInside

/-- No observation tells the environments apart, and the same scopes are open. -/
structure Alike (s s' : WordScoped) : Prop where
  marks : s'.marks = s.marks
  level : s'.env.level = s.env.level
  hiddenCount : s'.env.hiddenCount = s.env.hiddenCount
  get? : ∀ var, s'.env.get? var = s.env.get? var
  distance? : ∀ var, s'.env.distance? var = s.env.distance? var

end WordScoped

namespace Scoped

/-- The environment with its levels cut down to 32 bits. -/
def toWord (s : Scoped) : WordScoped := ⟨s.env.toWord, s.marks⟩

variable {s s' : Scoped} {layers : Layers}

theorem Represents.agrees_toWord (h : s.Represents layers) (hfits : s.env.Fits) :
    s.toWord.Agrees layers where
  get? var := (Environment.get?_toWord s.env var).trans (h.agrees.get? var)
  distance? var := (hfits.distance? var).trans (h.agrees.distance? var)
  level := hfits.toNat_level.trans h.agrees.level
  hiddenCount := (Environment.hiddenCount_toWord s.env).trans h.agrees.hiddenCount

theorem Alike.toWord (h : s.Alike s') : s.toWord.Alike s'.toWord where
  marks := h.marks
  level := congrArg UInt32.ofNat h.env.level
  hiddenCount := by
    show s'.env.toWord.hiddenCount = s.env.toWord.hiddenCount
    rw [Environment.hiddenCount_toWord, Environment.hiddenCount_toWord, h.env.hiddenCount]
  get? var := by
    show s'.env.toWord.get? var = s.env.toWord.get? var
    rw [Environment.get?_toWord, Environment.get?_toWord, h.env.get? var]
  distance? var := by
    show (s'.env.toWord.slot? var).map _ = (s.env.toWord.slot? var).map _
    rw [Environment.slot?_toWord, Environment.slot?_toWord, h.env.slots var]
    show ((s.env.slot? var).map Slot.toWord).map (fun slot =>
      levelsAbove (.ofNat s'.env.level) slot.level) = _
    rw [h.env.level]
    rfl

/-- One use does the same with levels of 32 bits, if it does not open one scope too many. -/
theorem Represents.step_toWord (h : s.Represents layers) (hfits : s.env.Fits) (use : ScopeUse)
    (hroom : ∀ after ∈ layers.step use, after.inner.length < UInt32.size) :
    s.toWord.step use = (s.step use).map toWord ∧ ∀ s' ∈ s.step use, s'.env.Fits := by
  cases use with
  | enter =>
    refine ⟨?_, fun s' hs' => ?_⟩
    · show some (WordScoped.mk s.env.toWord.enterScope.2 (s.env.toWord.hiddenCount :: s.marks)) = _
      rw [← Environment.toWord_enterScope, Environment.hiddenCount_toWord]
      rfl
    · cases hs'
      refine hfits.enterScope ?_
      have hlevel : s.env.level = layers.inner.length := h.agrees.level
      rw [hlevel]
      exact hroom _ rfl
  | bind var v =>
    refine ⟨?_, fun s' hs' => ?_⟩
    · show some (WordScoped.mk (s.env.toWord.set var v) s.marks) = _
      rw [← hfits.toWord_set]
      rfl
    · cases hs'
      exact hfits.set var v
  | leave =>
    obtain ⟨env, marks⟩ := s
    cases marks with
    | nil => exact ⟨rfl, nofun⟩
    | cons mark marks =>
      refine ⟨?_, fun s' hs' => ?_⟩
      · show some (WordScoped.mk (env.toWord.leaveScope mark) marks) = _
        rw [← hfits.toWord_leaveScope]
        rfl
      · cases hs'
        exact hfits.leaveScope mark

/-- Uses in order do the same with levels of 32 bits, while there is room for the open scopes. -/
theorem Represents.run_toWord (h : s.Represents layers) (hfits : s.env.Fits)
    {uses : List ScopeUse} (hbelow : layers.StaysBelow UInt32.size uses) :
    s.toWord.run uses = (s.run uses).map toWord ∧ ∀ s' ∈ s.run uses, s'.env.Fits := by
  induction uses generalizing s layers with
  | nil =>
    refine ⟨rfl, fun s' hs' => ?_⟩
    cases hs'
    exact hfits
  | cons use rest ih =>
    have hroom : ∀ after ∈ layers.step use, after.inner.length < UInt32.size := by
      intro after hafter
      refine hbelow [use] (List.cons_prefix_cons.mpr ⟨rfl, List.nil_prefix⟩) after ?_
      unfold Layers.run
      rw [List.foldlM_cons, show layers.step use = some after from hafter]
      rfl
    obtain ⟨hword, hfits'⟩ := h.step_toWord hfits use hroom
    unfold WordScoped.run Scoped.run
    rw [List.foldlM_cons, List.foldlM_cons, hword]
    have hstep := h.step use
    generalize hs : s.step use = after at hstep hfits' ⊢
    generalize hl : layers.step use = layersAfter at hstep
    cases hstep with
    | none => exact ⟨rfl, nofun⟩
    | some h' => exact ih h' (hfits' _ rfl) (hbelow.after_step hl)

end Scoped

namespace WordScoped

open Scoped (Nested represents_start)

/-- The level counts the open scopes modulo 2^32. -/
theorem level_enters (s : WordScoped) (count : Nat) :
    (s.run (List.replicate count .enter)).map (·.env.level) =
      some (s.env.level + .ofNat count) := by
  induction count generalizing s with
  | zero => exact congrArg some (UInt32.add_zero s.env.level).symm
  | succ count ih =>
    show (WordScoped.run ⟨s.env.enterScope.2, _⟩ (List.replicate count .enter)).map _ = _
    rw [ih]
    show some (s.env.level + 1 + .ofNat count) = _
    rw [Nat.add_comm count 1, UInt32.ofNat_add, ← UInt32.add_assoc]
    rfl

/-- With one scope more than there is room for, the level is that of no open scope. -/
theorem level_wraps :
    (start.run (List.replicate UInt32.size .enter)).map (·.env.level) = some 0 :=
  level_enters start UInt32.size

end WordScoped

end ReactiveScript
