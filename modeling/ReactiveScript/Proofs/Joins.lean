import Mathlib.Data.List.Nodup
import ReactiveScript.Proofs.Origin
import ReactiveScript.Proofs.PassFrame
import ReactiveScript.Proofs.Paths

/-
  What a join keeps.

  A path that waits brings along the variables that were bound in the scope of the pass
  (`walkInstr_leaves`). Where it is joined, each of them may afterwards be its value on either path
  (`mergeBindings_mayBe`); every other variable keeps the value of the path that arrived. So a join
  covers the path that arrived, and covers the one that waited except for a variable that had a value
  before the pass and was rebound only on the path that arrived (`join_covers`).
-/

namespace ReactiveScript

/-! ## Values that may be others -/

/-- A value of a pass may be another one: it is that value, a stand-in of the same node, or a union
with a side that may be it. Any value may be nil, and may be what equals a value that it may be. -/
inductive MayBe : Value → Value → Prop
  | same {v : Value} : MayBe v v
  | standIn {id other : Ident} {node : Node} :
    MayBe (.object id (.placeholder node)) (.object other (.placeholder node))
  | left {id : Ident} {a b v : Value} : MayBe a v → MayBe (.object id (.union a b)) v
  | right {id : Ident} {a b v : Value} : MayBe b v → MayBe (.object id (.union a b)) v
  | nil {v : Value} : MayBe v .nil
  | equal {a b v : Value} : a.equal b = true → MayBe v b → MayBe v a

theorem eq_nil_of_isNil {v : Value} (h : v.isNil = true) : v = .nil := by
  cases v <;> first | rfl | cases h

/-- Nil may only be nil. -/
theorem eq_nil_of_mayBe {c v : Value} (h : MayBe c v) (hc : c = .nil) : v = .nil := by
  induction h with
  | same => exact hc
  | standIn | left | right => cases hc
  | nil => rfl
  | @equal a b v hequal _ ih =>
    have hb := ih hc
    subst hb
    cases a <;> first | rfl | cases hequal

/-- What may be either of two values may be both. -/
theorem either_mayBe (a b : Value) (st : Store) :
    MayBe (either a b st).1 a ∧ MayBe (either a b st).1 b := by
  unfold either
  by_cases h : (a.isNil || a.equal b) = true
  · simp only [if_pos h]
    refine ⟨?_, .same⟩
    rcases Bool.or_eq_true_iff.1 h with hnil | hequal
    · rw [eq_nil_of_isNil hnil]
      exact .nil
    · exact .equal hequal .same
  · simp only [if_neg h]
    by_cases hb : b.isNil = true
    · simp only [if_pos hb]
      refine ⟨.same, ?_⟩
      rw [eq_nil_of_isNil hb]
      exact .nil
    · simp only [if_neg hb]
      exact ⟨.left .same, .right .same⟩

namespace Environment

/-! ## Bound in the scope of a pass -/

variable {outer env : Environment}

/-- No variable was hidden twice since a scope was entered in `outer`. -/
def HidesOnce (outer env : Environment) : Prop :=
  (Assoc.keys (env.reboundSince outer.hiddenCount)).Nodup

theorem keys_reboundSince (env : Environment) (mark : Nat) :
    Assoc.keys (env.reboundSince mark) =
      (Assoc.keys (env.shadowed.take (env.hiddenCount - mark))).reverse := by
  unfold reboundSince Assoc.keys
  rw [List.map_map, ← List.map_reverse]
  rfl

theorem HidesOnce.same {other : Environment} (h : HidesOnce outer env) (hs : env.Same other) :
    HidesOnce outer other := by
  unfold HidesOnce at h ⊢
  rw [keys_reboundSince] at h ⊢
  rw [← hs.shadowed, ← hs.hiddenCount]
  exact h

/-- Nothing has been hidden yet. -/
theorem hidesOnce_of_shadowed (h : env.shadowed = outer.shadowed) : HidesOnce outer env := by
  unfold HidesOnce
  rw [keys_reboundSince]
  unfold hiddenCount
  rw [h, Nat.sub_self]
  exact List.nodup_nil

/-- What a scope hid are the variables bound in it. -/
theorem Inside.mem_keys_reboundSince (h : Inside outer env) (hb : outer.LevelsBounded)
    {var : Variable} :
    var ∈ Assoc.keys (env.reboundSince outer.hiddenCount) ↔ env.distance? var = some 0 := by
  obtain ⟨hl, hidden, hh⟩ := h
  have hkeys : Assoc.keys (env.reboundSince outer.hiddenCount) = (Assoc.keys hidden).reverse := by
    rw [hh.reboundSince]
    unfold Assoc.keys
    rw [List.map_map, ← List.map_reverse]
    rfl
  rw [hkeys, List.mem_reverse]
  unfold distance?
  constructor
  · intro hmem
    obtain ⟨v, hv⟩ := hh.bound var hmem
    rw [hv]
    exact congrArg some (Nat.sub_self _)
  · intro hzero
    obtain ⟨slot, hslot, hlevel⟩ := Option.map_eq_some_iff.1 hzero
    by_contra hmem
    -- else the slot would be that of the outer scope
    have hle : slot.level ≤ outer.level := hb var slot ((hh.kept var hmem).symm.trans hslot)
    omega

/-- A variable that is not bound in a scope has the value it had outside. -/
theorem Inside.get?_eq (h : Inside outer env) (hb : outer.LevelsBounded) {var : Variable}
    (hd : env.distance? var ≠ some 0) : env.get? var = outer.get? var := by
  by_contra hne
  exact hd ((h.mem_keys_reboundSince hb).1 (List.mem_map_of_mem (h.reboundSince.2 var hne)))

theorem HidesOnce.set (h : HidesOnce outer env) (hin : Inside outer env) (hb : outer.LevelsBounded)
    (var : Variable) (v : Value) : HidesOnce outer (env.set var v) := by
  have hcount : outer.hiddenCount ≤ env.hiddenCount := by
    obtain ⟨_, hidden, hh⟩ := hin
    unfold hiddenCount
    rw [hh.shadowed, List.length_append]
    omega
  by_cases hhides : env.hides var = true
  · -- a variable that is hidden now was not bound in the scope
    have hnew : var ∉ Assoc.keys (env.reboundSince outer.hiddenCount) := by
      intro hmem
      have hzero := (hin.mem_keys_reboundSince hb).1 hmem
      obtain ⟨slot, hslot, hlevel⟩ := Option.map_eq_some_iff.1 hzero
      unfold hides at hhides
      simp only [hslot, Bool.and_eq_true, decide_eq_true_eq] at hhides
      omega
    have hshadowed : (env.set var v).shadowed = (var, env.slot? var) :: env.shadowed := if_pos hhides
    unfold HidesOnce at h ⊢
    rw [keys_reboundSince] at h hnew ⊢
    have htake : (env.set var v).shadowed.take ((env.set var v).hiddenCount - outer.hiddenCount) =
        (var, env.slot? var) :: env.shadowed.take (env.hiddenCount - outer.hiddenCount) := by
      have hsub : (env.set var v).hiddenCount - outer.hiddenCount =
          env.hiddenCount - outer.hiddenCount + 1 := by
        have hlen : (env.set var v).hiddenCount = env.hiddenCount + 1 := by
          unfold hiddenCount
          rw [hshadowed, List.length_cons]
        omega
      rw [hsub, hshadowed, List.take_succ_cons]
    rw [htake, Assoc.keys_cons, List.nodup_reverse]
    rw [List.nodup_reverse] at h
    rw [List.mem_reverse] at hnew
    exact List.nodup_cons.2 ⟨hnew, h⟩
  · have hshadowed : (env.set var v).shadowed = env.shadowed := if_neg hhides
    unfold HidesOnce at h ⊢
    rw [keys_reboundSince] at h ⊢
    unfold hiddenCount at h ⊢
    rw [hshadowed]
    exact h

/-- `env` is inside a scope that was entered in `outer` and has hidden no variable twice. -/
structure Within (outer env : Environment) : Prop where
  inside : Inside outer env
  once : HidesOnce outer env

theorem within_enterScope (env : Environment) : Within env env.enterScope.2 :=
  ⟨inside_enterScope env, hidesOnce_of_shadowed rfl⟩

theorem Within.setAll (h : Within outer env) (hb : outer.LevelsBounded) (bindings : Bindings) :
    Within outer (env.setAll bindings) := by
  induction bindings generalizing env with
  | nil => exact h
  | cons b rest ih => exact ih ⟨h.inside.set (hb b.1) b.2, h.once.set h.inside hb b.1 b.2⟩

theorem Within.grows {other : Environment} (h : Within outer env) (hb : outer.LevelsBounded)
    (hg : env.Grows other) : Within outer other := by
  obtain ⟨bindings, hs⟩ := hg
  have hset := h.setAll hb bindings
  exact ⟨hset.inside.same_right hs.symm, hset.once.same hs.symm⟩

theorem Within.unwindTo (h : Within outer env) : Within outer (env.unwindTo outer.hiddenCount) :=
  ⟨h.inside.unwindTo, hidesOnce_of_shadowed (h.inside.slot?_unwindTo ⟨0⟩).2⟩

end Environment

namespace Run

/-! ## Joining variables -/

variable {dep : Dependency} {r : Region} {wk : Walk}

/-- Joining variables, each given once: one that is joined may be either of its values, any other
stays as it is. -/
theorem mergeBindings_mayBe {bindings : Bindings} (hn : (Assoc.keys bindings).Nodup) (m : Machine) :
    ∃ m', mergeBindings bindings m = (.ok (), m') ∧
      (∀ var ∉ Assoc.keys bindings, m'.context.env.get? var = m.context.env.get? var) ∧
      ∀ var b, (var, b) ∈ bindings → ∃ c, m'.context.env.get? var = some c ∧ MayBe c b ∧
        ∀ a, m.context.env.get? var = some a → MayBe c a := by
  induction bindings generalizing m with
  | nil => exact ⟨m, rfl, fun _ _ => rfl, fun _ _ h => by cases h⟩
  | cons entry rest ih =>
    obtain ⟨x, other⟩ := entry
    obtain ⟨hx, hrest⟩ := List.nodup_cons.1 hn
    -- first `x` is bound to what may be both of its values
    obtain ⟨joined, m₁, hrun, henv, hother, hcurrent⟩ : ∃ joined m₁,
        mergeBindings ((x, other) :: rest) m = mergeBindings rest m₁ ∧
        m₁.context.env = m.context.env.set x joined ∧ MayBe joined other ∧
        ∀ a, m.context.env.get? x = some a → MayBe joined a := by
      conv in mergeBindings (_ :: _) => unfold mergeBindings
      rw [run_bind_ok (run_context m)]
      cases hget : m.context.env.get? x with
      | none =>
        exact ⟨other, (bindVariable x other m).2, run_bind_ok rfl, rfl, .same,
          fun a ha => by cases ha⟩
      | some current =>
        obtain ⟨ha, hb⟩ := either_mayBe current other m.store
        refine ⟨(either current other m.store).1, (bindVariable x (either current other m.store).1
          { m with store := (either current other m.store).2 }).2, ?_, rfl, hb, fun a hsome => ?_⟩
        · exact (run_bind_ok (run_store _ m)).trans (run_bind_ok rfl)
        · cases hsome
          exact ha
    obtain ⟨m', hmerge, hkept, hjoined⟩ := ih hrest m₁
    refine ⟨m', hrun.trans hmerge, fun var hvar => ?_, fun var b hmem => ?_⟩
    · rw [Assoc.keys_cons, List.mem_cons, not_or] at hvar
      rw [hkept var hvar.2, henv, Environment.get?_set, if_neg fun he => hvar.1 he.symm]
    · rcases List.mem_cons.1 hmem with he | hmem
      · cases he
        refine ⟨joined, ?_, hother, hcurrent⟩
        rw [hkept x hx, henv, Environment.get?_set, if_pos rfl]
      · have hne : x ≠ var := by
          rintro rfl
          exact hx (List.mem_map.2 ⟨_, hmem, rfl⟩)
        obtain ⟨c, hc, hb, ha⟩ := hjoined var b hmem
        refine ⟨c, hc, hb, fun a hget => ha a ?_⟩
        rw [henv, Environment.get?_set, if_neg hne]
        exact hget

/-- A join never fails. -/
theorem mergePath_mayBe {path : WaitingPath} (hn : (Assoc.keys path.bindings).Nodup) (m : Machine) :
    ∃ m', mergePath r path m = (.ok (), m') ∧ m'.context.registry = m.context.registry ∧
      (∀ var ∉ Assoc.keys path.bindings, m'.context.env.get? var = m.context.env.get? var) ∧
      ∀ var b, (var, some b) ∈ path.bindings → ∃ c, m'.context.env.get? var = some c ∧ MayBe c b ∧
        ∀ a, m.context.env.get? var = some a → MayBe c a := by
  have hbound : (Assoc.keys (boundOnly path.bindings)).Nodup := by
    have hsub : (Assoc.keys (boundOnly path.bindings)).Sublist (Assoc.keys path.bindings) := by
      unfold Assoc.keys boundOnly
      induction path.bindings with
      | nil => exact List.Sublist.refl _
      | cons b rest ih =>
        obtain ⟨var, v⟩ := b
        cases v with
        | none => exact ih.cons var
        | some v => exact ih.cons_cons var
    exact hn.sublist hsub
  have hstart : mergePath r path m = mergeBindings (boundOnly path.bindings)
      (setFrame r.base (eitherFrames
        (m.context.stack.take (m.context.stack.length - r.base)).reverse path.frame.reverse
        m.store).1.reverse { m with store := (eitherFrames
          (m.context.stack.take (m.context.stack.length - r.base)).reverse path.frame.reverse
          m.store).2 }).2 := rfl
  obtain ⟨m', hmerge, hkept, hjoined⟩ := mergeBindings_mayBe hbound _
  have hrun := hstart.trans hmerge
  refine ⟨m', hrun, ?_, fun var hvar => hkept var fun h => hvar (keys_boundOnly h),
    fun var b hmem => hjoined var b (mem_boundOnly.2 hmem)⟩
  have hkeeps : Keeps Context.registry (mergePath r path) := keeps_mergePath path
  have hregistry := hkeeps m
  rw [hrun] at hregistry
  exact hregistry

/-! ## Paths that are left -/

/-- If `x` gives a walk, what waits is what waited, or besides a path with the variables that were
bound since the mark. -/
def LeavesOne (r : Region) (wk : Walk) (x : Run Walk) : Prop :=
  ∀ m wk' m', x m = (.ok wk', m') → wk'.pending = wk.pending ∨
    ∃ path, wk'.pending = wk.pending ++ [path] ∧
      path.bindings = m.context.env.reboundSince r.mark

theorem Gives.leavesOne {x : Run Walk} (h : Gives (fun wk' => wk'.pending = wk.pending) x) :
    LeavesOne r wk x := fun m wk' m' hx => .inl (h m wk' m' hx)

/-- What is done before changes no variables. -/
theorem LeavesOne.after {α : Type} {x : Run α} {f : α → Run Walk}
    (hx : ∀ m, (x m).2.context.env = m.context.env) (hf : ∀ a, LeavesOne r wk (f a)) :
    LeavesOne r wk (x >>= f) := by
  intro m wk' m' h
  obtain ⟨a, m₁, h₁, h₂⟩ := run_bind_eq_ok h
  have henv := hx m
  rw [h₁] at henv
  rw [← henv]
  exact hf a m₁ wk' m' h₂

/-- What is done afterwards leaves no path. -/
theorem LeavesOne.before {x : Run Walk} {f : Walk → Run Walk} (hx : LeavesOne r wk x)
    (hf : ∀ wk₁, Gives (fun wk' => wk'.pending = wk₁.pending) (f wk₁)) :
    LeavesOne r wk (x >>= f) := by
  intro m wk' m' h
  obtain ⟨wk₁, m₁, h₁, h₂⟩ := run_bind_eq_ok h
  rw [hf wk₁ m₁ wk' m' h₂]
  exact hx m wk₁ m₁ h₁

/-- The path that is put aside waits. -/
theorem leavesOne_suspendPath (target : Nat) {f : WaitingPath → Run Walk}
    (hf : ∀ path, Gives (fun wk' => ∃ exit, wk'.pending = wk.pending ++ [exit] ∧
      exit.bindings = path.bindings) (f path)) :
    LeavesOne r wk (suspendPath r target >>= f) := by
  intro m wk' m' h
  rw [run_bind_ok (suspendPath_eq r target m)] at h
  exact .inr (hf _ m wk' m' h)

theorem env_ofExcept {α : Type} (result : Except EvalError α) (m : Machine) :
    (ofExcept result m).2.context.env = m.context.env := by
  cases result <;> rfl

theorem env_takeOrNil (base : Nat) (m : Machine) :
    (takeOrNil base m).2.context.env = m.context.env := by
  obtain ⟨v, stack, hrun, -⟩ := takeOrNil_eq base m
  rw [hrun]
  rfl

theorem leavesOne_walkBranch (target : Nat) : LeavesOne r wk (walkBranch r wk target) :=
  walkBranch_cases
    (fun _ => leavesOne_suspendPath target fun path => gives_pure ⟨path, rfl, rfl⟩)
    (fun _ _ => Gives.leavesOne (gives_pure rfl))
    fun _ _ => leavesOne_suspendPath target fun path => gives_pure ⟨path, rfl, rfl⟩

variable {s : Script Value} {analyse : Analyser}

theorem leavesOne_walkJump (n : Nat) : LeavesOne r wk (walkJump s r wk n) := by
  refine LeavesOne.after (env_ofExcept _) fun target => ?_
  by_cases h : target > wk.pos
  · simp only [if_pos h]
    exact leavesOne_suspendPath target fun path => gives_pure ⟨path, rfl, rfl⟩
  · simp only [if_neg h]
    refine Gives.leavesOne ?_
    by_cases hback : wk.backEdges.contains wk.pos = true
    · simp only [if_pos hback]
      exact gives_pure rfl
    · simp only [if_neg hback]
      exact Gives.bind _ fun _ => gives_pure rfl

theorem leavesOne_walkLoop (n : Nat) (withKey : Bool) :
    LeavesOne r wk (walkLoop s r wk n withKey) := by
  refine LeavesOne.after (env_ofExcept _) fun target => leavesOne_suspendPath target fun path => ?_
  by_cases h : wk.enteredLoops.contains wk.pos = true
  · simp only [if_pos h]
    exact Gives.bind _ fun _ => gives_pure ⟨_, rfl, rfl⟩
  · simp only [if_neg h]
    refine Gives.bind _ fun entry => ?_
    cases withKey with
    | false => exact Gives.bind _ fun _ => gives_pure ⟨_, rfl, rfl⟩
    | true => exact Gives.bind _ fun _ => Gives.bind _ fun _ => gives_pure ⟨_, rfl, rfl⟩

/-- An instruction leaves at most one path, with the variables bound since the mark. -/
theorem walkInstr_leaves (i : Instruction) : LeavesOne r wk (walkInstr analyse dep s r wk i) := by
  rcases i with ⟨op, n, hn⟩
  cases op with
  | nop => exact Gives.leavesOne (gives_pure rfl)
  | pushConst | dup | getVar | setVar | ternary | quaternary =>
    exact Gives.leavesOne (Gives.bind _ fun _ => Gives.bind _ fun _ => gives_pure rfl)
  | pop => exact Gives.leavesOne (Gives.bind _ fun _ => gives_pure rfl)
  | jump => exact leavesOne_walkJump n
  | jumpIfNot =>
    refine LeavesOne.after (env_ofExcept _) fun target => ?_
    refine LeavesOne.after (env_takeOrNil _) fun _ => ?_
    exact (leavesOne_walkBranch target).before fun _ => gives_pure rfl
  | jumpScAnd | jumpScOr =>
    refine LeavesOne.after (env_ofExcept _) fun target => ?_
    exact (leavesOne_walkBranch target).before fun _ => Gives.bind _ fun _ => gives_pure rfl
  | loop => exact leavesOne_walkLoop n false
  | loopWithKey => exact leavesOne_walkLoop n true
  | ret => exact Gives.leavesOne (Gives.bind _ fun _ => Gives.bind _ fun _ => gives_pure rfl)
  | makeObject =>
    exact Gives.leavesOne (Gives.bind _ fun _ => Gives.bind _ fun _ => Gives.bind _ fun _ =>
      gives_pure rfl)
  | memberC | unary =>
    exact Gives.leavesOne (Gives.bind _ fun _ => Gives.bind _ fun _ => Gives.bind _ fun _ =>
      Gives.bind _ fun _ => gives_pure rfl)
  | call | closure | tailCall | binary =>
    exact Gives.leavesOne (Gives.bind _ fun _ => Gives.bind _ fun _ => Gives.bind _ fun _ =>
      Gives.bind _ fun _ => Gives.bind _ fun _ => gives_pure rfl)

/-! ## What a pass goes through -/

/-- The states a pass over a script goes through: its start, and what is made of a state by following
the next path, by joining a path that waits at the current position, and by an instruction or the end
of the code. -/
inductive PassAt (analyse : Analyser) (dep : Dependency) (s : Script Value) (args : Bindings)
    (m₀ : Machine) : Walk → Machine → Prop
  | start : PassAt analyse dep s args m₀ .start (passStart s args m₀)
  | resumed {wk wk' : Walk} {m m' : Machine} : PassAt analyse dep s args m₀ wk m →
    resume (passRegion m₀) wk m = (.ok (some wk'), m') → PassAt analyse dep s args m₀ wk' m'
  | joined {wk : Walk} {m m' : Machine} {path : WaitingPath} {rest : List WaitingPath} :
    PassAt analyse dep s args m₀ wk m → wk.pending.Perm (path :: rest) →
    path.target = wk.pos → mergePath (passRegion m₀) path m = (.ok (), m') →
    PassAt analyse dep s args m₀ { wk with pending := rest } m'
  | moved {wk wk' : Walk} {m m' : Machine} {i : Instruction} :
    PassAt analyse dep s args m₀ wk m → s.code[wk.pos]? = some i →
    walkInstr analyse dep s (passRegion m₀) wk i m = (.ok wk', m') →
    PassAt analyse dep s args m₀ wk' m'
  | ended {wk wk' : Walk} {m m' : Machine} : PassAt analyse dep s args m₀ wk m →
    s.code[wk.pos]? = none → returnTop (passRegion m₀) wk m = (.ok wk', m') →
    PassAt analyse dep s args m₀ wk' m'

variable {args : Bindings} {m₀ m : Machine}

/-- Every step of a pass leads from one of its states to another. -/
theorem PassAt.step {wk' : Walk} {m' : Machine} (h : PassAt analyse dep s args m₀ wk m)
    (hstep : walkStep analyse dep s (passRegion m₀) wk m = (.ok (some wk'), m')) :
    PassAt analyse dep s args m₀ wk' m' := by
  rcases walkStep_cases hstep with ⟨hnone, -⟩ | ⟨wk₁, m₁, wk₂, m₂, wk₃, h₁, h₂, he, h₃⟩
  · cases hnone
  · cases he
    have hjoined := (mergeWaiting_keeps (Q := PassAt analyse dep s args m₀)
      (fun _ _ _ _ _ hperm htarget hmerge hstate => hstate.joined hperm htarget hmerge)
      wk₁.pending.length (h.resumed h₁) h₂).1
    cases hi : s.code[wk₂.pos]? with
    | some i =>
      rw [hi] at h₃
      exact hjoined.moved hi h₃
    | none =>
      rw [hi] at h₃
      exact hjoined.ended hi h₃

/-- A pass that ends went through its states until nothing was left to follow. -/
theorem PassAt.run {budget : Nat} {v : Value} {m' : Machine}
    (h : PassAt analyse dep s args m₀ wk m)
    (hrun : walkFrom analyse dep s (passRegion m₀) budget wk m = (.ok v, m')) :
    ∃ wk', PassAt analyse dep s args m₀ wk' m' ∧ wk'.live = false ∧ wk'.pending = [] ∧
      wk'.result = v := by
  induction budget generalizing wk m with
  | zero => cases hrun
  | succ budget ih =>
    unfold walkFrom at hrun
    obtain ⟨next, m₁, hstep, hrest⟩ := run_bind_eq_ok hrun
    cases next with
    | none =>
      rcases walkStep_cases hstep with ⟨-, hsame, hlive, hpending⟩ | ⟨_, _, _, _, _, -, -, he, -⟩
      · cases hrest
        exact ⟨wk, hsame ▸ h, hlive, hpending, rfl⟩
      · cases he
    | some wk₁ => exact ih (h.step hstep) hrest

/-- Throughout a pass the registry is that of its start, and the variables are within its scope. -/
structure Ongoing (m₀ m : Machine) : Prop where
  registry : m.context.registry = m₀.context.registry
  within : m₀.context.env.Within m.context.env

theorem Ongoing.grows (h : Ongoing m₀ m) (hb : m₀.context.env.LevelsBounded) {α : Type} {x : Run α}
    {base : Nat} {a : α} {m' : Machine} (hframe : Upholds (ExtendsFrame base) anyValue x)
    (hregistry : Keeps Context.registry x) (hx : x m = (.ok a, m')) : Ongoing m₀ m' := by
  have hlevels : m.context.env.LevelsBounded := h.within.inside.levelsBounded hb
  have hgrows := (hframe.of_ok hx).1.env.grows hlevels
  have hsame := hregistry m
  rw [hx] at hsame
  exact ⟨hsame.trans h.registry, h.within.grows hb hgrows⟩

theorem PassAt.ongoing {budget : Nat} (hb : m₀.context.env.LevelsBounded)
    (h : PassAt (analyseFor dep budget) dep s args m₀ wk m) : Ongoing m₀ m := by
  induction h with
  | start => exact ⟨rfl, (Environment.within_enterScope _).setAll hb args⟩
  | @resumed wk wk' m m' _ hr ih =>
    rcases resume_cases (passRegion m₀) wk m with ⟨-, he⟩ | ⟨-, -, he⟩ | ⟨-, path, rest, -, -, he⟩
    · rw [hr] at he
      cases he
      exact ih
    · rw [hr] at he
      cases he
    · rw [hr] at he
      cases he
      exact ⟨ih.registry, ih.within.unwindTo.setAll hb _⟩
  | joined _ _ _ hmerge ih =>
    exact ih.grows hb (extendsFrame_mergePath _) (keeps_mergePath _) hmerge
  | moved _ _ hrun ih =>
    exact ih.grows hb (extendsFrame_walkInstr (fun f args => analyseFor_neutral budget f args) _)
      (keeps_walkInstr (fun f args => keeps_analyseFor budget f args) _) hrun
  | ended _ _ hrun ih => exact ih.grows hb extendsFrame_returnTop keeps_returnTop hrun

/-- In this state an instruction leaves the path for later. -/
def Leaves (analyse : Analyser) (dep : Dependency) (s : Script Value) (r : Region) (wk : Walk)
    (m : Machine) (path : WaitingPath) : Prop :=
  ∃ i wk' m', s.code[wk.pos]? = some i ∧ walkInstr analyse dep s r wk i m = (.ok wk', m') ∧
    wk'.pending = wk.pending ++ [path]

theorem Leaves.bindings {path : WaitingPath} (h : Leaves analyse dep s r wk m path) :
    path.bindings = m.context.env.reboundSince r.mark := by
  obtain ⟨i, wk', m', -, hrun, hpending⟩ := h
  rcases walkInstr_leaves i m wk' m' hrun with hsame | ⟨path', hpending', hbindings⟩
  · rw [hsame] at hpending
    have hlength := congrArg List.length hpending
    rw [List.length_append, List.length_singleton] at hlength
    omega
  · rw [hpending] at hpending'
    cases List.append_cancel_left hpending'
    exact hbindings

/-- Every path that waits was left in some state of the pass. -/
theorem PassAt.left (h : PassAt analyse dep s args m₀ wk m) : ∀ path ∈ wk.pending,
    ∃ wk₁ m₁, PassAt analyse dep s args m₀ wk₁ m₁ ∧
      Leaves analyse dep s (passRegion m₀) wk₁ m₁ path := by
  induction h with
  | start => exact fun path hp => by cases hp
  | @resumed wk wk' m m' _ hr ih =>
    rcases resume_cases (passRegion m₀) wk m with ⟨-, he⟩ | ⟨-, -, he⟩ | ⟨-, path, rest, hperm, -, he⟩
    · rw [hr] at he
      cases he
      exact ih
    · rw [hr] at he
      cases he
    · rw [hr] at he
      cases he
      exact fun other hp => ih other (hperm.mem_iff.2 (List.mem_cons_of_mem _ hp))
  | joined _ hperm _ _ ih =>
    exact fun other hp => ih other (hperm.mem_iff.2 (List.mem_cons_of_mem _ hp))
  | @moved wk wk' m m' i hstate hi hrun ih =>
    intro path hp
    rcases walkInstr_leaves i m wk' m' hrun with hsame | ⟨last, hpending, -⟩
    · exact ih path (hsame ▸ hp)
    · rw [hpending] at hp
      rcases List.mem_append.1 hp with hp | hp
      · exact ih path hp
      · cases List.mem_singleton.1 hp
        exact ⟨wk, m, hstate, i, wk', m', hi, hrun, hpending⟩
  | @ended wk wk' m m' _ _ hrun ih =>
    have hpending : wk'.pending = wk.pending :=
      (Gives.bind _ fun _ => Gives.bind _ fun _ => gives_pure rfl :
        Gives (fun wk' => wk'.pending = wk.pending) (returnTop (passRegion m₀) wk)) m wk' m' hrun
    exact fun path hp => ih path (hpending ▸ hp)

/-! ## Joins -/

/-- What a pass gets where it reads a variable. -/
def ReadAs (dep : Dependency) (m : Machine) (var : Variable) (v : Value) : Prop :=
  ∃ m', variableInPass var dep m = (.ok v, m')

/-- A registered variable is read as a stand-in of its node. -/
theorem ReadAs.registered {var : Variable} {v : Value} {node : Node} (h : ReadAs dep m var v)
    (hnode : m.context.registry.lookup? var = some node) :
    ∃ id, v = .object id (.placeholder node) := by
  obtain ⟨m', hrun⟩ := h
  unfold variableInPass at hrun
  rw [run_bind_ok (run_context m), hnode] at hrun
  cases hrun
  exact ⟨_, rfl⟩

/-- Any other variable is read as the value it has. -/
theorem ReadAs.unregistered {var : Variable} {v : Value} (h : ReadAs dep m var v)
    (hnode : m.context.registry.lookup? var = none) : v = (m.context.env.get? var).getD .nil := by
  obtain ⟨m', hrun⟩ := h
  unfold variableInPass at hrun
  rw [run_bind_ok (run_context m), hnode] at hrun
  cases hrun
  rfl

/-- A path that waits was left in some state of the pass, and joining it succeeds. Reading a variable
then gives what may be its value on the path that arrived. It may also be its value on the path that
waited, exactly if the variable is registered, was bound on that path in the scope of the pass, or had
on the path that arrived a value that may be the other one already. So it may be unless the variable
had a value before the pass and was rebound on the path that arrived. -/
theorem join_covers {budget : Nat} (hb : m₀.context.env.LevelsBounded)
    (h : PassAt (analyseFor dep budget) dep s args m₀ wk m) :
    ∀ path ∈ wk.pending,
      (∃ wk₁ m₁, PassAt (analyseFor dep budget) dep s args m₀ wk₁ m₁ ∧
        Leaves (analyseFor dep budget) dep s (passRegion m₀) wk₁ m₁ path) ∧
      ∃ m', mergePath (passRegion m₀) path m = (.ok (), m') ∧
        ∀ wk₁ m₁, PassAt (analyseFor dep budget) dep s args m₀ wk₁ m₁ →
          Leaves (analyseFor dep budget) dep s (passRegion m₀) wk₁ m₁ path →
          ∀ var a b c, ReadAs dep m var a → ReadAs dep m₁ var b → ReadAs dep m' var c →
            MayBe c a ∧
            (MayBe c b ↔ (m₀.context.registry.lookup? var).isSome ∨
              m₁.context.env.distance? var = some 0 ∨ MayBe a b) ∧
            (m₀.context.env.get? var = none ∨ m.context.env.distance? var ≠ some 0 →
              MayBe c b) := by
  intro path hpath
  obtain ⟨wk₀, m₂, hstate, hleaves⟩ := h.left path hpath
  have honce : (Assoc.keys path.bindings).Nodup := by
    rw [hleaves.bindings]
    exact (hstate.ongoing hb).within.once
  obtain ⟨m', hmerge, hregistry, hkept, hjoined⟩ := mergePath_mayBe (r := passRegion m₀) honce m
  refine ⟨⟨wk₀, m₂, hstate, hleaves⟩, m', hmerge, fun wk₁ m₁ h₁ hl₁ var a b c ha hr hc => ?_⟩
  have hm := h.ongoing hb
  have hm₁ := h₁.ongoing hb
  cases hnode : m₀.context.registry.lookup? var with
  | some node =>
    obtain ⟨ida, rfl⟩ := ha.registered (hm.registry.symm ▸ hnode)
    obtain ⟨idb, rfl⟩ := hr.registered (hm₁.registry.symm ▸ hnode)
    obtain ⟨idc, rfl⟩ := hc.registered ((hregistry.trans hm.registry).symm ▸ hnode)
    exact ⟨.standIn, iff_of_true .standIn (.inl rfl), fun _ => .standIn⟩
  | none =>
    have ha' := ha.unregistered (hm.registry.symm ▸ hnode)
    have hb' := hr.unregistered (hm₁.registry.symm ▸ hnode)
    have hc' := hc.unregistered ((hregistry.trans hm.registry).symm ▸ hnode)
    have hkeys : var ∈ Assoc.keys (m₁.context.env.reboundSince m₀.context.env.hiddenCount) ↔ _ :=
      hm₁.within.inside.mem_keys_reboundSince hb
    by_cases hd : m₁.context.env.distance? var = some 0
    · -- bound on the path that waited: joined with what the other path has
      obtain ⟨u, hu⟩ : ∃ u, m₁.context.env.get? var = some u := by
        obtain ⟨slot, hslot, -⟩ := Option.map_eq_some_iff.1 hd
        exact ⟨slot.value, congrArg (Option.map Slot.value) hslot⟩
      have hmem : (var, some u) ∈ path.bindings := by
        obtain ⟨entry, hentry, he⟩ := List.mem_map.1 (hkeys.2 hd)
        have hvalue := (hm₁.within.inside.reboundSince.1 entry hentry).2
        rw [he, hu] at hvalue
        rw [hl₁.bindings, ← hvalue, ← he]
        exact hentry
      obtain ⟨v, hv, hvb, hva⟩ := hjoined var u hmem
      have hcb : MayBe c b := by
        rw [hc', hb', hv, hu]
        exact hvb
      refine ⟨?_, iff_of_true hcb (.inr (.inl hd)), fun _ => hcb⟩
      rw [ha', hc', hv]
      cases hget : m.context.env.get? var with
      | none => exact .nil
      | some current => exact hva current hget
    · -- not bound there: it keeps what the other path has
      have hmem : var ∉ Assoc.keys path.bindings := by
        rw [hl₁.bindings]
        exact fun hmem => hd (hkeys.1 hmem)
      have hca : c = a := by rw [hc', ha', hkept var hmem]
      refine ⟨hca ▸ .same, ⟨fun hcb => .inr (.inr (hca ▸ hcb)), fun hor => ?_⟩, fun hor => ?_⟩
      · rcases hor with hsome | hzero | hab
        · cases hsome
        · exact absurd hzero hd
        · exact hca ▸ hab
      · have hbefore : b = (m₀.context.env.get? var).getD .nil := by
          rw [hb', hm₁.within.inside.get?_eq hb hd]
        rcases hor with hnone | harrived
        · rw [hbefore, hnone]
          exact .nil
        · rw [hca, ha', hbefore, hm.within.inside.get?_eq hb harrived]
          exact .same

/-- A script that gives a variable no value unless a condition fails. -/
def resetBehindBranch : Script Value :=
  ⟨0, #[.of .pushConst 0, .of .jumpIfNot 5, .of .pushConst 1, .of .setVar 0, .of .pop 0,
    .of .getVar 0, .of .ret 0], #[.bool false, .nil]⟩

/-- A machine in which that variable is bound. -/
def oneMachine : Machine :=
  ⟨{ Context.ofSettings ⟨10, false, 0⟩ with env := Environment.empty.set ⟨0⟩ (.int 1) }, .empty⟩

theorem join_covers_reset : oneMachine.context.env.LevelsBounded ∧
    ∃ wk m wk₁ m₁ m', ∃ path ∈ wk.pending, path.target = wk.pos ∧
      PassAt (analyseFor ⟨.cardField, 0⟩ 9) ⟨.cardField, 0⟩ resetBehindBranch [] oneMachine wk m ∧
      Leaves (analyseFor ⟨.cardField, 0⟩ 9) ⟨.cardField, 0⟩ resetBehindBranch (passRegion oneMachine)
        wk₁ m₁ path ∧
      mergePath (passRegion oneMachine) path m = (.ok (), m') ∧
      ReadAs ⟨.cardField, 0⟩ m ⟨0⟩ .nil ∧ ReadAs ⟨.cardField, 0⟩ m₁ ⟨0⟩ (.int 1) ∧
      ReadAs ⟨.cardField, 0⟩ m' ⟨0⟩ .nil ∧ MayBe .nil .nil ∧ ¬ MayBe .nil (.int 1) := by
  have hb : oneMachine.context.env.LevelsBounded :=
    Environment.LevelsBounded.set Environment.stacked_empty ⟨0⟩ (.int 1)
  let m₁ := passStart resetBehindBranch [] oneMachine
  let m := m₁.withEnv (m₁.context.env.set ⟨0⟩ .nil)
  let path : WaitingPath := ⟨5, [], []⟩
  -- the condition, and the branch
  have h₁ : PassAt (analyseFor ⟨.cardField, 0⟩ 9) ⟨.cardField, 0⟩ resetBehindBranch [] oneMachine
      ⟨1, true, [], [], [], .nil⟩ (m₁.withStack [.bool false]) :=
    PassAt.start.moved rfl rfl
  have h₂ : PassAt (analyseFor ⟨.cardField, 0⟩ 9) ⟨.cardField, 0⟩ resetBehindBranch [] oneMachine
      ⟨2, true, [path], [], [], .nil⟩ m₁ := h₁.moved rfl rfl
  have hleaves : Leaves (analyseFor ⟨.cardField, 0⟩ 9) ⟨.cardField, 0⟩ resetBehindBranch
      (passRegion oneMachine) ⟨1, true, [], [], [], .nil⟩ (m₁.withStack [.bool false]) path :=
    ⟨_, _, _, rfl, rfl, rfl⟩
  -- the path that does not jump
  have h₃ : PassAt (analyseFor ⟨.cardField, 0⟩ 9) ⟨.cardField, 0⟩ resetBehindBranch [] oneMachine
      ⟨3, true, [path], [], [], .nil⟩ (m₁.withStack [.nil]) := h₂.moved rfl rfl
  have h₄ : PassAt (analyseFor ⟨.cardField, 0⟩ 9) ⟨.cardField, 0⟩ resetBehindBranch [] oneMachine
      ⟨4, true, [path], [], [], .nil⟩ (m.withStack [.nil]) := h₃.moved rfl rfl
  have h₅ : PassAt (analyseFor ⟨.cardField, 0⟩ 9) ⟨.cardField, 0⟩ resetBehindBranch [] oneMachine
      ⟨5, true, [path], [], [], .nil⟩ m := h₄.moved rfl rfl
  obtain ⟨-, m', hmerge, hcovers⟩ := join_covers hb h₅ path List.mem_cons_self
  have hread : ReadAs ⟨.cardField, 0⟩ m' ⟨0⟩ .nil := by
    have hrun : mergePath (passRegion oneMachine) path m = (.ok (), m) := rfl
    rw [hrun] at hmerge
    cases hmerge
    exact ⟨_, rfl⟩
  obtain ⟨hlive, hwaited, -⟩ :=
    hcovers _ _ h₁ hleaves ⟨0⟩ .nil (.int 1) .nil ⟨_, rfl⟩ ⟨_, rfl⟩ hread
  refine ⟨hb, _, m, _, _, m', path, List.mem_cons_self, rfl, h₅, hleaves, hmerge, ⟨_, rfl⟩,
    ⟨_, rfl⟩, hread, hlive, fun hcb => ?_⟩
  rcases hwaited.1 hcb with hsome | hzero | hab
  · cases hsome
  · cases hzero
  · cases eq_nil_of_mayBe hab rfl

end Run

end ReactiveScript
