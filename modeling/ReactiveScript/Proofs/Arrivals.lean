import ReactiveScript.Proofs.Sketch
import ReactiveScript.Proofs.Schedule

/-
  Paths of a pass that arrive at one position.

  A `Scene` is what stays as it is while a pass follows the paths through a piece of code. At a
  position of that code the current path and some waiting ones have arrived (`Arrived`), each with a
  sketch of its frame; the pass joins them before it goes on, and then the current path stands there
  alone (`Alone`) with the join of the sketches. `Comes` says that a pass that succeeds comes by at
  such a state; `Comes.instr` follows it over one instruction.
-/

namespace ReactiveScript

/-- What stays as it is while a pass goes through a piece of code: what is registered, where the pass
runs, the scope it runs in, what lies below its frame, the nodes that its local variables may be, and
the marks it has set. -/
structure Scene where
  registry : Registry
  region : Region
  outer : Environment
  below : List Value
  vars : Variable → Option (Set Node)
  backEdges : List Nat
  enteredLoops : List Nat

namespace Run

open World

/-- The state of a pass in a scene. -/
structure Ground (sc : Scene) (w : World) (wk : Walk) (m : Machine) : Prop where
  fits : w.Fits m
  separates : w.Separates
  registry : w.registry = sc.registry
  mark : sc.region.mark = sc.outer.hiddenCount
  base : sc.below.length = sc.region.base
  stack : ∃ f, m.context.stack = f ++ sc.below
  inside : Environment.Inside sc.outer m.context.env
  bounded : ∀ var set, sc.vars var = some set → sc.outer.BoundedAt var
  paths : ∀ path ∈ wk.pending, w.KnowsPath path ∧ ∀ b ∈ path.bindings, sc.outer.BoundedAt b.1
  result : w.Knows wk.result
  backEdges : wk.backEdges = sc.backEdges
  enteredLoops : wk.enteredLoops = sc.enteredLoops

/-- The operands of the current path are as in the sketches, and its variables as in the scene. -/
structure LiveShows (sc : Scene) (w : World) (sketches : List Sketch) (m : Machine) : Prop where
  frame : ∃ f, m.context.stack = f ++ sc.below ∧ List.Forall₂ w.Shows sketches f
  vars : ∀ var set, sc.vars var = some set → ∃ v,
    m.context.env.slot? var = some ⟨m.context.env.level, v⟩ ∧ Pictures w.old v set

/-- Those of a waiting path are. -/
structure PathShows (sc : Scene) (w : World) (sketches : List Sketch) (path : WaitingPath) : Prop where
  frame : List.Forall₂ w.Shows sketches path.frame
  vars : ∀ var set, sc.vars var = some set → ∃ v, (var, some v) ∈ path.bindings ∧
    (∀ u, (var, u) ∈ path.bindings → u = some v) ∧ Pictures w.old v set

/-- The current path stands at a position, and no other has arrived there; the others wait behind. -/
structure Alone (sc : Scene) (waiting : List WaitingPath) (w : World) (wk : Walk) (m : Machine)
    (pos : Nat) (sketches : List Sketch) : Prop where
  ground : Ground sc w wk m
  live : wk.live = true
  pos_eq : wk.pos = pos
  pending : wk.pending.Perm waiting
  shows : LiveShows sc w sketches m

/-- The sketches of two frames, joined. -/
def joinFrames (sketches others : List Sketch) : List Sketch :=
  List.zipWith Sketch.join sketches others

/-- The current path stands at a position where others have arrived; joined, their sketches are the
given ones. -/
structure Arrived (sc : Scene) (waiting : List WaitingPath) (w : World) (wk : Walk) (m : Machine)
    (pos : Nat) (sketches : List Sketch) : Prop where
  ground : Ground sc w wk m
  live : wk.live = true
  pos_eq : wk.pos = pos
  others : ∃ (others : List (WaitingPath × List Sketch)) (own : List Sketch),
    wk.pending.Perm (others.map Prod.fst ++ waiting) ∧
    (∀ p ∈ others, p.1.target = pos ∧ PathShows sc w p.2 p.1 ∧ p.2.length = own.length) ∧
    LiveShows sc w own m ∧ (others.map Prod.snd).foldl joinFrames own = sketches

variable {sc : Scene} {waiting : List WaitingPath} {w : World} {wk : Walk} {m : Machine} {pos : Nat}
  {sketches : List Sketch}

theorem Alone.arrived (h : Alone sc waiting w wk m pos sketches) :
    Arrived sc waiting w wk m pos sketches :=
  ⟨h.ground, h.live, h.pos_eq, [], sketches, h.pending, nofun, h.shows, rfl⟩

theorem PathShows.later {w' : World} {path : WaitingPath} (hle : w.Le w')
    (h : PathShows sc w sketches path) : PathShows sc w' sketches path := by
  refine ⟨h.frame.imp fun _ _ => hle.shows, fun var set hvar => ?_⟩
  rw [hle.old]
  exact h.vars var set hvar

/-! ## Joining -/

theorem length_joinFrames {others : List Sketch} (h : others.length = sketches.length) :
    (joinFrames sketches others).length = sketches.length := by
  unfold joinFrames
  rw [List.length_zipWith, h, Nat.min_self]

theorem joinFrames_self (sketches : List Sketch) : joinFrames sketches sketches = sketches := by
  induction sketches with
  | nil => rfl
  | cons d rest ih =>
    show d.join d :: joinFrames rest rest = _
    rw [Sketch.join_self, ih]

/-- Joining paths that show the same sketches changes nothing. -/
theorem foldl_joinFrames_self (sketches : List Sketch) (paths : List WaitingPath) :
    (paths.map fun _ => sketches).foldl joinFrames sketches = sketches := by
  induction paths with
  | nil => rfl
  | cons _ _ ih => rw [List.map_cons, List.foldl_cons, joinFrames_self, ih]

theorem joinFrames_right_comm (a b c : List Sketch) :
    joinFrames (joinFrames a b) c = joinFrames (joinFrames a c) b := by
  induction a generalizing b c with
  | nil => rfl
  | cons d as ih =>
    cases b with
    | nil => cases c <;> rfl
    | cons e bs =>
      cases c with
      | nil => rfl
      | cons k cs =>
        show (d.join e).join k :: joinFrames (joinFrames as bs) cs =
          (d.join k).join e :: joinFrames (joinFrames as cs) bs
        rw [Sketch.join_right_comm, ih]

instance : RightCommutative joinFrames := ⟨joinFrames_right_comm⟩

/-- Sketches of two frames are those of the joined frame, joined. -/
theorem EitherFrame.shows {f g joined : List Value} {others : List Sketch}
    (h : EitherFrame w.old f g joined) (hf : ∀ v ∈ f, w.Knows v) (hg : ∀ v ∈ g, w.Knows v)
    (hs : List.Forall₂ w.Shows sketches f) (ho : List.Forall₂ w.Shows others g) :
    List.Forall₂ w.Shows (joinFrames sketches others) joined := by
  induction hs generalizing g joined others with
  | nil =>
    cases h
    exact .nil
  | @cons d v sketches f hd hs ih =>
    cases ho with
    | nil =>
      cases h
      exact .nil
    | @cons e u others g he ho =>
      cases h with
      | cons hv h =>
        have hvu := hv.shows (hf v List.mem_cons_self) (hg u List.mem_cons_self) hd he
        exact .cons hvu (ih h (fun x hx => hf x (List.mem_cons_of_mem _ hx))
          (fun x hx => hg x (List.mem_cons_of_mem _ hx)) ho)

/-- No list of dependents is touched. -/
def KeepsLists {α : Type} (x : Run α) : Prop :=
  ∀ m, (x m).2.store.dependents = m.store.dependents

theorem KeepsLists.bind {α β : Type} {x : Run α} {f : α → Run β} (hx : KeepsLists x)
    (hf : ∀ a, KeepsLists (f a)) : KeepsLists (x >>= f) := by
  intro m
  have hx := hx m
  rw [run_bind]
  generalize x m = out at hx ⊢
  rcases out with ⟨stop | a, m₁⟩
  · exact hx
  · exact (hf a m₁).trans hx

theorem keepsLists_store {α : Type} {x : StateM Store α} (h : Quiet x) : KeepsLists (store x) :=
  fun m => h m.store

theorem keepsLists_mergeBindings (bindings : Bindings) : KeepsLists (mergeBindings bindings) := by
  induction bindings with
  | nil => exact fun _ => rfl
  | cons b rest ih =>
    refine KeepsLists.bind (fun _ => rfl) fun c => ?_
    dsimp only
    cases c.env.get? b.1 with
    | none => exact KeepsLists.bind (fun _ => rfl) fun _ => ih
    | some current =>
      refine KeepsLists.bind (keepsLists_store (quiet_either current b.2)) fun v => ?_
      exact KeepsLists.bind (fun _ => rfl) fun _ => ih

theorem keepsLists_mergePath (r : Region) (path : WaitingPath) : KeepsLists (mergePath r path) := by
  unfold mergePath
  refine KeepsLists.bind (fun _ => rfl) fun live => ?_
  refine KeepsLists.bind (keepsLists_store (quiet_eitherFrames _ _)) fun joined => ?_
  exact KeepsLists.bind (fun _ => rfl) fun _ => keepsLists_mergeBindings _

/-- The nodes that two values may be, if they are the same for both. -/
theorem joins_pictures (w : World) (set : Set Node) : w.Joins fun v => Pictures w.old v set := by
  intro w' a b v hle hka hkb h ha hb
  have h' : EitherOf w'.old a b v := hle.old.symm ▸ h
  have hv := h'.pictures hka hkb (hle.old.symm ▸ ha) (hle.old.symm ▸ hb)
  rw [Set.union_self, hle.old] at hv
  exact hv

/-- The current path, joined with a waiting one. -/
theorem shows_merged {path : WaitingPath} {rest : List WaitingPath} {others : List Sketch}
    {m' : Machine} (g : Ground sc w wk m) (hlive : LiveShows sc w sketches m)
    (hpath : PathShows sc w others path) (hlen : others.length = sketches.length)
    (hperm : wk.pending.Perm (path :: rest))
    (hrun : mergePath sc.region path m = (.ok (), m')) :
    ∃ w', w.Le w' ∧ w'.dependents = w.dependents ∧ Ground sc w' { wk with pending := rest } m' ∧
      LiveShows sc w' (joinFrames sketches others) m' := by
  obtain ⟨hknown, hbounded⟩ := g.paths path (hperm.mem_iff.2 List.mem_cons_self)
  have hafter := after_mergePath (r := sc.region) g.fits hknown
  rw [hrun] at hafter
  obtain ⟨w', hle, hfit, hj⟩ := hafter () rfl
  obtain ⟨f, hs, hf⟩ := hlive.frame
  have hsame : f.length = path.frame.length := by
    rw [← hf.length_eq, ← hpath.frame.length_eq, hlen]
  obtain ⟨f', hs', -, heither⟩ := hj.frame f sc.below g.base hs hsame
  obtain ⟨added, henv, hkeys⟩ := hj.env
  have hlists : m'.store.dependents = m.store.dependents := by
    have := keepsLists_mergePath sc.region path m
    rwa [hrun] at this
  refine ⟨w', hle, ?_, ⟨hfit, hle.separates g.separates, hle.registry.trans g.registry, g.mark, g.base,
    ⟨f', hs'⟩, ?_, g.bounded,
    fun other ho => ?_, hle.knows g.result, g.backEdges, g.enteredLoops⟩, ⟨⟨f', hs', ?_⟩, ?_⟩⟩
  · rw [← hfit.store.dependents, hlists, g.fits.store.dependents]
  · rw [henv]
    refine g.inside.setAll fun b hb => ?_
    obtain ⟨c, hc, he⟩ := List.mem_map.1 (hkeys b hb)
    exact he ▸ hbounded c hc
  · obtain ⟨hk, hb⟩ := g.paths other (hperm.mem_iff.2 (List.mem_cons_of_mem _ ho))
    exact ⟨hle.knowsPath hk, hb⟩
  · have hknownF : ∀ v ∈ f, w.Knows v := fun v hv =>
      g.fits.stack v (hs ▸ List.mem_append_left _ hv)
    exact (EitherFrame.shows (heither g.separates) hknownF hknown.frame hf hpath.frame).imp
      fun _ _ => hle.shows
  · intro var set hvar
    obtain ⟨v, hv, hp⟩ := hlive.vars var set hvar
    obtain ⟨u, hmem, huniq, hu⟩ := hpath.vars var set hvar
    obtain ⟨v', hget, hv'⟩ := hj.joins g.separates _ var v (joins_pictures w set)
      (congrArg (Option.map Slot.value) hv) hp fun x hx => Option.some.inj (huniq _ hx) ▸ hu
    obtain ⟨v'', hslot⟩ := Environment.slot?_setAll_of_bound added hv
    rw [← henv] at hslot
    have hsame : v'' = v' := by
      unfold Environment.get? at hget
      rw [hslot] at hget
      exact Option.some.inj hget
    exact ⟨v', hsame ▸ hslot, hle.old ▸ hv'⟩

/-- Of the paths that have arrived, one that is joined with the current one leaves the others. -/
theorem Arrived.merged {path : WaitingPath} {rest : List WaitingPath} {m' : Machine}
    (h : Arrived sc waiting w wk m pos sketches) (hlater : ∀ p ∈ waiting, p.target ≠ pos)
    (hperm : wk.pending.Perm (path :: rest)) (htarget : path.target = wk.pos)
    (hrun : mergePath sc.region path m = (.ok (), m')) :
    ∃ w', w.Le w' ∧ w'.dependents = w.dependents ∧
      Arrived sc waiting w' { wk with pending := rest } m' pos sketches := by
  obtain ⟨others, own, hpending, hothers, hown, hfold⟩ := h.others
  have hmem : path ∈ others.map Prod.fst := by
    have hpath := hpending.mem_iff.1 (hperm.mem_iff.2 List.mem_cons_self)
    refine (List.mem_append.1 hpath).resolve_right fun hw => ?_
    exact hlater path hw (htarget.trans h.pos_eq)
  obtain ⟨⟨path', its⟩, hpair, rfl⟩ := List.mem_map.1 hmem
  obtain ⟨before, after, rfl⟩ := List.mem_iff_append.1 hpair
  obtain ⟨-, hits, hlen⟩ := hothers _ hpair
  obtain ⟨w', hle, hquiet, hground, hshows⟩ :=
    shows_merged h.ground hown hits hlen hperm hrun
  have hperm' : (before ++ (path', its) :: after).Perm ((path', its) :: (before ++ after)) :=
    List.perm_middle
  refine ⟨w', hle, hquiet, hground, h.live, h.pos_eq, before ++ after, joinFrames own its, ?_,
    fun p hp => ?_, hshows, ?_⟩
  · have hcons := (hperm.symm.trans hpending).trans ((hperm'.map Prod.fst).append_right waiting)
    exact hcons.cons_inv
  · obtain ⟨htarget', hshows', hlen'⟩ := hothers p (hperm'.mem_iff.2 (List.mem_cons_of_mem _ hp))
    exact ⟨htarget', hshows'.later hle, hlen'.trans (length_joinFrames hlen).symm⟩
  · rw [← hfold, (hperm'.map Prod.snd).foldl_eq]
    rfl

/-! ## Coming by -/

variable {analyse : Analyser} {dep : Dependency} {s : Script Value}

/-- A pass that goes on from here and succeeds comes by at a state for which `B` holds. -/
def Comes (analyse : Analyser) (dep : Dependency) (s : Script Value) (r : Region) (w : World)
    (wk : Walk) (m : Machine) (B : Walk → World → Machine → Prop) : Prop :=
  ∀ budget v last, walkFrom analyse dep s r budget wk m = (.ok v, last) →
    ∃ budget' w' wk' m', w.Le w' ∧ B wk' w' m' ∧
      walkFrom analyse dep s r budget' wk' m' = (.ok v, last)

variable {r : Region} {B C : Walk → World → Machine → Prop}

theorem Comes.here (h : B wk w m) : Comes analyse dep s r w wk m B :=
  fun budget _ _ hrun => ⟨budget, w, wk, m, .refl w, h, hrun⟩

theorem Comes.trans (h : Comes analyse dep s r w wk m B)
    (hBC : ∀ w' wk' m', w.Le w' → B wk' w' m' → Comes analyse dep s r w' wk' m' C) :
    Comes analyse dep s r w wk m C := by
  intro budget v last hrun
  obtain ⟨budget₁, w₁, wk₁, m₁, hle₁, hB, hrun₁⟩ := h budget v last hrun
  obtain ⟨budget₂, w₂, wk₂, m₂, hle₂, hC, hrun₂⟩ := hBC w₁ wk₁ m₁ hle₁ hB budget₁ v last hrun₁
  exact ⟨budget₂, w₂, wk₂, m₂, hle₁.trans hle₂, hC, hrun₂⟩

/-- A pass that follows a path joins what waits there with it, and goes over the instruction. -/
theorem walkFrom_live {budget : Nat} {v : Value} {last : Machine} (hlive : wk.live = true)
    (hrun : walkFrom analyse dep s r budget wk m = (.ok v, last)) :
    ∃ budget' wk₁ m₁ wk₂ m₂, mergeWaiting r wk wk.pending.length m = (.ok wk₁, m₁) ∧
      (∀ i, s.code[wk₁.pos]? = some i → walkInstr analyse dep s r wk₁ i m₁ = (.ok wk₂, m₂)) ∧
      walkFrom analyse dep s r budget' wk₂ m₂ = (.ok v, last) := by
  cases budget with
  | zero => cases hrun
  | succ budget =>
    unfold walkFrom at hrun
    obtain ⟨out, m₃, hstep, hnext⟩ := run_bind_eq_ok hrun
    clear hrun
    rcases walkStep_cases hstep with ⟨-, -, hl, -⟩ | ⟨wk₁, m₁, wk₂, m₂, wk₃, h₁, h₂, rfl, h₃⟩
    · rw [hlive] at hl
      cases hl
    · rcases resume_cases r wk m with ⟨-, hr⟩ | ⟨hl, -⟩ | ⟨hl, -⟩
      · rw [h₁] at hr
        cases hr
        refine ⟨budget, wk₂, m₂, wk₃, m₃, h₂, fun i hi => ?_, hnext⟩
        rwa [hi] at h₃
      · rw [hlive] at hl
        cases hl
      · rw [hlive] at hl
        cases hl

/-- Joining what waits at the current position is the first part of a step. -/
theorem walkFrom_of_merged {wk₁ : Walk} {m₁ : Machine} (budget : Nat) (hlive : wk.live = true)
    (hmerge : mergeWaiting r wk wk.pending.length m = (.ok wk₁, m₁)) (hlive₁ : wk₁.live = true)
    (hnone : ∀ path ∈ wk₁.pending, path.target ≠ wk₁.pos) (hresult : wk₁.result = wk.result) :
    walkFrom analyse dep s r (budget + 1) wk m = walkFrom analyse dep s r (budget + 1) wk₁ m₁ := by
  have hstays : ∀ {wk : Walk} {m : Machine}, wk.live = true →
      resume r wk m = (.ok (some wk), m) := by
    intro wk m hlive
    unfold resume
    simp only [if_pos hlive]
    rfl
  have hmerged : mergeWaiting r wk₁ wk₁.pending.length m₁ = (.ok wk₁, m₁) := by
    have hfind : (wk₁.pending.findIdx? fun p => p.target == wk₁.pos) = none := by
      refine List.findIdx?_eq_none_iff.2 fun path hp => ?_
      exact beq_eq_false_iff_ne.2 (hnone path hp)
    cases wk₁.pending.length with
    | zero => rfl
    | succ tries =>
      unfold mergeWaiting
      rw [hfind]
      rfl
  have hstep : walkStep analyse dep s r wk m = walkStep analyse dep s r wk₁ m₁ := by
    unfold walkStep
    rw [run_bind_ok (hstays hlive), run_bind_ok (hstays hlive₁)]
    dsimp only
    rw [run_bind_ok hmerge, run_bind_ok hmerged]
  unfold walkFrom
  rw [run_bind, run_bind, hstep, hresult]

theorem Ground.stack_resumed (g : Ground sc w wk m) (path : WaitingPath) :
    (resumePath sc.region path m).2.context.stack = path.frame ++ sc.below := by
  obtain ⟨f, hs⟩ := g.stack
  show path.frame ++ bottom sc.region.base m.context.stack = _
  rw [hs, bottom_append g.base]

/-- Resuming a path that waits puts its frame and its variables in place of those that are there. -/
theorem Ground.resumed {path : WaitingPath} {rest : List WaitingPath} (g : Ground sc w wk m)
    (hperm : wk.pending.Perm (path :: rest)) :
    Ground sc w { wk with pos := path.target, live := true, pending := rest }
      (resumePath sc.region path m).2 := by
  obtain ⟨hknown, hbounded⟩ := g.paths path (hperm.mem_iff.2 List.mem_cons_self)
  have hinside : Environment.Inside sc.outer (resumePath sc.region path m).2.context.env := by
    show Environment.Inside sc.outer
      ((m.context.env.unwindTo sc.region.mark).setAll (boundOnly path.bindings))
    rw [g.mark]
    exact g.inside.unwindTo.setAll fun b hb => hbounded _ (mem_boundOnly.1 hb)
  exact ⟨fits_resumed g.fits hknown sc.region, g.separates, g.registry, g.mark, g.base,
    ⟨path.frame, g.stack_resumed path⟩, hinside, g.bounded,
    fun other ho => g.paths other (hperm.mem_iff.2 (List.mem_cons_of_mem _ ho)), g.result,
    g.backEdges, g.enteredLoops⟩

/-- A path that is resumed shows what it showed when it waited. -/
theorem PathShows.resumed {path : WaitingPath} (h : PathShows sc w sketches path)
    (g : Ground sc w wk m) : LiveShows sc w sketches (resumePath sc.region path m).2 := by
  refine ⟨⟨path.frame, g.stack_resumed path, h.frame⟩, fun var set hvar => ?_⟩
  obtain ⟨v, hv, huniq, hp⟩ := h.vars var set hvar
  have hslot := Environment.slot?_setAll (mem_boundOnly.2 hv)
    (fun u hu => Option.some.inj (huniq (some u) (mem_boundOnly.1 hu)))
    (m.context.env.unwindTo sc.region.mark)
  refine ⟨v, hslot.trans ?_, hp⟩
  show _ = some (Slot.mk ((m.context.env.unwindTo sc.region.mark).setAll
    (boundOnly path.bindings)).level v)
  rw [Environment.level_setAll]

/-- Choosing one of the paths that wait for the lowest position; the others have arrived with it. -/
theorem Comes.resumeFirst {paths : List WaitingPath} (g : Ground sc w wk m) (hlive : wk.live = false)
    (hne : paths ≠ []) (hperm : wk.pending.Perm (paths ++ waiting))
    (hat : ∀ path ∈ paths, path.target = pos) (hlater : ∀ p ∈ waiting, pos < p.target)
    (hshows : ∀ path ∈ paths, PathShows sc w sketches path) :
    Comes analyse dep s sc.region w wk m fun wk' w' m' =>
      w'.dependents = w.dependents ∧ Arrived sc waiting w' wk' m' pos sketches := by
  intro budget v last hrun
  obtain ⟨least, hleast⟩ := List.exists_mem_of_ne_nil paths hne
  have hmemLeast : least ∈ wk.pending := hperm.mem_iff.2 (List.mem_append_left _ hleast)
  rcases resume_cases sc.region wk m with ⟨hl, -⟩ | ⟨-, hp, -⟩ | ⟨-, chosen, rest, hchosen, hmin, hr⟩
  · rw [hlive] at hl
    cases hl
  · rw [hp] at hmemLeast
    cases hmemLeast
  · have hpath : chosen ∈ wk.pending := hchosen.mem_iff.2 List.mem_cons_self
    have hmem : chosen ∈ paths := by
      refine (List.mem_append.1 (hperm.mem_iff.1 hpath)).resolve_right fun hw => ?_
      have hle := hmin least hmemLeast
      rw [hat least hleast] at hle
      exact absurd hle (Nat.not_le_of_lt (hlater chosen hw))
    obtain ⟨before, after, hsplit⟩ := List.mem_iff_append.1 hmem
    have hrest : rest.Perm ((before ++ after) ++ waiting) := by
      have hfront : paths.Perm (chosen :: (before ++ after)) := hsplit ▸ List.perm_middle
      exact ((hchosen.symm.trans hperm).trans (hfront.append_right waiting)).cons_inv
    have hothers : ∀ path ∈ before ++ after, path ∈ paths := by
      intro path hp
      rw [hsplit]
      rcases List.mem_append.1 hp with hp | hp
      · exact List.mem_append_left _ hp
      · exact List.mem_append_right _ (List.mem_cons_of_mem _ hp)
    have hnext : walkFrom analyse dep s sc.region budget
        { wk with pos := chosen.target, live := true, pending := rest }
        (resumePath sc.region chosen m).2 = (.ok v, last) := by
      cases budget with
      | zero => cases hrun
      | succ budget => exact (walkFrom_of_resume budget hr rfl rfl).symm.trans hrun
    refine ⟨budget, w, _, _, .refl w, ⟨rfl, g.resumed hchosen, rfl, hat chosen hmem,
      (before ++ after).map fun path => (path, sketches), sketches, ?_, ?_,
      (hshows chosen hmem).resumed g, ?_⟩, hnext⟩
    · have hmap : ((before ++ after).map fun path => (path, sketches)).map Prod.fst =
          before ++ after := by
        rw [List.map_map]
        exact List.map_id _
      rw [hmap]
      exact hrest
    · intro p hp
      obtain ⟨path, hpath, rfl⟩ := List.mem_map.1 hp
      exact ⟨hat path (hothers path hpath), hshows path (hothers path hpath), rfl⟩
    · rw [List.map_map]
      exact foldl_joinFrames_self sketches _

/-- Choosing the path that waits for the lowest position. -/
theorem Comes.resume {path : WaitingPath} (g : Ground sc w wk m) (hlive : wk.live = false)
    (hperm : wk.pending.Perm (path :: waiting))
    (hfirst : ∀ p ∈ waiting, path.target < p.target) (hshows : PathShows sc w sketches path) :
    Comes analyse dep s sc.region w wk m fun wk' w' m' =>
      w'.dependents = w.dependents ∧ Arrived sc waiting w' wk' m' path.target sketches := by
  refine Comes.resumeFirst g hlive (List.cons_ne_nil path []) hperm ?_ hfirst ?_
  · exact fun p hp => List.mem_singleton.1 hp ▸ rfl
  · exact fun p hp => List.mem_singleton.1 hp ▸ hshows

/-- The path that is put aside shows what the current one shows. -/
theorem shows_suspended (g : Ground sc w wk m) (h : LiveShows sc w sketches m) (target : Nat) :
    PathShows sc w sketches ⟨target, m.context.stack.take (m.context.stack.length - sc.region.base),
      m.context.env.reboundSince sc.region.mark⟩ := by
  obtain ⟨f, hs, hf⟩ := h.frame
  refine ⟨?_, fun var set hvar => ?_⟩
  · rw [hs, take_append g.base]
    exact hf
  · obtain ⟨v, hv, hp⟩ := h.vars var set hvar
    rw [g.mark]
    refine ⟨v, g.inside.mem_reboundSince (g.bounded var set hvar) hv, fun u hu => ?_, hp⟩
    have hget : u = m.context.env.get? var := (g.inside.reboundSince.1 _ hu).2
    exact hget.trans (congrArg (Option.map Slot.value) hv)

theorem Ground.wait (g : Ground sc w wk m) {path : WaitingPath} (hknown : w.KnowsPath path)
    (hbounded : ∀ b ∈ path.bindings, sc.outer.BoundedAt b.1) : Ground sc w (wk.wait path) m := by
  refine ⟨g.fits, g.separates, g.registry, g.mark, g.base, g.stack, g.inside, g.bounded,
    fun other hp => ?_, g.result, g.backEdges, g.enteredLoops⟩
  rcases List.mem_append.1 hp with hp | hp
  · exact g.paths other hp
  · rw [List.mem_singleton.1 hp]
    exact ⟨hknown, hbounded⟩

theorem bounded_suspended (g : Ground sc w wk m) :
    ∀ b ∈ m.context.env.reboundSince sc.region.mark, sc.outer.BoundedAt b.1 := fun b hb =>
  (g.inside.reboundSince.1 b (g.mark ▸ hb)).1

/-- The state after the operands were changed and perhaps the store. -/
theorem Ground.later {w' : World} {m' : Machine} {f : List Value} (g : Ground sc w wk m)
    (hle : w.Le w') (hfit : w'.Fits m') (hs : m'.context.stack = f ++ sc.below)
    (henv : m'.context.env = m.context.env) : Ground sc w' wk m' := by
  refine ⟨hfit, hle.separates g.separates, hle.registry.trans g.registry, g.mark, g.base, ⟨f, hs⟩,
    henv ▸ g.inside, g.bounded, fun path hp => ?_, hle.knows g.result, g.backEdges, g.enteredLoops⟩
  exact ⟨hle.knowsPath (g.paths path hp).1, (g.paths path hp).2⟩

theorem Ground.goto (g : Ground sc w wk m) (next : Nat) : Ground sc w (wk.goto next) m :=
  ⟨g.fits, g.separates, g.registry, g.mark, g.base, g.stack, g.inside, g.bounded, g.paths, g.result,
    g.backEdges, g.enteredLoops⟩

theorem Ground.stop (g : Ground sc w wk m) : Ground sc w wk.stop m :=
  ⟨g.fits, g.separates, g.registry, g.mark, g.base, g.stack, g.inside, g.bounded, g.paths, g.result,
    g.backEdges, g.enteredLoops⟩

theorem LiveShows.later {w' : World} {m' : Machine} {f : List Value} {others : List Sketch}
    (h : LiveShows sc w sketches m) (hle : w.Le w') (hs : m'.context.stack = f ++ sc.below)
    (hf : List.Forall₂ w'.Shows others f) (henv : m'.context.env = m.context.env) :
    LiveShows sc w' others m' := by
  refine ⟨⟨f, hs, hf⟩, fun var set hvar => ?_⟩
  rw [henv, hle.old]
  exact h.vars var set hvar

/-! ## What is noted on the way -/

/-- These owners were noted since a world, and `B` holds. -/
structure Since (dep : Dependency) (w₀ : World) (owners : Set OwnerId)
    (B : Walk → World → Machine → Prop) (wk : Walk) (w : World) (m : Machine) : Prop where
  notes : Notes dep w₀ w owners
  holds : B wk w m

/-- Nothing was noted. -/
theorem since_self (h : B wk w m) : Since dep w ∅ B wk w m := ⟨notes_of_eq rfl dep, h⟩

theorem Comes.mono (h : Comes analyse dep s r w wk m B)
    (hBC : ∀ w' wk' m', w.Le w' → B wk' w' m' → C wk' w' m') : Comes analyse dep s r w wk m C := by
  intro budget v last hrun
  obtain ⟨budget', w', wk', m', hle, hB, hrun'⟩ := h budget v last hrun
  exact ⟨budget', w', wk', m', hle, hBC w' wk' m' hle hB, hrun'⟩

/-- A path that stands alone goes over the instruction as it is. -/
theorem Alone.comes {i : Instruction} {owners : Set OwnerId}
    (h : Alone sc waiting w wk m pos sketches) (hlater : ∀ p ∈ waiting, p.target ≠ pos)
    (hi : s.code[pos]? = some i)
    (hinstr : After w (Since dep w owners B) (walkInstr analyse dep s sc.region wk i m)) :
    Comes analyse dep s sc.region w wk m (Since dep w owners B) := by
  intro budget v last hrun
  obtain ⟨budget', wk₂, m₂, wk₃, m₃, h₂, h₃, hnext⟩ := walkFrom_live h.live hrun
  have hmerge := mergeWaiting_keeps (r := sc.region) (Q := fun wk' m' => wk' = wk ∧ m' = m) ?_
    wk.pending.length ⟨rfl, rfl⟩ h₂
  · obtain ⟨⟨rfl, rfl⟩, -⟩ := hmerge
    have hrun₃ := h₃ i (h.pos_eq ▸ hi)
    obtain ⟨w₃, hle₃, -, hB⟩ := hinstr wk₃ (congrArg Prod.fst hrun₃)
    rw [hrun₃] at hB
    exact ⟨budget', w₃, wk₃, m₃, hle₃, hB, hnext⟩
  · rintro _ _ path rest m₁ hperm htarget - ⟨rfl, rfl⟩
    have hmem := h.pending.mem_iff.1 (hperm.mem_iff.2 List.mem_cons_self)
    exact absurd (htarget.trans h.pos_eq) (hlater path hmem)

/-- Going on from there. -/
theorem Comes.andThen {owners owners' : Set OwnerId}
    (h : Comes analyse dep s r w wk m (Since dep w owners B))
    (hnext : ∀ w' wk' m', w.Le w' → B wk' w' m' →
      Comes analyse dep s r w' wk' m' (Since dep w' owners' C)) :
    Comes analyse dep s r w wk m (Since dep w (owners ∪ owners') C) := by
  refine h.trans fun w₁ wk₁ m₁ hle₁ hdone => ?_
  refine (hnext w₁ wk₁ m₁ hle₁ hdone.holds).mono fun w₂ wk₂ m₂ _ hdone₂ => ?_
  exact ⟨hdone.notes.trans hdone₂.notes hle₁, hdone₂.holds⟩

/-- Going on from where nothing was noted. -/
theorem Comes.quietly {owners : Set OwnerId}
    (h : Comes analyse dep s r w wk m (Since dep w ∅ B))
    (hnext : ∀ w' wk' m', w.Le w' → B wk' w' m' →
      Comes analyse dep s r w' wk' m' (Since dep w' owners C)) :
    Comes analyse dep s r w wk m (Since dep w owners C) := by
  have hall := h.andThen hnext
  rwa [Set.empty_union] at hall

/-- Going on, with nothing more noted. -/
theorem Comes.andQuietly {owners : Set OwnerId}
    (h : Comes analyse dep s r w wk m (Since dep w owners B))
    (hnext : ∀ w' wk' m', w.Le w' → B wk' w' m' →
      Comes analyse dep s r w' wk' m' (Since dep w' ∅ C)) :
    Comes analyse dep s r w wk m (Since dep w owners C) := by
  have hall := h.andThen hnext
  rwa [Set.union_empty] at hall

/-- The current path, joined with all that have arrived, stands alone. -/
theorem Comes.settled (h : Arrived sc waiting w wk m pos sketches)
    (hlater : ∀ p ∈ waiting, p.target ≠ pos) :
    Comes analyse dep s sc.region w wk m
      (Since dep w ∅ fun wk' w' m' => Alone sc waiting w' wk' m' pos sketches) := by
  intro budget v last hrun
  obtain ⟨-, wk₂, m₂, -, -, h₂, -, -⟩ := walkFrom_live h.live hrun
  have hmerge := mergeWaiting_keeps (r := sc.region)
    (Q := fun wk' m' => wk'.result = wk.result ∧ ∃ w', w.Le w' ∧ w'.dependents = w.dependents ∧
      Arrived sc waiting w' wk' m' pos sketches) ?_ wk.pending.length ⟨rfl, w, .refl w, rfl, h⟩ h₂
  · obtain ⟨⟨hresult, w₂, hle₂, hquiet, harr⟩, hnone⟩ := hmerge
    have hnone := hnone (Nat.le_refl _)
    obtain ⟨others, own, hpending, hothers, hown, hfold⟩ := harr.others
    have hempty : others = [] := by
      cases others with
      | nil => rfl
      | cons p rest =>
        have hmem := hpending.mem_iff.2 (List.mem_append_left _ List.mem_cons_self)
        exact absurd ((hothers p List.mem_cons_self).1.trans harr.pos_eq.symm) (hnone _ hmem)
    subst hempty
    refine ⟨budget, w₂, wk₂, m₂, hle₂,
      ⟨notes_of_eq hquiet dep, harr.ground, harr.live, harr.pos_eq, hpending, hfold ▸ hown⟩, ?_⟩
    cases budget with
    | zero => cases hrun
    | succ budget =>
      exact (walkFrom_of_merged budget h.live h₂ harr.live hnone hresult).symm.trans hrun
  · rintro wk' m' path rest m'' hperm htarget hrun ⟨hresult, w', hle', hquiet', harr'⟩
    obtain ⟨w'', hle'', hquiet'', harr''⟩ := harr'.merged hlater hperm htarget hrun
    exact ⟨hresult, w'', hle'.trans hle'', hquiet''.trans hquiet', harr''⟩

/-- Going over an instruction, once what has arrived is joined. -/
theorem Comes.instr {i : Instruction} {owners : Set OwnerId}
    (h : Arrived sc waiting w wk m pos sketches) (hlater : ∀ p ∈ waiting, p.target ≠ pos)
    (hi : s.code[pos]? = some i)
    (hinstr : ∀ w₁ wk₁ m₁, w.Le w₁ → Alone sc waiting w₁ wk₁ m₁ pos sketches →
      After w₁ (Since dep w₁ owners B) (walkInstr analyse dep s sc.region wk₁ i m₁)) :
    Comes analyse dep s sc.region w wk m (Since dep w owners B) := by
  exact (Comes.settled h hlater).quietly fun w₁ wk₁ m₁ hle halone =>
    halone.comes hlater hi (hinstr w₁ wk₁ m₁ hle halone)

/-- A known value is pushed on what is left of the operands. -/
theorem after_pushed_eq {w' : World} {m' : Machine} {others : List Sketch} {rest : List Value}
    {v : Value} {d : Sketch} {owners : Set OwnerId} (h : Alone sc waiting w wk m pos others)
    (hle : w.Le w') (hfit : w'.Fits m') (hs : m'.context.stack = rest ++ sc.below)
    (hrest : List.Forall₂ w.Shows sketches rest) (henv : m'.context.env = m.context.env)
    (hv : w'.Knows v) (hd : w'.Shows d v) (hnotes : Notes dep w w' owners) :
    After w' (Since dep w owners fun wk₁ w₁ m₁ =>
      Alone sc waiting w₁ wk₁ m₁ (pos + 1) (d :: sketches) ∧
        w₁ = w' ∧ m₁ = m'.withStack (v :: m'.context.stack)) ((do
        push v
        return wk.next : Run Walk) m') := by
  refine After.bind_ok (push_eq v m') ?_
  have hfit' : w'.Fits (m'.withStack (v :: m'.context.stack)) := by
    refine hfit.setStack fun x hx => ?_
    rcases List.mem_cons.1 hx with rfl | hx
    · exact hv
    · exact hfit.stack x hx
  have hs' : (m'.withStack (v :: m'.context.stack)).context.stack = (v :: rest) ++ sc.below :=
    congrArg (v :: ·) hs
  have hshows : List.Forall₂ w'.Shows (d :: sketches) (v :: rest) :=
    .cons hd (hrest.imp fun _ _ => hle.shows)
  exact after_pure hfit' ⟨hnotes, ⟨(h.ground.later hle hfit' hs' henv).goto _, h.live,
    congrArg (· + 1) h.pos_eq, h.pending, h.shows.later hle hs' hshows henv⟩, rfl, rfl⟩

theorem after_pushed {w' : World} {m' : Machine} {others : List Sketch} {rest : List Value}
    {v : Value} {d : Sketch} {owners : Set OwnerId} (h : Alone sc waiting w wk m pos others)
    (hle : w.Le w') (hfit : w'.Fits m') (hs : m'.context.stack = rest ++ sc.below)
    (hrest : List.Forall₂ w.Shows sketches rest) (henv : m'.context.env = m.context.env)
    (hv : w'.Knows v) (hd : w'.Shows d v) (hnotes : Notes dep w w' owners) :
    After w' (Since dep w owners fun wk₁ w₁ m₁ =>
      Alone sc waiting w₁ wk₁ m₁ (pos + 1) (d :: sketches)) ((do
        push v
        return wk.next : Run Walk) m') :=
  (after_pushed_eq h hle hfit hs hrest henv hv hd hnotes).mono fun _ _ _ _ hdone =>
    ⟨hdone.notes, hdone.holds.1⟩

/-! ## Operands and jumps -/

/-- Taking the top of the frame. -/
theorem Alone.takes {d : Sketch} (h : Alone sc waiting w wk m pos (d :: sketches)) :
    ∃ v rest, m.context.stack = v :: (rest ++ sc.below) ∧ w.Knows v ∧ w.Shows d v ∧
      List.Forall₂ w.Shows sketches rest ∧ w.Fits (m.withStack (rest ++ sc.below)) ∧
      takeOrNil sc.region.base m = (.ok v, m.withStack (rest ++ sc.below)) := by
  obtain ⟨f, hs, hf⟩ := h.shows.frame
  cases hf with
  | @cons d v sketches rest hd hrest =>
    refine ⟨v, rest, hs, h.ground.fits.stack v (hs ▸ List.mem_cons_self), hd, hrest, ?_, ?_⟩
    · exact fits_withoutTop h.ground.fits hs fun x hx => List.mem_cons_of_mem _ hx
    · exact take_eq h.ground.base hs

/-- The path stands where it stood, with one operand less. -/
theorem Alone.drops {d : Sketch} (h : Alone sc waiting w wk m pos (d :: sketches)) :
    ∃ v m', takeOrNil sc.region.base m = (.ok v, m') ∧ Alone sc waiting w wk m' pos sketches := by
  obtain ⟨v, rest, -, -, -, hrest, hfit, htake⟩ := h.takes
  exact ⟨v, _, htake, h.ground.later (.refl w) hfit rfl rfl, h.live, h.pos_eq, h.pending,
    h.shows.later (.refl w) rfl hrest rfl⟩

theorem Alone.next (h : Alone sc waiting w wk m pos sketches) :
    Alone sc waiting w wk.next m (pos + 1) sketches :=
  ⟨h.ground.goto _, h.live, congrArg (· + 1) h.pos_eq, h.pending, h.shows⟩

/-- A path is put aside. -/
theorem Alone.leaves {path : WaitingPath} (h : Alone sc waiting w wk m pos sketches)
    (hknown : w.KnowsPath path) (hbounded : ∀ b ∈ path.bindings, sc.outer.BoundedAt b.1) :
    Alone sc (path :: waiting) w (wk.wait path) m pos sketches :=
  ⟨h.ground.wait hknown hbounded, h.live, h.pos_eq,
    (List.perm_append_singleton _ _).trans (h.pending.cons _), h.shows⟩

/-- A copy of the path is put aside. -/
theorem Alone.waits (h : Alone sc waiting w wk m pos sketches) (target : Nat) :
    ∃ path, suspendPath sc.region target m = (.ok path, m) ∧ path.target = target ∧
      PathShows sc w sketches path ∧ Alone sc (path :: waiting) w (wk.wait path) m pos sketches :=
  ⟨_, suspendPath_eq sc.region target m, rfl, shows_suspended h.ground h.shows target,
    h.leaves (knowsPath_suspended h.ground.fits sc.region target) (bounded_suspended h.ground)⟩

/-- Values are pushed while the path stays where it is. -/
theorem Alone.pushes {w' : World} {m' : Machine} {pushed : List Value} {others : List Sketch}
    (h : Alone sc waiting w wk m pos sketches) (hle : w.Le w') (hfit : w'.Fits m')
    (hcontext : m'.context = m.context) (hpushed : List.Forall₂ w'.Shows others pushed)
    (hknown : ∀ v ∈ pushed, w'.Knows v) :
    Alone sc waiting w' wk (m'.withStack (pushed ++ m'.context.stack)) pos (others ++ sketches) := by
  obtain ⟨f, hs, hf⟩ := h.shows.frame
  have hfit' : w'.Fits (m'.withStack (pushed ++ m'.context.stack)) :=
    hfit.setStack fun v hv => (List.mem_append.1 hv).elim (hknown v) (hfit.stack v)
  have hs' : (m'.withStack (pushed ++ m'.context.stack)).context.stack = pushed ++ f ++ sc.below := by
    rw [List.append_assoc, ← hs, ← hcontext]
    rfl
  have henv : (m'.withStack (pushed ++ m'.context.stack)).context.env = m.context.env := by
    rw [← hcontext]
    rfl
  exact ⟨h.ground.later hle hfit' hs' henv, h.live, h.pos_eq, h.pending,
    h.shows.later hle hs' (List.rel_append hpushed (hf.imp fun _ _ => hle.shows)) henv⟩

theorem length_foldl_joinFrames {own : List Sketch} (others : List (List Sketch))
    (h : ∀ other ∈ others, other.length = own.length) :
    (others.foldl joinFrames own).length = own.length := by
  induction others generalizing own with
  | nil => rfl
  | cons other rest ih =>
    have hown := length_joinFrames (h other List.mem_cons_self)
    refine (ih fun x hx => ?_).trans hown
    rw [hown]
    exact h x (List.mem_cons_of_mem _ hx)

/-- A path that waits for the position where the others have arrived has arrived with them. -/
theorem Arrived.joined {path : WaitingPath} {others : List Sketch}
    (h : Arrived sc (path :: waiting) w wk m pos sketches) (htarget : path.target = pos)
    (hpath : PathShows sc w others path) (hlen : others.length = sketches.length) :
    Arrived sc waiting w wk m pos (joinFrames sketches others) := by
  obtain ⟨before, own, hpending, hbefore, hown, hfold⟩ := h.others
  have hsame : sketches.length = own.length := by
    rw [← hfold]
    refine length_foldl_joinFrames _ fun its hits => ?_
    obtain ⟨p, hp, rfl⟩ := List.mem_map.1 hits
    exact (hbefore p hp).2.2
  refine ⟨h.ground, h.live, h.pos_eq, before ++ [(path, others)], own, ?_, fun p hp => ?_, hown, ?_⟩
  · rw [List.map_append, List.append_assoc]
    exact hpending
  · rcases List.mem_append.1 hp with hp | hp
    · exact hbefore p hp
    · rw [List.mem_singleton.1 hp]
      exact ⟨htarget, hpath, hlen.trans hsame⟩
  · rw [List.map_append, List.foldl_append, hfold]
    rfl

end Run

end ReactiveScript
