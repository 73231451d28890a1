import ReactiveScript.Proofs.Arrivals
import ReactiveScript.Proofs.Expression

/-
  What a pass reads of an expression.

  `Passes` says of a piece of code that whatever paths have arrived at its beginning, a pass that
  succeeds comes by at its end, with which sketches of the operands, and which owners it notes on the
  way. There is one such lemma for each instruction, and rules for sequences (`Passes.trans`) and
  branches (`passes_choice`, `passes_shortCircuit`). From these an expression without local bindings
  leaves a value that may be its `nodes`, and the owners noted are its `readings`
  (`passes_expression`).
-/

namespace ReactiveScript

/-- The owners that reading a variable reads. -/
def Registry.ownersOf (registry : Registry) (x : Variable) : Set OwnerId :=
  match registry.lookup? x with
  | some g => ownerOf g
  | none => ∅

/-- The nodes that a variable may be: the registered one, or else those that it is bound to. -/
def Registry.nodesOf (registry : Registry) (bound : Variable → Set Node) (x : Variable) : Set Node :=
  match registry.lookup? x with
  | some g => {g}
  | none => bound x

/-- The nodes that a variable may be in the scene. -/
def Scene.nodesOf (sc : Scene) : Variable → Set Node :=
  sc.registry.nodesOf fun x => (sc.vars x).getD ∅

/-- The variable is registered, or bound in the scene. -/
def Scene.Has (sc : Scene) (x : Variable) : Prop :=
  sc.registry.lookup? x ≠ none ∨ sc.vars x ≠ none

namespace Run

open World

/-! ## Pieces of code -/

/-- From a position where paths have arrived with sketches of their operands a pass comes by at
another one with others, and notes these owners. What waits behind the code keeps waiting. -/
def Passes (analyse : Analyser) (dep : Dependency) (s : Script Value) (sc sc' : Scene)
    (pos next : Nat) (before after : List Sketch) (owners : Set OwnerId) : Prop :=
  ∀ waiting w wk m, (∀ p ∈ waiting, next ≤ p.target) → Arrived sc waiting w wk m pos before →
    Comes analyse dep s sc.region w wk m
      (Since dep w owners fun wk' w' m' => Arrived sc' waiting w' wk' m' next after)

variable {analyse : Analyser} {dep : Dependency} {s : Script Value} {sc sc' sc'' : Scene}
  {waiting : List WaitingPath} {w : World} {wk : Walk} {m : Machine} {pos mid next n : Nat}
  {before between after sketches : List Sketch} {owners owners' : Set OwnerId}

theorem Passes.trans (h : Passes analyse dep s sc sc' pos mid before between owners)
    (h' : Passes analyse dep s sc' sc'' mid next between after owners') (hr : sc'.region = sc.region)
    (hle : mid ≤ next) :
    Passes analyse dep s sc sc'' pos next before after (owners ∪ owners') := by
  intro waiting w wk m hw harr
  refine Comes.andThen (h waiting w wk m (fun p hp => Nat.le_trans hle (hw p hp)) harr) ?_
  intro w' wk' m' _ harr'
  have hrest := h' waiting w' wk' m' hw harr'
  rw [hr] at hrest
  exact hrest

/-- The second piece notes nothing. -/
theorem Passes.quietly (h : Passes analyse dep s sc sc' pos mid before between owners)
    (h' : Passes analyse dep s sc' sc'' mid next between after ∅) (hr : sc'.region = sc.region)
    (hle : mid ≤ next) : Passes analyse dep s sc sc'' pos next before after owners := by
  have hall := h.trans h' hr hle
  rwa [Set.union_empty] at hall

/-- One instruction. -/
theorem passes_instr {op : Opcode} (hi : s.HasInstr pos (op, n))
    (h : ∀ waiting w wk m, Alone sc waiting w wk m pos before → ∀ hn,
      After w (Since dep w owners fun wk' w' m' => Alone sc' waiting w' wk' m' (pos + 1) after)
        (walkInstr analyse dep s sc.region wk ⟨op, n, hn⟩ m)) :
    Passes analyse dep s sc sc' pos (pos + 1) before after owners := by
  intro waiting w wk m hw harr
  obtain ⟨hn, hi⟩ := hi
  refine Comes.instr harr (fun p hp => Nat.ne_of_gt (hw p hp)) hi fun w₁ wk₁ m₁ _ halone => ?_
  exact (h waiting w₁ wk₁ m₁ halone hn).mono fun _ _ _ _ hdone =>
    ⟨hdone.notes, hdone.holds.arrived⟩

/-- A constant that shows no node. -/
theorem passes_pushConst {v : Value} (hi : s.HasInstr pos (.pushConst, n))
    (hv : s.constants[n]? = some v) (hknown : ∀ w : World, w.Knows v)
    (hshows : ∀ old, Pictures old v ∅) :
    Passes analyse dep s sc sc pos (pos + 1) sketches (.nodes ∅ :: sketches) ∅ := by
  refine passes_instr hi fun waiting w wk m h _ => ?_
  have hconstant : ofExcept (s.constantAt wk.pos n) m = (.ok v, m) := by
    rw [constantAt_eq hv]
    rfl
  obtain ⟨f, hs, hf⟩ := h.shows.frame
  exact After.bind_ok hconstant (after_pushed (d := .nodes ∅) h (.refl w) h.ground.fits hs hf
    rfl (hknown w) (hshows w.old) (notes_of_eq rfl dep))

/-- A variable that is registered, or bound in the scene. -/
theorem passes_getVar {x : Variable} (hi : s.HasInstr pos (.getVar, x.id)) (hx : sc.Has x)
    (hdep : dep.isDummy = false) :
    Passes analyse dep s sc sc pos (pos + 1) sketches (.nodes (sc.nodesOf x) :: sketches)
      (sc.registry.ownersOf x) := by
  refine passes_instr hi fun waiting w wk m h _ => ?_
  refine (after_variableInPass h.ground.fits x dep).bind ?_
  rintro v w₁ m₁ hle h₁ ⟨hv, hcontext, hnode, hbound⟩
  obtain ⟨f, hs, hf⟩ := h.shows.frame
  have hs₁ : m₁.context.stack = f ++ sc.below := (congrArg Context.stack hcontext).trans hs
  have henv : m₁.context.env = m.context.env := congrArg Context.env hcontext
  unfold Scene.nodesOf Registry.nodesOf Registry.ownersOf
  beta_reduce
  rw [h.ground.registry] at hnode hbound
  cases hg : sc.registry.lookup? x with
  | some g =>
    obtain ⟨id, hn, rfl⟩ := (hnode g hg).1 h.ground.separates
    have hshows : w₁.Shows (.nodes {g}) (.object id (.placeholder g)) :=
      .placeholder (hle.old.symm ▸ hn)
    exact after_pushed h hle h₁ hs₁ hf henv hv hshows ((hnode g hg).2 hdep)
  | none =>
    obtain ⟨rfl, hdependents⟩ := hbound hg
    cases hset : sc.vars x with
    | none => exact absurd hset (hx.resolve_left fun hno => hno hg)
    | some set =>
      obtain ⟨v, hslot, hpictures⟩ := h.shows.vars x set hset
      have hget : m.context.env.get? x = some v := congrArg (Option.map Slot.value) hslot
      rw [hget] at hv ⊢
      have hshows : w₁.Shows (.nodes set) v := hle.shows (d := .nodes set) hpictures
      exact after_pushed h hle h₁ hs₁ hf henv hv hshows (notes_of_eq hdependents dep)

/-- A member with a constant name. -/
theorem passes_member {name : String} {set : Set Node} (hi : s.HasInstr pos (.memberC, n))
    (hname : s.constants[n]? = some (.string name)) (hdep : dep.isDummy = false) :
    Passes analyse dep s sc sc pos (pos + 1) (.nodes set :: sketches)
      (.nodes (membersOf name set) :: sketches) (ownersAmong (membersOf name set)) := by
  refine passes_instr hi fun waiting w wk m h _ => ?_
  obtain ⟨v, rest, hs, hv, hshows, hrest, hfit, htake⟩ := h.takes
  have hconstant : ofExcept (s.constantAt wk.pos n) m = (.ok (.string name), m) := by
    rw [constantAt_eq hname]
    rfl
  refine After.bind_ok hconstant (After.bind_ok htake ?_)
  have hread := after_memberInPass hshows hv name hdep (.refl w) h.ground.separates hfit.store
  refine (after_store hfit hread).bind ?_
  rintro u w₁ m₁ hle h₁ ⟨⟨hu, hpictures, hnotes⟩, hcontext⟩
  have hpictures' : w₁.Shows (.nodes (membersOf name set)) u := hle.shows (d := .nodes _) hpictures
  have henv : m₁.context.env = m.context.env := by
    rw [hcontext]
    rfl
  exact after_pushed h hle h₁ (congrArg Context.stack hcontext) hrest henv hu hpictures' hnotes

/-- An operator on one value, unless it starts an iteration. -/
theorem passes_unary {op : UnaryOp} (hop : op ≠ .iteratorC) {d : Sketch}
    (hi : s.HasInstr pos (.unary, Family.code op)) :
    Passes analyse dep s sc sc pos (pos + 1) (d :: sketches) (.nodes ∅ :: sketches) ∅ := by
  refine passes_instr hi fun waiting w wk m h _ => ?_
  obtain ⟨v, rest, -, -, -, hrest, hfit, htake⟩ := h.takes
  have hcode := ofExcept_operatorAt op.find?_code wk.pos (m.withStack (rest ++ sc.below))
  have hnil : v.unaryInPass op dep = (pure .nil : StateM Store Value) := by
    cases op with
    | iteratorC => exact absurd rfl hop
    | negate | not => rfl
  refine After.bind_ok htake (After.bind_ok hcode ?_)
  rw [hnil]
  exact After.bind_ok rfl (after_pushed (d := .nodes ∅) h (.refl w) hfit rfl hrest rfl
    (knows_nil w) (pictures_nil w.old) (notes_of_eq rfl dep))

/-- An operator on two values, unless it reads a member. -/
theorem passes_binary {op : BinaryOp} (hop : op ≠ .member) {d e : Sketch}
    (hi : s.HasInstr pos (.binary, Family.code op)) :
    Passes analyse dep s sc sc pos (pos + 1) (e :: d :: sketches)
      (Sketch.operated op d e :: sketches) ∅ := by
  refine passes_instr hi fun waiting w wk m h _ => ?_
  obtain ⟨b, rest₁, hs, hb, he, hrest₁, hfit₁, htake₁⟩ := h.takes
  cases hrest₁ with
  | @cons d a sketches rest hd hrest =>
    have htake₂ := take_eq (f := a :: rest) (m := m.withStack (a :: rest ++ sc.below))
      h.ground.base rfl
    have ha : w.Knows a := hfit₁.stack a List.mem_cons_self
    have hfit₂ : w.Fits (m.withStack (rest ++ sc.below)) :=
      hfit₁.setStack fun x hx => hfit₁.stack x (List.mem_cons_of_mem _ hx)
    have hcode := ofExcept_operatorAt op.find?_code wk.pos m
    refine After.bind_ok hcode (After.bind_ok htake₁ (After.bind_ok htake₂ ?_))
    have hresult := (after_operator hfit₂.store h.ground.separates hop ha hb hd he dep).quiet
      hfit₂.store (quiet_operator hop a b dep)
    refine (after_store hfit₂ hresult).bind ?_
    rintro u w₁ m₁ hle h₁ ⟨⟨⟨hu, hshows⟩, hquiet⟩, hcontext⟩
    have henv : m₁.context.env = m.context.env := by
      rw [hcontext]
      rfl
    exact after_pushed h hle h₁ (congrArg Context.stack hcontext) hrest henv hu hshows
      (notes_of_eq hquiet dep)

/-- A copy of the top. -/
theorem passes_dup {d : Sketch} (hi : s.HasInstr pos (.dup, 0)) :
    Passes analyse dep s sc sc pos (pos + 1) (d :: sketches) (d :: d :: sketches) ∅ := by
  refine passes_instr hi fun waiting w wk m h _ => ?_
  obtain ⟨v, rest, hs, hv, hshows, hrest, -⟩ := h.takes
  refine After.bind_ok (run_frame (f := v :: rest) hs h.ground.base) ?_
  have hboth : List.Forall₂ w.Shows (d :: sketches) (v :: rest) := .cons hshows hrest
  exact after_pushed h (.refl w) h.ground.fits hs hboth rfl hv hshows (notes_of_eq rfl dep)

/-- The top is dropped. -/
theorem passes_pop {d : Sketch} (hi : s.HasInstr pos (.pop, 0)) :
    Passes analyse dep s sc sc pos (pos + 1) (d :: sketches) sketches ∅ := by
  refine passes_instr hi fun waiting w wk m h _ => ?_
  obtain ⟨v, m', htake, h'⟩ := h.drops
  exact After.bind_ok htake (after_pure h'.ground.fits (since_self h'.next))

/-! ## Branches -/

/-- A path joined with one whose frame differs in the top. -/
theorem Arrived.joinedTop {d e : Sketch} {path : WaitingPath}
    (h : Arrived sc (path :: waiting) w wk m pos (e :: sketches)) (htarget : path.target = pos)
    (hpath : PathShows sc w (d :: sketches) path) :
    Arrived sc waiting w wk m pos (e.join d :: sketches) := by
  have hjoined := h.joined htarget hpath rfl
  have hframes : joinFrames (e :: sketches) (d :: sketches) = e.join d :: sketches :=
    congrArg (e.join d :: ·) (joinFrames_self sketches)
  exact hframes ▸ hjoined

/-- A short circuit: the condition is kept for the path that jumps over the code. -/
theorem passes_shortCircuit {op : Opcode} {d e : Sketch} (hop : op = .jumpScAnd ∨ op = .jumpScOr)
    (hi : s.HasInstr pos (op, next))
    (hy : Passes analyse dep s sc sc (pos + 1) next sketches (e :: sketches) owners)
    (hlt : pos < next) :
    Passes analyse dep s sc sc pos next (d :: sketches) (e.join d :: sketches) owners := by
  intro waiting w wk m hw harr
  obtain ⟨hn, hi⟩ := hi
  have hjump : Comes analyse dep s sc.region w wk m (Since dep w ∅ fun wk' w' m' =>
      ∃ path, path.target = next ∧ PathShows sc w' (d :: sketches) path ∧
        Arrived sc (path :: waiting) w' wk' m' (pos + 1) sketches) := by
    refine Comes.instr harr (fun p hp => Nat.ne_of_gt (Nat.lt_of_lt_of_le hlt (hw p hp))) hi ?_
    intro w₁ wk₁ m₁ _ h
    obtain ⟨path, hrun, htarget, hpath, hwaits⟩ := h.waits next
    obtain ⟨v, m₂, htake, hdrops⟩ := hwaits.drops
    have hbranch : walkBranch sc.region wk₁ next m₁ = (.ok (wk₁.wait path), m₁) := by
      rw [run_walkBranch_forward _ _ (h.pos_eq ▸ hlt)]
      cases hrun
      rfl
    rcases hop with rfl | rfl
    all_goals
      refine after_target (After.bind_ok hbranch (After.bind_ok htake ?_))
      exact after_pure hdrops.ground.fits
        (since_self ⟨path, htarget, hpath, hdrops.next.arrived⟩)
  refine hjump.quietly ?_
  rintro w₁ wk₁ m₁ - ⟨path, htarget, hpath, harr₁⟩
  have hw₁ : ∀ p ∈ path :: waiting, next ≤ p.target :=
    List.forall_mem_cons.2 ⟨Nat.le_of_eq htarget.symm, hw⟩
  refine (hy (path :: waiting) w₁ wk₁ m₁ hw₁ harr₁).mono fun w₂ wk₂ m₂ hle hdone => ?_
  exact ⟨hdone.notes, hdone.holds.joinedTop htarget (hpath.later hle)⟩

/-- At a branch the path that jumps waits. -/
theorem comes_jumpIfNot {c : Sketch} (hi : s.HasInstr pos (.jumpIfNot, n)) (hlt : pos < n)
    (hw : ∀ p ∈ waiting, n ≤ p.target) (harr : Arrived sc waiting w wk m pos (c :: sketches)) :
    Comes analyse dep s sc.region w wk m (Since dep w ∅ fun wk' w' m' =>
      ∃ path, path.target = n ∧ PathShows sc w' sketches path ∧
        Arrived sc (path :: waiting) w' wk' m' (pos + 1) sketches) := by
  obtain ⟨hn, hi⟩ := hi
  refine Comes.instr harr (fun p hp => Nat.ne_of_gt (Nat.lt_of_lt_of_le hlt (hw p hp))) hi ?_
  intro w₁ wk₁ m₁ _ h
  obtain ⟨v, m₂, htake, hdrops⟩ := h.drops
  obtain ⟨path, hrun, htarget, hpath, hwaits⟩ := hdrops.waits n
  have hbranch : walkBranch sc.region wk₁ n m₂ = (.ok (wk₁.wait path), m₂) := by
    rw [run_walkBranch_forward _ _ (h.pos_eq ▸ hlt)]
    cases hrun
    rfl
  refine after_target (After.bind_ok htake (After.bind_ok hbranch ?_))
  exact after_pure hwaits.ground.fits (since_self ⟨path, htarget, hpath, hwaits.next.arrived⟩)

/-- At the end of the piece before it, the path that waits behind a jump goes on, and the one that
jumps waits. -/
theorem comes_jump {path : WaitingPath} {others : List Sketch} (hi : s.HasInstr pos (.jump, next))
    (hlt : pos + 1 < next) (hw : ∀ p ∈ waiting, next ≤ p.target) (htarget : path.target = pos + 1)
    (hpath : PathShows sc w others path)
    (harr : Arrived sc (path :: waiting) w wk m pos sketches) :
    Comes analyse dep s sc.region w wk m (Since dep w ∅ fun wk' w' m' =>
      ∃ last, last.target = next ∧ PathShows sc w' sketches last ∧
        Arrived sc (last :: waiting) w' wk' m' (pos + 1) others) := by
  obtain ⟨hn, hi⟩ := hi
  have hlater : ∀ p ∈ path :: waiting, p.target ≠ pos := by
    refine List.forall_mem_cons.2 ⟨by omega, fun p hp => ?_⟩
    have := hw p hp
    omega
  have hends : Comes analyse dep s sc.region w wk m (Since dep w ∅ fun wk' w' m' =>
      ∃ last, last.target = next ∧ PathShows sc w' sketches last ∧ Ground sc w' wk' m' ∧
        wk'.live = false ∧ wk'.pending.Perm (path :: last :: waiting)) := by
    refine Comes.instr harr hlater hi fun w₁ wk₁ m₁ _ h => ?_
    obtain ⟨last, hrun, hlast, hshows, hwaits⟩ := h.waits next
    have hlt₁ : next > wk₁.pos := by
      rw [h.pos_eq]
      omega
    show After w₁ _ (walkJump s sc.region wk₁ next m₁)
    unfold walkJump
    refine after_target ?_
    simp only [if_pos hlt₁]
    refine After.bind_ok hrun (after_pure h.ground.fits (since_self ⟨last, hlast, hshows, ?_⟩))
    exact ⟨hwaits.ground.stop, rfl, hwaits.pending.trans (.swap _ _ _)⟩
  refine hends.quietly ?_
  rintro w₁ wk₁ m₁ hle ⟨last, hlast, hshows, hground, hlive, hpending⟩
  have hfirst : ∀ p ∈ last :: waiting, path.target < p.target := by
    refine List.forall_mem_cons.2 ⟨by omega, fun p hp => ?_⟩
    have := hw p hp
    omega
  refine (Comes.resume hground hlive hpending hfirst (hpath.later hle)).mono ?_
  rintro w₂ wk₂ m₂ hle₂ ⟨hquiet, harr₂⟩
  exact ⟨notes_of_eq hquiet dep, last, hlast, hshows.later hle₂, htarget ▸ harr₂⟩

/-- Either of two pieces of code runs on the same operands. The first one is followed while the second
one waits, and its end then waits for that of the second one. -/
theorem passes_choice {jump : Nat} {c d e : Sketch} (hif : s.HasInstr pos (.jumpIfNot, jump + 1))
    (hthen : Passes analyse dep s sc sc (pos + 1) jump sketches (d :: sketches) owners)
    (hjump : s.HasInstr jump (.jump, next))
    (helse : Passes analyse dep s sc sc (jump + 1) next sketches (e :: sketches) owners')
    (hlt : pos < jump) (hlt' : jump + 1 < next) :
    Passes analyse dep s sc sc pos next (c :: sketches) (e.join d :: sketches)
      (owners ∪ owners') := by
  intro waiting w wk m hw harr
  have hw' : ∀ p ∈ waiting, jump + 1 ≤ p.target := fun p hp =>
    Nat.le_trans (Nat.le_of_lt hlt') (hw p hp)
  refine (comes_jumpIfNot hif (Nat.lt_succ_of_lt hlt) hw' harr).quietly ?_
  rintro w₁ wk₁ m₁ - ⟨path, htarget, hpath, harr₁⟩
  have hw₁ : ∀ p ∈ path :: waiting, jump ≤ p.target :=
    List.forall_mem_cons.2 ⟨by omega, fun p hp => Nat.le_of_succ_le (hw' p hp)⟩
  refine Comes.andThen (hthen (path :: waiting) w₁ wk₁ m₁ hw₁ harr₁) fun w₂ wk₂ m₂ hle₂ harr₂ => ?_
  refine (comes_jump hjump hlt' hw htarget (hpath.later hle₂) harr₂).quietly ?_
  rintro w₃ wk₃ m₃ - ⟨last, hlast, hshows, harr₃⟩
  have hw₃ : ∀ p ∈ last :: waiting, next ≤ p.target :=
    List.forall_mem_cons.2 ⟨Nat.le_of_eq hlast.symm, hw⟩
  refine (helse (last :: waiting) w₃ wk₃ m₃ hw₃ harr₃).mono fun w₄ wk₄ m₄ hle₄ hdone => ?_
  exact ⟨hdone.notes, hdone.holds.joinedTop hlast (hshows.later hle₄)⟩

end Run

/-! ## Expressions -/

/-- The nodes that what a binary operator gives may be. -/
def BinaryOp.nodes (op : BinaryOp) (set other : Set Node) : Set Node :=
  match op with
  | .add | .orElse => set ∪ other
  | _ => ∅

theorem operated_nodes (op : BinaryOp) (set other : Set Node) :
    Sketch.operated op (.nodes set) (.nodes other) = .nodes (op.nodes set other) := by
  cases op <;> rfl

namespace Expression

/-- No variable is bound, no iteration started and no name computed, and only `known` variables are
read. -/
def Plain (known : Variable → Prop) : Expression → Prop
  | const _ => True
  | var x => known x
  | member a _ => a.Plain known
  | unary op a => op ≠ .iteratorC ∧ a.Plain known
  | binary op a b => op ≠ .member ∧ a.Plain known ∧ b.Plain known
  | doubled op a => op ≠ .member ∧ a.Plain known
  | ite c t e => c.Plain known ∧ t.Plain known ∧ e.Plain known
  | and a b => a.Plain known ∧ b.Plain known
  | or a b => a.Plain known ∧ b.Plain known
  | set _ _ => False
  | seq a b => a.Plain known ∧ b.Plain known

theorem Plain.mono {known known' : Variable → Prop} (h : ∀ x, known x → known' x) {e : Expression}
    (he : e.Plain known) : e.Plain known' := by
  induction e with
  | const c => trivial
  | var x => exact h x he
  | member a name ih => exact ih he
  | unary op a ih | doubled op a ih => exact ⟨he.1, ih he.2⟩
  | binary op a b iha ihb => exact ⟨he.1, iha he.2.1, ihb he.2.2⟩
  | ite c t e ihc iht ihe => exact ⟨ihc he.1, iht he.2.1, ihe he.2.2⟩
  | and a b iha ihb | or a b iha ihb | seq a b iha ihb => exact ⟨iha he.1, ihb he.2⟩
  | set x a ih => exact he

/-- The nodes that the value may be, given those of the variables. -/
def nodes (of : Variable → Set Node) : Expression → Set Node
  | const _ => ∅
  | var x => of x
  | member a name => membersOf name (a.nodes of)
  | unary _ _ => ∅
  | binary op a b => op.nodes (a.nodes of) (b.nodes of)
  | doubled op a => op.nodes (a.nodes of) (a.nodes of)
  | ite _ t e => e.nodes of ∪ t.nodes of
  | and a b => b.nodes of ∪ a.nodes of
  | or a b => b.nodes of ∪ a.nodes of
  | set _ a => a.nodes of
  | seq _ b => b.nodes of

/-- The owners that are read, whichever way the branches go. -/
def readings (registry : Registry) (of : Variable → Set Node) : Expression → Set OwnerId
  | const _ => ∅
  | var x => registry.ownersOf x
  | member a name => a.readings registry of ∪ ownersAmong (membersOf name (a.nodes of))
  | unary _ a => a.readings registry of
  | binary _ a b => a.readings registry of ∪ b.readings registry of
  | doubled _ a => a.readings registry of
  | ite c t e => c.readings registry of ∪ (t.readings registry of ∪ e.readings registry of)
  | and a b => a.readings registry of ∪ b.readings registry of
  | or a b => a.readings registry of ∪ b.readings registry of
  | set _ a => a.readings registry of
  | seq a b => a.readings registry of ∪ b.readings registry of

end Expression

namespace Run

open World

variable {analyse : Analyser} {dep : Dependency} {s : Script Value} {sc : Scene}
  {pos next n : Nat} {sketches : List Sketch}

theorem knows_scalar (c : Scalar) (w : World) : w.Knows c.value := by
  cases c <;> exact knows_made trivial nofun nofun

theorem pictures_scalar (c : Scalar) (old : Ident → Prop) : Pictures old c.value ∅ := by
  cases c <;> exact .scalar nofun nofun

/-- A pass over the code of an expression leaves a value that may be the nodes of the expression, and
notes its readings. -/
theorem passes_expression {e : Expression} (hplain : e.Plain sc.Has) (hdep : dep.isDummy = false)
    (hcode : s.HasCode pos (e.code pos n)) (hconst : s.HasConstants n e.constants) :
    Passes analyse dep s sc sc pos (pos + e.size) sketches (.nodes (e.nodes sc.nodesOf) :: sketches)
      (e.readings sc.registry sc.nodesOf) := by
  induction e generalizing pos n sketches with
  | const c => exact passes_pushConst hcode.1 hconst.1 (knows_scalar c) (pictures_scalar c)
  | var x => exact passes_getVar hcode.1 hplain hdep
  | member a name ih =>
    obtain ⟨hcode, hlast, -⟩ := eachAt_append.1 hcode
    obtain ⟨hconst, hname, -⟩ := eachAt_append.1 hconst
    rw [Expression.length_code] at hlast
    exact (ih hplain hcode hconst).trans (passes_member hlast hname hdep) rfl (Nat.le_succ _)
  | unary op a ih =>
    obtain ⟨hop, hplain⟩ := hplain
    obtain ⟨hcode, hlast, -⟩ := eachAt_append.1 hcode
    rw [Expression.length_code] at hlast
    exact (ih hplain hcode hconst).quietly (passes_unary hop hlast) rfl (Nat.le_succ _)
  | binary op a b iha ihb =>
    obtain ⟨hop, ha, hb⟩ := hplain
    obtain ⟨hab, hlast, -⟩ := eachAt_append.1 hcode
    obtain ⟨hcodeA, hcodeB⟩ := eachAt_append.1 hab
    obtain ⟨hconstA, hconstB⟩ := eachAt_append.1 hconst
    rw [Expression.length_code] at hcodeB
    rw [List.length_append, Expression.length_code, Expression.length_code, ← Nat.add_assoc] at hlast
    have hend : pos + (Expression.binary op a b).size = pos + a.size + b.size + 1 := by
      simp only [Expression.size]
      omega
    rw [hend, Expression.nodes, ← operated_nodes]
    refine Passes.quietly ?_ (passes_binary hop hlast) rfl (Nat.le_succ _)
    exact (iha ha hcodeA hconstA).trans (ihb hb hcodeB hconstB) rfl (Nat.le_add_right _ _)
  | doubled op a ih =>
    obtain ⟨hop, hplain⟩ := hplain
    obtain ⟨hcode, hdup, hlast, -⟩ := eachAt_append.1 hcode
    rw [Expression.length_code] at hdup hlast
    rw [Expression.nodes, ← operated_nodes]
    refine Passes.quietly ?_ (passes_binary hop hlast) rfl (Nat.le_succ _)
    exact (ih hplain hcode hconst).quietly (passes_dup hdup) rfl (Nat.le_succ _)
  | ite c t e ihc iht ihe =>
    obtain ⟨hc, ht, he⟩ := hplain
    obtain ⟨hcodeC, hif, hrest⟩ := eachAt_append.1 hcode
    rw [Expression.length_code] at hif hrest
    obtain ⟨hcodeT, hjump, hcodeE⟩ := eachAt_append.1 hrest
    obtain ⟨hconstCT, hconstE⟩ := eachAt_append.1 hconst
    obtain ⟨hconstC, hconstT⟩ := eachAt_append.1 hconstCT
    rw [Expression.length_code] at hjump hcodeE
    rw [List.length_append, ← Nat.add_assoc] at hconstE
    have hpos := e.size_pos
    have hend : pos + (Expression.ite c t e).size = pos + c.size + 1 + t.size + 1 + e.size := by
      simp only [Expression.size]
      omega
    rw [hend]
    refine (ihc hc hcodeC hconstC).trans ?_ rfl (by omega)
    exact passes_choice hif (iht ht hcodeT hconstT) hjump (ihe he hcodeE hconstE) (by omega)
      (by omega)
  | and a b iha ihb | or a b iha ihb =>
    obtain ⟨ha, hb⟩ := hplain
    obtain ⟨hcodeA, hjump, hcodeB⟩ := eachAt_append.1 hcode
    obtain ⟨hconstA, hconstB⟩ := eachAt_append.1 hconst
    rw [Expression.length_code] at hjump hcodeB
    have hend : pos + (a.size + b.size + 1) = pos + a.size + 1 + b.size := by omega
    simp only [Expression.size]
    rw [hend]
    refine (iha ha hcodeA hconstA).trans ?_ rfl (by omega)
    exact passes_shortCircuit (by decide) hjump (ihb hb hcodeB hconstB) (by omega)
  | set x a ih => exact absurd hplain id
  | seq a b iha ihb =>
    obtain ⟨ha, hb⟩ := hplain
    obtain ⟨hcodeA, hpop, hcodeB⟩ := eachAt_append.1 hcode
    obtain ⟨hconstA, hconstB⟩ := eachAt_append.1 hconst
    rw [Expression.length_code] at hpop hcodeB
    have hend : pos + (Expression.seq a b).size = pos + a.size + 1 + b.size := by
      simp only [Expression.size]
      omega
    rw [hend]
    refine Passes.trans ?_ (ihb hb hcodeB hconstB) rfl (Nat.le_add_right _ _)
    exact (iha ha hcodeA hconstA).quietly (passes_pop hpop) rfl (Nat.le_succ _)

end Run

end ReactiveScript
