import ReactiveScript.Proofs.GroupList

/-
  What a pass reads in a loop over groups.

  The loop binds each group of a list to a variable in turn. A pass goes over the body once, with the
  first group of the list alone: the iterator of a union is that of its left side. So it notes what the
  body reads of that group and nothing that the body reads of the others (`noted_iff`), although an
  evaluation goes over the body with each group in turn.
-/

namespace ReactiveScript

/-- A loop over a list of groups, which combines what its body gives with what it has so far. -/
structure GroupLoop where
  source : GroupList
  /-- What the loop starts with. -/
  start : Scalar
  /-- The variable of the key, if the loop binds one. -/
  key : Option Variable
  element : Variable
  body : Expression
  op : BinaryOp

namespace GroupLoop

/-- Append instructions that bind a variable to the top and drop it. -/
def emitBinding (x : Variable) (b : Builder) : Builder := (b.setVar x).pop

/-- The opcode at the head of the loop. -/
def headOpcode (l : GroupLoop) : Opcode := if l.key.isSome then .loopWithKey else .loop

/-- The builder of a loop, which returns what it has in the end. -/
def assemble (l : GroupLoop) : Builder :=
  let b := ((l.source.emit .empty).unary .iteratorC).pushConst l.start.value
  let head := b.position
  let (done, b) := b.jumpAhead l.headOpcode
  let b := l.key.elim (emitBinding l.element b) fun k => emitBinding k (emitBinding l.element b)
  let b := ((l.body.emit b).binary l.op).append .jump head
  (b.landHere done).ret

/-- The variables that the loop binds. -/
def bound (l : GroupLoop) : List Variable := l.element :: l.key.toList

/-- The position of the head. -/
def head (l : GroupLoop) : Nat := l.source.size + 2

/-- The instructions that bind the element and its key. -/
def bindings (l : GroupLoop) : List (Opcode × Nat) :=
  [(.setVar, l.element.id), (.pop, 0)] ++ l.key.elim [] fun k => [(.setVar, k.id), (.pop, 0)]

/-- The position of the body. -/
def bodyStart (l : GroupLoop) : Nat := l.head + 1 + l.bindings.length

/-- The position of the jump back to the head. -/
def back (l : GroupLoop) : Nat := l.bodyStart + l.body.size + 1

/-- The position behind the loop. -/
def exit (l : GroupLoop) : Nat := l.back + 1

/-- The constants in the order of their use. -/
def constants (l : GroupLoop) : List Value :=
  l.source.constants ++ [l.start.value] ++ l.body.constants

/-- The instructions before the head. -/
def prelude (l : GroupLoop) : List (Opcode × Nat) :=
  l.source.code 0 0 ++ [(.unary, Family.code UnaryOp.iteratorC)] ++
    [(.pushConst, l.source.constants.length)]

/-- The instructions between the head and the exit. -/
def inside (l : GroupLoop) : List (Opcode × Nat) :=
  l.bindings ++ l.body.code l.bodyStart (l.source.constants.length + 1) ++
    [(.binary, Family.code l.op)] ++ [(.jump, l.head)]

/-- The instructions of the loop. -/
def listing (l : GroupLoop) : List (Opcode × Nat) :=
  l.prelude ++ (l.headOpcode, l.exit) :: l.inside ++ [(.ret, 0)]

theorem length_prelude (l : GroupLoop) : l.prelude.length = l.head := by
  simp only [prelude, List.length_append, GroupList.length_code, List.length_singleton, head]

theorem length_inside (l : GroupLoop) : l.head + 1 + l.inside.length = l.exit := by
  simp only [inside, List.length_append, Expression.length_code, List.length_singleton, exit, back,
    bodyStart]
  omega

theorem emitBinding_adds (x : Variable) (b : Builder) :
    b.Adds (emitBinding x b) [(.setVar, x.id), (.pop, 0)] [] :=
  (b.adds_append .setVar x.id).trans ((b.setVar x).adds_append .pop 0)

theorem assemble_adds (l : GroupLoop) : Builder.Adds .empty l.assemble l.listing l.constants := by
  let b₁ := (l.source.emit .empty).unary .iteratorC
  let b₂ := b₁.pushConst l.start.value
  let b₃ := b₂.append l.headOpcode 0
  let b₄ := l.key.elim (emitBinding l.element b₃) fun k => emitBinding k (emitBinding l.element b₃)
  have hsource := l.source.emit_adds .empty
  have h₁ := hsource.trans ((l.source.emit .empty).adds_append .unary (Family.code UnaryOp.iteratorC))
  rw [List.append_nil] at h₁
  have hsize₁ : b₁.constants.size = l.source.constants.length :=
    h₁.size_constants.trans (Nat.zero_add _)
  have h₂ : Builder.Adds .empty b₂ l.prelude (l.source.constants ++ [l.start.value]) := by
    have h := h₁.trans (b₁.adds_onConstant .pushConst l.start.value)
    rw [hsize₁] at h
    exact h
  have hhead : b₂.position = l.head := by
    rw [h₂.position_eq]
    exact (Nat.zero_add _).trans l.length_prelude
  have hsize₂ : b₂.constants.size = l.source.constants.length + 1 := by
    rw [h₂.size_constants, List.length_append]
    exact Nat.zero_add _
  have hbind : b₃.Adds b₄ l.bindings [] := by
    have helement := emitBinding_adds l.element b₃
    show b₃.Adds (l.key.elim _ _) (_ ++ l.key.elim _ _) []
    cases l.key with
    | none => exact helement
    | some k => exact helement.trans (emitBinding_adds k _)
  have hbody : b₄.position = l.bodyStart := by
    rw [hbind.position_eq, Builder.position_append, hhead]
    rfl
  have hsize₄ : b₄.constants.size = l.source.constants.length + 1 := by
    rw [hbind.size_constants, Builder.size_constants_append, hsize₂]
    rfl
  have hinside : b₃.Adds (((l.body.emit b₄).binary l.op).append .jump b₂.position) l.inside
      l.body.constants := by
    have h := hbind.trans (l.body.emit_adds b₄)
    rw [hbody, hsize₄] at h
    have h := (h.trans ((l.body.emit b₄).adds_append .binary (Family.code l.op))).trans
      (((l.body.emit b₄).binary l.op).adds_append .jump b₂.position)
    rw [List.append_nil, List.append_nil, List.nil_append, hhead] at h
    rw [hhead]
    exact h
  have hexit : (((l.body.emit b₄).binary l.op).append .jump b₂.position).position = l.exit := by
    rw [hinside.position_eq, Builder.position_append, hhead, l.length_inside]
  have hloop := h₂.jumpOver l.headOpcode hinside
  rw [hexit] at hloop
  have h := hloop.trans (Builder.adds_append _ .ret 0)
  rw [List.append_nil] at h
  exact h

/-- What is built from a loop has its code and its constants. -/
theorem built_eq {l : GroupLoop} {st st' : Store} {b : Builder} {s : Script Value}
    (h : l.assemble.build st = ((.ok s, b), st')) :
    (s.code.toList.map fun i => (i.opcode, i.operand)) = l.listing ∧
      s.constants.toList = l.constants := by
  exact l.assemble_adds.built h

/-- The source is made of registered variables, and the body reads only these and what the loop
binds. -/
structure Fits (l : GroupLoop) (registry : Registry) : Prop where
  source : l.source.Registered registry
  body : l.body.Plain fun x => registry.lookup? x ≠ none ∨ x ∈ l.bound
  op : l.op ≠ .member

/-- The nodes of a variable in the body, as the pass has it: the element is the first group. -/
def nodesOf (l : GroupLoop) (registry : Registry) : Variable → Set Node :=
  registry.nodesOf fun x =>
    if l.key = some x then ∅
    else if x = l.element then {g | l.source.first registry = some g} else ∅

/-- The owners that a pass finds. -/
def noted (l : GroupLoop) (registry : Registry) : Set OwnerId :=
  l.source.readings registry (registry.nodesOf fun _ => ∅) ∪
    l.body.readings registry (l.nodesOf registry)

end GroupLoop

/-- The scene in which a variable may be these nodes. -/
def Scene.bind (sc : Scene) (x : Variable) (set : Set Node) : Scene :=
  { sc with vars := fun y => if y = x then some set else sc.vars y }

/-- The scene without variables. -/
def Scene.bare (sc : Scene) : Scene := { sc with vars := fun _ => none }

/-- The scene of the body, in which the element may be these nodes. -/
def GroupLoop.scene (l : GroupLoop) (sc : Scene) (set : Set Node) : Scene :=
  l.key.elim (sc.bind l.element set) fun k => (sc.bind l.element set).bind k ∅

namespace Run

open World

variable {analyse : Analyser} {dep : Dependency} {s : Script Value} {sc : Scene}
  {waiting : List WaitingPath} {w : World} {wk : Walk} {m : Machine} {pos n : Nat}
  {sketches : List Sketch}

/-! ## Iterating -/

/-- Below `k` operands lies an iterator that yields a placeholder of the node next. -/
def Iterates (w : World) (m : Machine) (k : Nat) (first : Option Node) : Prop :=
  ∃ handle it, m.context.stack[k]? = some (.iterator handle) ∧
    m.store.iterations[handle]? = some it ∧ Yields w.old it first

/-- The iterator of a list. -/
theorem comes_iterator {first : Option Node}
    (hi : s.HasInstr pos (.unary, Family.code UnaryOp.iteratorC))
    (hlater : ∀ p ∈ waiting, pos < p.target)
    (harr : Arrived sc waiting w wk m pos (.list first :: sketches)) :
    Comes analyse dep s sc.region w wk m (Since dep w ∅ fun wk' w' m' =>
      Alone sc waiting w' wk' m' (pos + 1) (.nodes ∅ :: sketches) ∧ Iterates w' m' 0 first) := by
  obtain ⟨hn, hi⟩ := hi
  refine Comes.instr harr (fun p hp => Nat.ne_of_gt (hlater p hp)) hi fun w₁ wk₁ m₁ _ h => ?_
  obtain ⟨v, rest, -, hv, hshows, hrest, hfit, htake⟩ := h.takes
  have hcode := ofExcept_operatorAt UnaryOp.iteratorC.find?_code wk₁.pos
    (m₁.withStack (rest ++ sc.below))
  refine After.bind_ok htake (After.bind_ok hcode ?_)
  obtain ⟨handle, st, hrun, hquiet, -, it, hit, hyields⟩ := iteratorInPass_leads hshows dep m₁.store
  have hknown := after_iteratorInPass_of_le hv dep (.refl w₁) hfit.store
  have hstore : store (v.iteratorInPass dep) (m₁.withStack (rest ++ sc.below)) =
      (.ok (.iterator handle), ⟨(m₁.withStack (rest ++ sc.below)).context, st⟩) := by
    show (_, _) = _
    rw [show (m₁.withStack (rest ++ sc.below)).store = m₁.store from rfl, hrun]
  obtain ⟨w₂, hle₂, hfit₂, hv₂⟩ := hknown
  rw [show (m₁.withStack (rest ++ sc.below)).store = m₁.store from rfl, hrun] at hfit₂ hv₂
  have hquiet₂ : w₂.dependents = w₁.dependents := by
    rw [← hfit₂.dependents, hquiet, h.ground.fits.store.dependents]
  refine After.bind_ok hstore ?_
  intro wk' hok
  have hpushed := after_pushed_eq (d := .nodes ∅) h hle₂ (hfit.later hle₂ hfit₂) rfl hrest
    rfl hv₂ (pictures_iterator _ _) (notes_of_eq hquiet₂ dep)
  obtain ⟨w₃, hle₃, hfit₃, hnotes, halone, rfl, hm⟩ := hpushed wk' hok
  refine ⟨w₃, hle₂.trans hle₃, hfit₃, hnotes, halone, handle, it, ?_, ?_, hle₂.old ▸ hyields⟩
  · rw [hm]
    rfl
  · rw [hm]
    exact hit

/-- The element is pushed, with its key before it if the loop takes one. -/
theorem after_loopElement {first : Option Node} {c u : Value} {rest : List Value} {handle : Nat}
    {it : Iteration} (h : w.Fits m) (hu : u = .iterator handle)
    (hit : m.store.iterations[handle]? = some it) (hyields : Yields w.old it first) :
    After w (fun entry w' m' => (w'.Knows entry.1 ∧ w'.Knows entry.2) ∧
      w'.Shows (.nodes ∅) entry.1 ∧ w'.Shows (.nodes {g | first = some g}) entry.2 ∧
      m'.context = m.context ∧ w'.dependents = w.dependents) (loopElement (c :: u :: rest) m) := by
  subst hu
  obtain ⟨key, v, hnext, hkey, hv⟩ := hyields
  have hdrawn : (Store.drawEntry handle m.store).1 = some (key, v) := by
    show (m.store.iterations[handle]?.getD .empty).next.1 = _
    rw [hit]
    exact hnext
  have hrun : loopElement (c :: .iterator handle :: rest) m =
      (.ok (key, v), { m with store := (Store.drawEntry handle m.store).2 }) := by
    show (Except.ok ((Store.drawEntry handle m.store).1.getD (.nil, .nil)), _) = _
    rw [hdrawn]
    rfl
  obtain ⟨w₁, hle, hfit, hknown⟩ := after_drawEntry h.store handle
  have hquiet : w₁.dependents = w.dependents := hfit.dependents.symm.trans h.store.dependents
  intro entry he
  rw [hrun] at he ⊢
  cases he
  exact ⟨w₁, hle, h.later hle hfit, hknown _ hdrawn, hle.shows (d := .nodes _) hkey,
    hle.shows (d := .nodes _) hv, rfl, hquiet⟩

/-- What is pushed at the head of a loop, the top first. -/
def headSketches (withKey : Bool) (set : Set Node) : List Sketch :=
  .nodes set :: if withKey then [.nodes ∅] else []

/-- The mark of a loop that is entered is set. -/
theorem Alone.enters (h : Alone sc waiting w wk m pos sketches) :
    Alone { sc with enteredLoops := pos :: sc.enteredLoops } waiting w
      { wk with enteredLoops := wk.pos :: wk.enteredLoops }.next m (pos + 1) sketches := by
  obtain ⟨g, hlive, hpos, hpending, hshows⟩ := h
  refine ⟨⟨g.fits, g.separates, g.registry, g.mark, g.base, g.stack, g.inside, g.bounded, g.paths,
    g.result, g.backEdges, ?_⟩, hlive, congrArg (· + 1) hpos, hpending, hshows.frame, hshows.vars⟩
  exact congrArg₂ List.cons hpos g.enteredLoops

/-- At a loop the path to the exit keeps all operands but the iterator. -/
theorem Alone.exit {d e : Sketch} (h : Alone sc waiting w wk m pos (e :: d :: sketches))
    (target : Nat) : ∃ c u rest bindings, m.context.stack = c :: u :: rest ++ sc.below ∧
      suspendPath sc.region target m = (.ok ⟨target, c :: u :: rest, bindings⟩, m) ∧
      PathShows sc w (e :: sketches) ⟨target, c :: rest, bindings⟩ ∧
      w.KnowsPath ⟨target, c :: rest, bindings⟩ ∧ ∀ b ∈ bindings, sc.outer.BoundedAt b.1 := by
  obtain ⟨f, hs, hf⟩ := h.shows.frame
  cases hf with
  | @cons e c _ f he hf =>
    cases hf with
    | @cons d u _ rest hd hrest =>
      refine ⟨c, u, rest, m.context.env.reboundSince sc.region.mark, hs, ?_,
        ⟨.cons he hrest, (shows_suspended h.ground h.shows target).vars⟩,
        ⟨fun x hx => h.ground.fits.stack x ?_,
          (knowsPath_suspended h.ground.fits sc.region target).bindings⟩, bounded_suspended h.ground⟩
      · rw [suspendPath_eq, hs, take_append h.ground.base]
      · rw [hs]
        refine List.mem_append_left _ ?_
        rcases List.mem_cons.1 hx with rfl | hx
        · exact List.mem_cons_self
        · exact List.mem_cons_of_mem _ (List.mem_cons_of_mem _ hx)

variable (dep s) in
/-- A loop that is entered: its body goes on with the first element, and the exit waits. -/
theorem after_walkLoop_enter {first : Option Node} {d e : Sketch} (withKey : Bool) (target : Nat)
    (h : Alone sc waiting w wk m pos (e :: d :: sketches)) (hit : Iterates w m 1 first)
    (hnew : pos ∉ sc.enteredLoops) :
    After w (Since dep w ∅ fun wk' w' m' => ∃ path, path.target = target ∧
        PathShows sc w' (e :: sketches) path ∧
        Alone { sc with enteredLoops := pos :: sc.enteredLoops } (path :: waiting) w' wk' m' (pos + 1)
          (headSketches withKey {g | first = some g} ++ e :: d :: sketches))
      (walkLoop s sc.region wk target withKey m) := by
  obtain ⟨c, u, rest, bindings, hs, hsuspend, hexit, hknown, hbounded⟩ := h.exit target
  obtain ⟨handle, it, hu, hiter, hyields⟩ := hit
  rw [hs] at hu
  have hu : u = .iterator handle := Option.some.inj hu
  have hout : ¬ wk.enteredLoops.contains wk.pos := by
    rw [h.ground.enteredLoops, h.pos_eq, List.contains_iff_mem]
    exact hnew
  have hleft := h.leaves hknown hbounded
  unfold walkLoop
  refine after_target (After.bind_ok hsuspend ?_)
  dsimp only
  rw [if_neg hout]
  refine (after_loopElement h.ground.fits hu hiter hyields).bind ?_
  rintro ⟨key, v⟩ w₁ m₁ hle h₁ ⟨⟨hkeyKnown, hvKnown⟩, hkey, hv, hcontext, hquiet⟩
  have hnotes : Notes dep w w₁ ∅ := notes_of_eq hquiet dep
  cases withKey with
  | true =>
    have hpushed := hleft.pushes hle h₁ hcontext (.cons hv (.cons hkey .nil))
      (List.forall_mem_cons.2 ⟨hvKnown, List.forall_mem_singleton.2 hkeyKnown⟩)
    refine After.bind_ok (push_eq key m₁) (After.bind_ok (push_eq v _) ?_)
    exact after_pure hpushed.ground.fits ⟨hnotes, _, rfl, hexit.later hle, hpushed.enters⟩
  | false =>
    have hpushed := hleft.pushes hle h₁ hcontext (.cons hv .nil)
      (List.forall_mem_singleton.2 hvKnown)
    refine After.bind_ok (push_eq v m₁) ?_
    exact after_pure hpushed.ground.fits ⟨hnotes, _, rfl, hexit.later hle, hpushed.enters⟩

variable (dep) in
/-- A loop that was entered before: the path goes on at the exit, without the iterator. -/
theorem after_walkLoop_leave {d e : Sketch} {withKey : Bool} {target : Nat}
    (h : Alone sc waiting w wk m pos (e :: d :: sketches)) (hold : pos ∈ sc.enteredLoops) :
    After w (Since dep w ∅ fun wk' w' m' => ∃ path, path.target = target ∧
        PathShows sc w' (e :: sketches) path ∧ Ground sc w' wk' m' ∧ wk'.live = false ∧
        wk'.pending.Perm (path :: waiting))
      (walkLoop s sc.region wk target withKey m) := by
  obtain ⟨c, u, rest, bindings, hs, hsuspend, hexit, hknown, hbounded⟩ := h.exit target
  have hin : wk.enteredLoops.contains wk.pos := by
    rw [h.ground.enteredLoops, h.pos_eq, List.contains_iff_mem]
    exact hold
  have hset : setFrame sc.region.base (c :: rest) m =
      (.ok (), m.withStack ((c :: rest) ++ sc.below)) := by
    rw [setFrame_eq, hs, bottom_append h.ground.base]
  have hfit : w.Fits (m.withStack ((c :: rest) ++ sc.below)) := by
    refine h.ground.fits.setStack fun v hv => ?_
    refine (List.mem_append.1 hv).elim (hknown.frame v) fun hv => h.ground.fits.stack v ?_
    rw [hs]
    exact List.mem_append_right _ hv
  have hground : Ground sc w wk (m.withStack ((c :: rest) ++ sc.below)) :=
    h.ground.later (.refl w) hfit rfl rfl
  unfold walkLoop
  refine after_target (After.bind_ok hsuspend ?_)
  dsimp only
  rw [if_pos hin]
  refine After.bind_ok hset (after_pure hfit (since_self
    ⟨_, rfl, hexit, (hground.wait hknown hbounded).stop, rfl, ?_⟩))
  exact (List.perm_append_singleton _ _).trans (h.pending.cons _)

variable (analyse dep) in
theorem walkInstr_loop {withKey : Bool} {target : Nat} (hn : target < operandBound) :
    walkInstr analyse dep s sc.region wk ⟨if withKey then .loopWithKey else .loop, target, hn⟩ =
      walkLoop s sc.region wk target withKey := by
  cases withKey <;> rfl

/-! ## Binding -/

/-- A variable is bound to the top. -/
theorem passes_setVar {x : Variable} {set : Set Node} (hi : s.HasInstr pos (.setVar, x.id))
    (hx : sc.outer.BoundedAt x) :
    Passes analyse dep s sc (sc.bind x set) pos (pos + 1) (.nodes set :: sketches)
      (.nodes set :: sketches) ∅ := by
  refine passes_instr hi fun waiting w wk m h _ => ?_
  obtain ⟨v, rest, hs, hv, hshows, hrest, -⟩ := h.takes
  obtain ⟨top, hpeek, -, htop⟩ := peekOrNil_eq sc.region.base m
  obtain rfl : top = v := htop (v :: rest) sc.below h.ground.base hs
  have hfit : w.Fits (m.withEnv (m.context.env.set x top)) :=
    h.ground.fits.setEnv (h.ground.fits.env.set x hv)
  have hbounded : ∀ var set', (sc.bind x set).vars var = some set' → sc.outer.BoundedAt var := by
    intro var set' hvar
    by_cases he : var = x
    · exact he ▸ hx
    · exact h.ground.bounded var set' ((if_neg he).symm.trans hvar)
  have hground : Ground (sc.bind x set) w wk.next (m.withEnv (m.context.env.set x top)) :=
    ⟨hfit, h.ground.separates, h.ground.registry, h.ground.mark, h.ground.base, h.ground.stack,
      h.ground.inside.set hx top, hbounded, h.ground.paths, h.ground.result, h.ground.backEdges,
      h.ground.enteredLoops⟩
  refine After.bind_ok hpeek (After.bind_ok (bindVariable_eq x top m) (after_pure hfit (since_self
    ⟨hground, h.live, congrArg (· + 1) h.pos_eq, h.pending,
      ⟨top :: rest, hs, .cons hshows hrest⟩, ?_⟩)))
  intro var set' hvar
  show ∃ v, (m.context.env.set x top).slot? var = some ⟨(m.context.env.set x top).level, v⟩ ∧ _
  rw [Environment.slot?_set]
  by_cases he : x = var
  · subst he
    obtain rfl : set = set' := Option.some.inj ((if_pos rfl).symm.trans hvar)
    exact ⟨top, if_pos rfl, hshows⟩
  · obtain ⟨u, hu, hp⟩ := h.shows.vars var set' ((if_neg fun e => he e.symm).symm.trans hvar)
    exact ⟨u, (if_neg he).trans hu, hp⟩

/-- A variable is bound to the top, which is dropped. -/
theorem passes_binding {x : Variable} {set : Set Node}
    (hcode : s.HasCode pos [(.setVar, x.id), (.pop, 0)]) (hx : sc.outer.BoundedAt x) :
    Passes analyse dep s sc (sc.bind x set) pos (pos + 2) (.nodes set :: sketches) sketches ∅ :=
  (passes_setVar hcode.1 hx).quietly (passes_pop hcode.2.1) rfl (Nat.le_succ _)

/-- The element and its key are bound. -/
theorem passes_bindings {l : GroupLoop} {set : Set Node} (hcode : s.HasCode pos l.bindings)
    (hbounded : ∀ x ∈ l.bound, sc.outer.BoundedAt x) :
    Passes analyse dep s sc (l.scene sc set) pos (pos + l.bindings.length)
      (headSketches l.key.isSome set ++ sketches) sketches ∅ := by
  obtain ⟨source, start, key, element, body, op⟩ := l
  have helement := hbounded element List.mem_cons_self
  cases key with
  | none => exact passes_binding hcode helement
  | some k =>
    have hk := hbounded k (List.mem_cons_of_mem _ List.mem_cons_self)
    obtain ⟨hcode, hcodeKey⟩ := eachAt_append.1 hcode
    exact (passes_binding hcode helement).quietly
      (passes_binding hcodeKey hk) rfl (Nat.le_add_right (pos + 2) 2)

/-! ## Going round -/

theorem after_heedInterrupt (h : w.Fits m) :
    After w (fun _ w' m' => w' = w ∧ m' = m) (heedInterrupt m) := by
  have hrun : heedInterrupt m =
      (if m.store.interrupts[m.context.settings.interrupt]?.getD false then fail .interrupted
        else pure () : Run Unit) m := rfl
  rw [hrun]
  by_cases hi : m.store.interrupts[m.context.settings.interrupt]?.getD false = true
  · rw [if_pos hi]
    exact after_fail _
  · rw [if_neg hi]
    exact after_pure h ⟨rfl, rfl⟩

variable (sc) in
/-- A jump back that is taken for the first time. -/
theorem comes_jumpBack {target : Nat} (hi : s.HasInstr pos (.jump, target)) (hle : target ≤ pos)
    (hnew : pos ∉ sc.backEdges) (hlater : ∀ p ∈ waiting, p.target ≠ pos)
    (harr : Arrived sc waiting w wk m pos sketches) :
    Comes analyse dep s sc.region w wk m (Since dep w ∅ fun wk' w' m' =>
      Alone { sc with backEdges := pos :: sc.backEdges } waiting w' wk' m' target sketches) := by
  obtain ⟨hn, hi⟩ := hi
  refine Comes.instr harr hlater hi fun w₁ wk₁ m₁ _ h => ?_
  have hback : ¬ target > wk₁.pos := by
    rw [h.pos_eq]
    omega
  have hout : ¬ wk₁.backEdges.contains wk₁.pos := by
    rw [h.ground.backEdges, h.pos_eq, List.contains_iff_mem]
    exact hnew
  show After w₁ _ (walkJump s sc.region wk₁ target m₁)
  unfold walkJump
  refine after_target ?_
  simp only [if_neg hback, if_neg hout]
  refine (after_heedInterrupt h.ground.fits).bind ?_
  rintro - w₂ m₂ - - ⟨rfl, rfl⟩
  obtain ⟨g, hlive, hpos, hpending, hshows⟩ := h
  refine after_pure g.fits (since_self ⟨⟨g.fits, g.separates, g.registry, g.mark, g.base, g.stack,
    g.inside, g.bounded, g.paths, g.result, ?_, g.enteredLoops⟩, hlive, rfl, hpending, hshows.frame,
    hshows.vars⟩)
  exact congrArg₂ List.cons hpos g.backEdges

theorem Ground.bare (g : Ground sc w wk m) : Ground sc.bare w wk m :=
  ⟨g.fits, g.separates, g.registry, g.mark, g.base, g.stack, g.inside, nofun, g.paths, g.result,
    g.backEdges, g.enteredLoops⟩

/-- What a path shows is forgotten. -/
theorem PathShows.forget {e : Sketch} {path : WaitingPath} {sc' : Scene}
    (h : PathShows sc w (e :: sketches) path) (hvars : ∀ x, sc'.vars x = none) :
    PathShows sc' w (.any :: sketches) path := by
  refine ⟨?_, fun x set hx => ?_⟩
  · obtain ⟨hframe, -⟩ := h
    generalize path.frame = f at hframe
    cases hframe with
    | cons _ hrest => exact .cons trivial hrest
  · rw [hvars x] at hx
    cases hx

/-- The end of the script, when nothing waits. -/
theorem comes_ret (hi : s.HasInstr pos (.ret, 0)) (hlater : ∀ p ∈ waiting, p.target ≠ pos)
    (harr : Arrived sc waiting w wk m pos sketches) :
    Comes analyse dep s sc.region w wk m (Since dep w ∅ fun wk' w' m' =>
      w'.Fits m' ∧ wk'.live = false ∧ wk'.pending.Perm waiting) := by
  obtain ⟨hn, hi⟩ := hi
  refine Comes.instr harr hlater hi fun w₁ wk₁ m₁ _ h => ?_
  show After w₁ _ (returnTop sc.region wk₁ m₁)
  unfold returnTop
  obtain ⟨top, hpeek, hP, -⟩ := peekOrNil_eq sc.region.base m₁
  have htop : w₁.Knows top := hP w₁.Knows (knows_nil w₁) h.ground.fits.stack
  have hresult := (after_either h.ground.fits.store h.ground.result htop).quiet h.ground.fits.store
    (quiet_either wk₁.result top)
  refine After.bind_ok hpeek ((after_store h.ground.fits hresult).bind ?_)
  rintro v w₂ m₂ - h₂ ⟨⟨-, hquiet⟩, -⟩
  exact after_pure h₂ ⟨notes_of_eq hquiet dep, h₂, rfl, h.pending⟩

/-! ## The whole loop -/

variable (sc) in
theorem nodesOf_scene (l : GroupLoop) (hvars : sc.vars = fun _ => none) :
    (l.scene sc {g | l.source.first sc.registry = some g}).nodesOf = l.nodesOf sc.registry := by
  obtain ⟨source, start, key, element, body, op⟩ := l
  cases key with
  | none =>
    refine congrArg sc.registry.nodesOf (funext fun x => ?_)
    show (if x = element then some _ else sc.vars x).getD ∅ = _
    rw [hvars]
    by_cases hx : x = element
    · simp only [if_pos hx, reduceCtorEq, if_false, Option.getD_some]
    · simp only [if_neg hx, reduceCtorEq, if_false, Option.getD_none]
  | some k =>
    refine congrArg sc.registry.nodesOf (funext fun x => ?_)
    show (if x = k then some ∅ else if x = element then some _ else sc.vars x).getD ∅ = _
    rw [hvars]
    by_cases hk : x = k
    · simp only [hk, if_true, Option.getD_some]
    · have hk' : ¬ some k = some x := fun e => hk (Option.some.inj e).symm
      by_cases hx : x = element
      · simp only [if_neg hk, if_neg hk', if_pos hx, Option.getD_some]
      · simp only [if_neg hk, if_neg hk', if_neg hx, Option.getD_none]

theorem vars_bind_ne_none {x y : Variable} {set : Set Node} (h : x = y ∨ sc.vars x ≠ none) :
    (sc.bind y set).vars x ≠ none := by
  show (if x = y then some set else sc.vars x) ≠ none
  by_cases hx : x = y
  · rw [if_pos hx]
    exact Option.some_ne_none set
  · rw [if_neg hx]
    exact h.resolve_left hx

theorem has_scene {l : GroupLoop} {set : Set Node} {x : Variable}
    (h : sc.registry.lookup? x ≠ none ∨ x ∈ l.bound) : (l.scene sc set).Has x := by
  obtain ⟨source, start, key, element, body, op⟩ := l
  cases key with
  | none =>
    refine h.imp id fun hx => vars_bind_ne_none (.inl ?_)
    exact List.mem_singleton.1 hx
  | some k =>
    refine h.imp id fun hx => ?_
    rcases List.mem_cons.1 hx with rfl | hx
    · exact vars_bind_ne_none (.inr (vars_bind_ne_none (.inl rfl)))
    · exact vars_bind_ne_none (.inl (List.mem_singleton.1 hx))

/-- The list is made and iterated, and the loop starts with its value. -/
theorem comes_prelude {l : GroupLoop} (hfits : l.Fits sc.registry) (hdep : dep.isDummy = false)
    (hcode : s.HasCode 0 l.prelude) (hconst : s.HasConstants 0 (l.source.constants ++ [l.start.value]))
    (harr : Arrived sc [] w wk m 0 []) :
    Comes analyse dep s sc.region w wk m
      (Since dep w (l.source.readings sc.registry sc.nodesOf) fun wk' w' m' =>
        Alone sc [] w' wk' m' l.head [.nodes ∅, .nodes ∅] ∧
          Iterates w' m' 1 (l.source.first sc.registry)) := by
  obtain ⟨hstart, ⟨hn, hpush⟩, -⟩ := eachAt_append.1 hcode
  obtain ⟨hsource, hiter, -⟩ := eachAt_append.1 hstart
  obtain ⟨hconstSource, hvalue, -⟩ := eachAt_append.1 hconst
  rw [List.length_append, List.length_singleton, GroupList.length_code, Nat.zero_add] at hpush
  rw [GroupList.length_code] at hiter
  rw [Nat.zero_add] at hvalue
  refine (passes_groupList hfits.source hdep hsource hconstSource [] w wk m
    (List.forall_mem_nil _) harr).andQuietly ?_
  rintro w₁ wk₁ m₁ - harr₁
  refine (comes_iterator hiter (List.forall_mem_nil _) harr₁).quietly ?_
  rw [Nat.zero_add]
  rintro w₂ wk₂ m₂ - ⟨h₂, handle, it, hu, hit, hyields⟩
  have hconstant : ofExcept (s.constantAt wk₂.pos l.source.constants.length) m₂ =
      (.ok l.start.value, m₂) := by
    rw [constantAt_eq hvalue]
    rfl
  obtain ⟨f, hs, hf⟩ := h₂.shows.frame
  refine h₂.comes (List.forall_mem_nil _) hpush (After.bind_ok hconstant ((after_pushed_eq (d := .nodes ∅) h₂ (.refl _)
    h₂.ground.fits hs hf rfl (knows_scalar l.start _) (pictures_scalar l.start _)
    (notes_of_eq rfl dep)).mono ?_))
  rintro wk₃ w₃ m₃ - ⟨hnotes, h₃, rfl, rfl⟩
  exact ⟨hnotes, h₃, handle, it, hu, hit, hyields⟩

theorem scene_eq (l : GroupLoop) (sc : Scene) (set : Set Node) :
    ∃ vars, l.scene sc set = { sc with vars } := by
  unfold GroupLoop.scene
  cases l.key with
  | none => exact ⟨_, rfl⟩
  | some k => exact ⟨_, rfl⟩

variable (sc) in
/-- The body is gone over once, and then the loop is left. -/
theorem comes_round {l : GroupLoop} {set : Set Node} {path : WaitingPath} (hfits : l.Fits sc.registry)
    (hdep : dep.isDummy = false) (hbounded : ∀ x ∈ l.bound, sc.outer.BoundedAt x)
    (hhead : s.HasInstr l.head (l.headOpcode, l.exit)) (hcode : s.HasCode (l.head + 1) l.inside)
    (hconst : s.HasConstants (l.source.constants.length + 1) l.body.constants)
    (hloop : l.head ∈ sc.enteredLoops) (hedges : sc.backEdges = []) (htarget : path.target = l.exit)
    (h : Alone sc [path] w wk m (l.head + 1)
      (headSketches l.key.isSome set ++ [.nodes ∅, .nodes ∅])) :
    Comes analyse dep s sc.region w wk m
      (Since dep w (l.body.readings sc.registry (l.scene sc set).nodesOf) fun wk' w' m' =>
        ∃ last kept, last.target = l.exit ∧ PathShows sc.bare w' [.nodes kept] last ∧
          Ground { sc.bare with backEdges := [l.back] } w' wk' m' ∧ wk'.live = false ∧
          wk'.pending.Perm [last, path]) := by
  obtain ⟨hupto, hjump, -⟩ := eachAt_append.1 hcode
  obtain ⟨hwith, hoperator, -⟩ := eachAt_append.1 hupto
  obtain ⟨hbindings, hbody⟩ := eachAt_append.1 hwith
  rw [List.length_append, List.length_append, List.length_singleton, Expression.length_code,
    ← Nat.add_assoc, ← Nat.add_assoc] at hjump
  rw [List.length_append, Expression.length_code, ← Nat.add_assoc] at hoperator
  have hbind : Passes analyse dep s sc (l.scene sc set) (l.head + 1) _
      (headSketches l.key.isSome set ++ [.nodes ∅, .nodes ∅]) [.nodes ∅, .nodes ∅] ∅ :=
    passes_bindings hbindings hbounded
  have hplain : l.body.Plain (l.scene sc set).Has := hfits.body.mono fun _ => has_scene
  obtain ⟨vars, hscene⟩ := scene_eq l sc set
  rw [hscene] at hbind hplain ⊢
  have hvalue : Passes analyse dep s { sc with vars } { sc with vars } _ _
      [.nodes ∅, .nodes ∅] _ _ := passes_expression hplain hdep hbody hconst
  have hcombined := (hvalue.quietly (passes_binary hfits.op hoperator) rfl (Nat.le_succ _))
  have hround := hbind.trans hcombined rfl (by omega)
  rw [Set.empty_union, operated_nodes] at hround
  have hexit : ∀ p ∈ [path], l.back < p.target := by
    refine List.forall_mem_singleton.2 ?_
    rw [htarget]
    exact Nat.lt_succ_self _
  refine Comes.andQuietly (hround [path] w wk m (fun p hp => Nat.le_of_lt (hexit p hp)) h.arrived) ?_
  rintro w₁ wk₁ m₁ - harr
  have hback : l.head ≤ l.back := by
    unfold GroupLoop.back GroupLoop.bodyStart
    omega
  have hnew : l.back ∉ sc.backEdges := hedges ▸ List.not_mem_nil
  refine (comes_jumpBack { sc with vars } hjump hback hnew
    (fun p hp => Nat.ne_of_gt (hexit p hp)) harr).quietly ?_
  rintro w₂ wk₂ m₂ - halone
  obtain ⟨hn, hi⟩ := hhead
  refine halone.comes (fun p hp => ?_) hi ?_
  · have := hexit p hp
    omega
  · unfold GroupLoop.headOpcode
    rw [walkInstr_loop]
    refine (after_walkLoop_leave dep halone hloop).mono ?_
    rintro wk₃ w₃ m₃ - ⟨hnotes, last, hlast, hshows, hground, hlive, hpending⟩
    refine ⟨hnotes, last, _, hlast, ⟨hshows.frame, nofun⟩, ?_, hlive, hpending⟩
    have hg := hground.bare
    rw [show ({ sc with vars } : Scene).backEdges = [] from hedges] at hg
    exact hg

/-- From the start of a loop a pass comes by at the end of the script, and has noted what making the
list reads and what the body reads of the first group. -/
theorem comes_groupLoop {l : GroupLoop} (hfits : l.Fits sc.registry) (hdep : dep.isDummy = false)
    (hcode : s.HasCode 0 l.listing) (hconst : s.HasConstants 0 l.constants)
    (hbounded : ∀ x ∈ l.bound, sc.outer.BoundedAt x) (hvars : sc.vars = fun _ => none)
    (hloops : sc.enteredLoops = []) (hedges : sc.backEdges = []) (harr : Arrived sc [] w wk m 0 []) :
    Comes analyse dep s sc.region w wk m (Since dep w (l.noted sc.registry) fun wk' w' m' =>
      w'.Fits m' ∧ wk'.live = false ∧ wk'.pending = []) := by
  obtain ⟨hall, hret, -⟩ := eachAt_append.1 hcode
  obtain ⟨hprelude, hhead, hinside⟩ := eachAt_append.1 hall
  obtain ⟨hconstStart, hconstBody⟩ := eachAt_append.1 hconst
  rw [List.length_append, List.length_cons, GroupLoop.length_prelude, Nat.zero_add,
    Nat.add_comm l.inside.length, ← Nat.add_assoc, GroupLoop.length_inside] at hret
  rw [GroupLoop.length_prelude, Nat.zero_add] at hhead hinside
  rw [List.length_append, List.length_singleton, Nat.zero_add] at hconstBody
  have hprelude : Comes analyse dep s sc.region w wk m _ :=
    comes_prelude hfits hdep hprelude hconstStart harr
  have hsource : sc.nodesOf = sc.registry.nodesOf fun _ => ∅ := by
    unfold Scene.nodesOf
    rw [hvars]
    rfl
  rw [hsource] at hprelude
  refine hprelude.andThen ?_
  rintro w₁ wk₁ m₁ - ⟨h₁, hiterates⟩
  obtain ⟨hn, hi⟩ := hhead
  have henter := after_walkLoop_enter dep s l.key.isSome l.exit h₁ hiterates (hloops ▸ List.not_mem_nil)
  rw [← walkInstr_loop analyse dep hn] at henter
  refine (h₁.comes (List.forall_mem_nil _) hi henter).quietly ?_
  rintro w₂ wk₂ m₂ - ⟨path, htarget, hpath, h₂⟩
  have hbody := nodesOf_scene { sc with enteredLoops := l.head :: sc.enteredLoops } l hvars
  rw [show l.nodesOf sc.registry = _ from hbody.symm]
  refine (comes_round { sc with enteredLoops := l.head :: sc.enteredLoops } hfits hdep hbounded
    ⟨hn, hi⟩ hinside hconstBody List.mem_cons_self hedges htarget h₂).andQuietly ?_
  rintro w₃ wk₃ m₃ hle₃ ⟨last, kept, hlast, hshows, hground, hlive, hpending⟩
  have hat : ∀ p ∈ [last, path], p.target = l.exit :=
    List.forall_mem_cons.2 ⟨hlast, List.forall_mem_singleton.2 htarget⟩
  -- both paths to the exit are joined there, whatever each has
  have hboth : ∀ p ∈ [last, path], PathShows
      { sc.bare with backEdges := [l.back], enteredLoops := l.head :: sc.enteredLoops } w₃ [.any] p :=
    List.forall_mem_cons.2 ⟨hshows.forget fun _ => rfl,
      List.forall_mem_singleton.2 ((hpath.later hle₃).forget fun _ => rfl)⟩
  refine Comes.quietly ((Comes.resumeFirst hground hlive (List.cons_ne_nil _ _) hpending hat
    (List.forall_mem_nil _) hboth).mono fun w' wk' m' _ hdone =>
      ⟨notes_of_eq hdone.1 dep, hdone.2⟩) ?_
  rintro w₄ wk₄ m₄ - harr₄
  refine (comes_ret hret (List.forall_mem_nil _) harr₄).mono ?_
  rintro w₅ wk₅ m₅ - ⟨hnotes, hfit, hlive, hpending⟩
  exact ⟨hnotes, hfit, hlive, hpending.eq_nil⟩

end Run

namespace GroupLoop

open World Run in
/-- A successful pass over a loop, whose variables are bound nowhere deeper when it starts, adds its
dependency to the lists of the owners that making the list reads and that the body reads of the first
group, and adds nothing else to any list. -/
theorem noted_iff {l : GroupLoop} {st st' : Store} {b : Builder} {s : Script Value}
    (hbuild : l.assemble.build st = ((.ok s, b), st')) {m m' : Machine}
    (hfits : l.Fits m.context.registry) (hbounded : ∀ x ∈ l.bound, m.context.env.BoundedAt x)
    (hissued : m.Issued) {dep : Dependency} (hdep : dep.isDummy = false) {budget : Nat} {v : Value}
    (hrun : Run.trackReads budget dep s m = (.ok v, m')) (owner : OwnerId) (d : Dependency) :
    d ∈ m'.store.dependents[owner]?.getD [] ↔ d ∈ m.store.dependents[owner]?.getD [] ∨
      d = dep ∧ owner ∈ l.noted m.context.registry ∧ owner < m.store.dependents.size := by
  obtain ⟨hops, hlist⟩ := built_eq hbuild
  obtain ⟨m₁, hwalk, hstore⟩ := Run.walkFrom_of_passWith hrun
  have hfit := fits_worldOf hissued
  let sc : Scene := ⟨m.context.registry, Run.passRegion m, m.context.env, m.context.stack,
    fun _ => none, [], []⟩
  have hground : Run.Ground sc (worldOf m) .start (Run.passStart s [] m) :=
    ⟨⟨hfit.store, hfit.env.enterScope, hfit.stack, rfl, rfl, rfl⟩, fun _ hid => hid, rfl, rfl, rfl,
      ⟨[], rfl⟩, Environment.inside_enterScope _, nofun, nofun, knows_nil _, rfl, rfl⟩
  have halone : Run.Alone sc [] (worldOf m) .start (Run.passStart s [] m) 0 [] :=
    ⟨hground, rfl, rfl, .refl _, ⟨[], rfl, .nil⟩, nofun⟩
  obtain ⟨budget', w', wk', m₂, hle, ⟨hnotes, hfit', hlive, hpending⟩, hrest⟩ :=
    Run.comes_groupLoop hfits hdep (Script.hasCode_of_ops hops)
      (Script.hasConstants_of_toList hlist) hbounded rfl rfl rfl halone.arrived budget v m₁ hwalk
  obtain rfl := Run.walkFrom_finished hlive hpending hrest
  rw [hstore, hfit'.store.dependents]
  exact hnotes owner d

/-- A member of each of two groups is read and added up. -/
def titles : GroupLoop where
  source := .list [⟨0⟩, ⟨1⟩]
  start := .nil
  key := none
  element := ⟨2⟩
  body := .member (.var ⟨2⟩) "title"
  op := .add

/-- The script of the loop. -/
def titlesScript : Script Value := ⟨0, titles.assemble.code, titles.assemble.constants⟩

/-- A machine in which two groups are registered, each with a member of the same name. -/
def twoGroups : Machine where
  context := { Context.ofSettings ⟨10, false, 0⟩ with
    registry := ⟨[(⟨0⟩, .group "left" [("title", .owner "left title" 0)]),
      (⟨1⟩, .group "right" [("title", .owner "right title" 1)])]⟩ }
  store := { Store.empty with nextIdent := 1, dependents := #[[], []] }

theorem fits_titles : titles.Fits twoGroups.context.registry := by
  refine ⟨fun x hx => ?_, .inr List.mem_cons_self, by decide⟩
  rcases List.mem_cons.1 hx with rfl | hx
  · exact fun h => by cases h
  · rw [List.mem_singleton.1 hx]
    exact fun h => by cases h

theorem issued_twoGroups : twoGroups.Issued :=
  ⟨⟨fun _ s hs => (by cases hs), fun _ hb => (by cases hb)⟩, fun _ hv => (by cases hv),
    fun _ hit => absurd hit (Array.not_mem_empty _)⟩

theorem noted_titles : titles.noted twoGroups.context.registry = {0} := by
  have hsource : titles.source.readings twoGroups.context.registry
      (twoGroups.context.registry.nodesOf fun _ => ∅) = ∅ := by
    refine Set.eq_empty_of_forall_notMem fun o ⟨x, hx, ho⟩ => ?_
    rcases List.mem_cons.1 hx with rfl | hx
    · cases ho
    · rw [List.mem_singleton.1 hx] at ho
      cases ho
  have helement : titles.nodesOf twoGroups.context.registry ⟨2⟩ =
      {Node.group "left" [("title", .owner "left title" 0)]} := by
    ext g
    show some _ = some g ↔ g = _
    exact ⟨fun h => (Option.some.inj h).symm, fun h => congrArg some h.symm⟩
  have hmember : Node.get? (.group "left" [("title", .owner "left title" 0)]) "title" =
      some (.owner "left title" 0) := by
    have hname : normalName "title" = "title" := by decide +kernel
    unfold Node.get?
    rw [hname]
    rfl
  unfold noted
  rw [hsource, Set.empty_union]
  show twoGroups.context.registry.ownersOf ⟨2⟩ ∪
    ownersAmong (membersOf "title" (titles.nodesOf twoGroups.context.registry ⟨2⟩)) = _
  rw [show twoGroups.context.registry.ownersOf ⟨2⟩ = ∅ from rfl, Set.empty_union, helement,
    membersOf_of_some hmember, ownersAmong_singleton]
  ext o
  exact List.mem_singleton

/-- The member of the second group is not found. -/
theorem noted_iff_titles : ∃ v m', Run.trackReads 60 ⟨.cardField, 0⟩ titlesScript twoGroups = (.ok v, m') ∧
    ⟨.cardField, 0⟩ ∈ m'.store.dependents[0]?.getD [] ∧
    ⟨.cardField, 0⟩ ∉ m'.store.dependents[1]?.getD [] := by
  have hbuild : titles.assemble.build .empty =
      ((.ok titlesScript, .empty), { Store.empty with nextIdent := 1 }) := rfl
  have hbounded : ∀ x ∈ titles.bound, twoGroups.context.env.BoundedAt x :=
    fun x _ slot hslot => by cases hslot
  have hok : (Run.trackReads 60 ⟨.cardField, 0⟩ titlesScript twoGroups).1.isOk = true := by
    decide +kernel
  rcases hrun : Run.trackReads 60 ⟨.cardField, 0⟩ titlesScript twoGroups with ⟨stop | v, m'⟩
  · rw [hrun] at hok
    cases hok
  · have hiff := noted_iff hbuild fits_titles hbounded issued_twoGroups rfl hrun
    rw [noted_titles] at hiff
    refine ⟨v, m', rfl, (hiff 0 _).2 (.inr ⟨rfl, rfl, by decide⟩), fun h => ?_⟩
    rcases (hiff 1 _).1 h with h | ⟨-, h, -⟩
    · cases h
    · cases h

end GroupLoop

end ReactiveScript
