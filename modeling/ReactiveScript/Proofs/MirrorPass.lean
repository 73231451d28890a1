import ReactiveScript.Proofs.MirrorRun
import ReactiveScript.Proofs.PassLog

/-
  Passes on machines that mirror one another.

  The same pass with two dependencies, on two machines that mirror one another, follows the same
  instructions and signals the same owners in the same order, and gives like results
  (`mirrored_trackReads`). What is noted of it depends on the dependency, but is determined by the
  owners that are signalled (`PassEvent.note`).
-/

namespace ReactiveScript

open Value (Like like_nil)
open Run (paired_pure paired_throw)

/-- What is noted when an event happens in a pass with a dependency: a dummy is registered with no
owner, but measured content is marked. -/
def PassEvent.note (dep : Dependency) (k : Marks) : PassEvent → Marks
  | .visited _ _ => k
  | .signalled name owner =>
    let list := k.1[owner]?.getD []
    (if dep.isDummy || list.contains dep then k.1 else k.1.setIfInBounds owner (list ++ [dep]),
      k.2 || (dep.isDummy && Node.isContentName name))

/-- What is noted when several events happen. -/
def PassEvent.noteAll (dep : Dependency) (k : Marks) (log : List PassEvent) : Marks :=
  log.foldl (PassEvent.note dep) k

theorem Node.noteRead_owner (name : String) (owner : OwnerId) (dep : Dependency) (s : Store) :
    (Node.owner name owner).noteRead dep s =
      ((), { s with
        dependents := (PassEvent.note dep s.marks (.signalled name owner)).1
        contentRead := (PassEvent.note dep s.marks (.signalled name owner)).2 }) := by
  have hadd : ∀ s : Store, (Store.addDependent owner dep s).2 = { s with
      dependents := (PassEvent.note dep s.marks (.signalled name owner)).1 } := by
    intro s
    unfold Store.addDependent PassEvent.note Store.marks
    dsimp only
    split <;> rfl
  unfold Node.noteRead
  cases hmark : dep.isDummy && Node.isContentName name with
  | false =>
    have hcontent : (PassEvent.note dep s.marks (.signalled name owner)).2 = s.contentRead := by
      simp [PassEvent.note, hmark, Store.marks]
    dsimp only
    rw [hmark, hcontent]
    exact Prod.ext rfl (hadd s)
  | true =>
    have hcontent : (PassEvent.note dep s.marks (.signalled name owner)).2 = true := by
      simp [PassEvent.note, hmark]
    dsimp only
    rw [hmark, hcontent]
    exact Prod.ext rfl (hadd { s with contentRead := true })

/-! ## The judgement -/

namespace Logged

variable {α β α' β' : Type} {r : Renaming} {dep dep' : Dependency} {R : α → β → Prop}
variable {R' : α' → β' → Prop} {k l : Marks}

/-- Evaluations, with a dependency each, that on machines that mirror one another tell the same,
have related results and leave such machines, in which what was told is noted. -/
def Mirrored (r : Renaming) (dep dep' : Dependency) (R : α → β → Prop) (x : Logged α)
    (y : Logged β) : Prop :=
  ∀ k l m n, m.Mirrors r k l n → x.log m = y.log n ∧ Related R (x.run m).1 (y.run n).1 ∧
    (x.run m).2.Mirrors r (PassEvent.noteAll dep k (x.log m)) (PassEvent.noteAll dep' l (x.log m))
      (y.run n).2

theorem mirrored_quiet {x : Run α} {y : Run β} (h : ∀ k l, Run.Mirrored r k l R x y) :
    Mirrored r dep dep' R (quiet x) (quiet y) :=
  fun k l m n hmn => ⟨rfl, h k l m n hmn⟩

theorem mirrored_pure {a : α} {b : β} (h : R a b) :
    Mirrored r dep dep' R (pure a) (pure b) :=
  mirrored_quiet fun _ _ => paired_pure h

theorem mirrored_store {x : StateM Store α} {y : StateM Store β} (h : Store.Paired r R x y) :
    Mirrored r dep dep' R (quiet (Run.store x)) (quiet (Run.store y)) :=
  mirrored_quiet fun _ _ => Run.mirrored_store h

theorem Mirrored.bind {x : Logged α} {y : Logged β} {f : α → Logged α'} {g : β → Logged β'}
    (hx : Mirrored r dep dep' R x y)
    (hf : ∀ a b, R a b → Mirrored r dep dep' R' (f a) (g b)) :
    Mirrored r dep dep' R' (x >>= f) (y >>= g) := by
  intro k l m n hmn
  obtain ⟨hlog, hR, hS⟩ := hx k l m n hmn
  rw [run_bind, run_bind]
  rcases hxm : x.run m with ⟨stop | a, m₁⟩ <;> rcases hyn : y.run n with ⟨stop' | b, n₁⟩ <;>
    rw [hxm, hyn] at hR hS
  · rw [log_bind_error hxm, log_bind_error hyn, Run.run_bind_error hxm, Run.run_bind_error hyn]
    exact ⟨hlog, hR, hS⟩
  · cases hR
  · cases hR
  · obtain ⟨hlog', hR', hS'⟩ := hf a b hR _ _ m₁ n₁ hS
    rw [log_bind_ok hxm, log_bind_ok hyn, Run.run_bind_ok hxm, Run.run_bind_ok hyn, ← hlog,
      ← hlog', PassEvent.noteAll, PassEvent.noteAll, List.foldl_append, List.foldl_append]
    exact ⟨rfl, hR', hS'⟩

theorem Mirrored.attempt {x : Logged α} {y : Logged β} (hx : Mirrored r dep dep' R x y) :
    Mirrored r dep dep' (fun a b => Related R (a.mapError .error) (b.mapError .error))
      (attempt x) (attempt y) := by
  intro k l m n hmn
  obtain ⟨hlog, hR, hS⟩ := hx k l m n hmn
  refine ⟨hlog, Run.related_attempt hR, ?_⟩
  have hm : ((Logged.attempt x).run m).2 = (x.run m).2 := Run.attempt_machine x.run m
  have hn : ((Logged.attempt y).run n).2 = (y.run n).2 := Run.attempt_machine y.run n
  rw [hm, hn]
  exact hS

theorem mirrored_inScope {x : Logged α} {y : Logged β} (hx : Mirrored r dep dep' R x y) :
    Mirrored r dep dep' R (inScope x) (inScope y) := by
  refine (mirrored_quiet fun _ _ => Run.mirrored_enterScope).bind fun mark mark' hmark => ?_
  obtain rfl : mark = mark' := hmark
  refine hx.attempt.bind fun a b hab => ?_
  refine (mirrored_quiet fun _ _ => Run.mirrored_leaveScope mark).bind fun _ _ _ => ?_
  exact mirrored_quiet fun _ _ => Run.paired_ofExcept hab

/-! ## Reading -/

theorem mirrored_tell_visited (script : Ident) (pos : Nat) :
    Mirrored r dep dep' (fun _ _ => True) (tell (.visited script pos))
      (tell (.visited script pos)) :=
  fun _ _ _ _ hmn => ⟨rfl, trivial, hmn⟩

/-- The one place where something is noted. -/
theorem mirrored_noteRead (node : Node) :
    Mirrored r dep dep' (fun _ _ => True) (noteRead node dep) (noteRead node dep') := by
  cases node with
  | group => exact mirrored_pure trivial
  | owner name owner =>
    intro k l m n hmn
    refine ⟨rfl, ?_⟩
    rw [run_noteRead, run_noteRead]
    have hm := Node.noteRead_owner name owner dep m.store
    have hn := Node.noteRead_owner name owner dep' n.store
    have hk := hmn.store.marks
    have hl := hmn.store.marks'
    rw [hk] at hm
    rw [hl] at hn
    unfold Run.store
    rw [hm, hn]
    refine ⟨trivial, { hmn with store := ?_ }⟩
    exact { hmn.store with marks := rfl, marks' := rfl }

mutual

theorem mirrored_noteReadBelow : ∀ node : Node,
    Mirrored r dep dep' (fun _ _ => True) (noteReadBelow node dep) (noteReadBelow node dep')
  | .owner name scripts => mirrored_noteRead (.owner name scripts)
  | .group _ members => mirrored_noteReadMembers members
termination_by structural node => node

theorem mirrored_noteReadMembers : ∀ members : List (String × Node),
    Mirrored r dep dep' (fun _ _ => True) (noteReadMembers members dep)
      (noteReadMembers members dep')
  | [] => mirrored_pure trivial
  | (_, node) :: rest =>
    (mirrored_noteReadBelow node).bind fun _ _ _ => mirrored_noteReadMembers rest
termination_by structural members => members

end

theorem mirrored_memberOfNode (node : Node) (name : String) :
    Mirrored r dep dep' (Like r) (memberOfNode node name dep) (memberOfNode node name dep') := by
  unfold memberOfNode
  cases node.get? name with
  | none => exact mirrored_pure like_nil
  | some member =>
    exact (mirrored_noteRead member).bind fun _ _ _ => mirrored_store (paired_newPlaceholder member)

theorem mirrored_iteratorOfNode (node : Node) :
    Mirrored r dep dep' (Like r) (iteratorOfNode node dep) (iteratorOfNode node dep') := by
  refine (mirrored_noteReadBelow node).bind fun _ _ _ => ?_
  cases node with
  | owner => exact mirrored_store paired_newStandIn
  | group name members =>
    refine mirrored_store ((paired_placeholdersOf members).bind fun xs ys h => ?_)
    exact Store.paired_newIterator (likeIteration_ofEntries h)

variable {a a' b b' v v' : Value}

/-- A value like one that is no object is no object. -/
theorem not_object_of_like (h : Like r v v') (hv : ∀ id body, v ≠ .object id body) :
    ∀ id body, v' ≠ .object id body := by
  intro id body e
  subst e
  cases h with
  | scalar h => cases h
  | placeholder | union => exact hv _ _ rfl

theorem memberInPass_of_not_object (hv : ∀ id body, v ≠ .object id body) (name : String) :
    memberInPass v name dep = quiet (Run.store (v.memberInPass name dep)) := by
  cases v with
  | object id body => exact absurd rfl (hv id body)
  | _ => rfl

theorem iteratorInPass_of_not_object (hv : ∀ id body, v ≠ .object id body) :
    iteratorInPass v dep = quiet (Run.store (v.iteratorInPass dep)) := by
  cases v with
  | object id body => exact absurd rfl (hv id body)
  | _ => rfl

/-- What holds of placeholders, of unions of what it holds of, and of all that is no object, holds
of all like values. -/
theorem like_induction {P : Value → Value → Prop}
    (other : ∀ v v', Like r v v' → (∀ id body, v ≠ .object id body) → P v v')
    (placeholder : ∀ i j node, P (.object i (.placeholder node)) (.object j (.placeholder node)))
    (union : ∀ i j a b a' b', P a a' → P b b' →
      P (.object i (.union a b)) (.object j (.union a' b'))) (hv : Like r v v') : P v v' := by
  induction hv with
  | scalar h => exact other _ _ (.scalar h) fun id body e => (e ▸ h : (Value.object id body).IsScalar)
  | collection keys values => exact other _ _ (.collection keys values) nofun
  | placeholder => exact placeholder _ _ _
  | union _ _ iha ihb => exact union _ _ _ _ _ _ iha ihb
  | iterator h => exact other _ _ (.iterator h) nofun
  | script h hconst => exact other _ _ (.script h hconst) nofun
  | builtin h => exact other _ _ (.builtin h) nofun
  | closure hf vars values => exact other _ _ (.closure hf vars values) nofun
  | composition ha hb => exact other _ _ (.composition ha hb) nofun

theorem mirrored_memberInPass (hv : Like r v v') (name : String) :
    Mirrored r dep dep' (Like r) (memberInPass v name dep) (memberInPass v' name dep') := by
  refine like_induction
    (P := fun v v' => Mirrored r dep dep' (Like r) (memberInPass v name dep)
      (memberInPass v' name dep'))
    (fun v v' hv hno => ?other) (fun i j node => ?placeholder)
    (fun i j a b a' b' ha hb => ?union) hv
  case other =>
    rw [memberInPass_of_not_object hno, memberInPass_of_not_object (not_object_of_like hv hno)]
    exact mirrored_store (paired_memberInPass hv hno name dep dep')
  case placeholder => exact mirrored_memberOfNode node name
  case union =>
    unfold memberInPass
    refine ha.bind fun x x' hx => hb.bind fun y y' hy => ?_
    exact mirrored_store (paired_either hx hy)

theorem mirrored_memberInPassAt (ha : Like r a a') (hb : Like r b b') :
    Mirrored r dep dep' (Like r) (memberInPassAt a b dep) (memberInPassAt a' b' dep') := by
  unfold memberInPassAt
  rw [← hb.toText]
  cases b.toText with
  | ok name => exact mirrored_memberInPass ha name
  | error e => exact mirrored_pure like_nil

theorem mirrored_iteratorInPass (hv : Like r v v') :
    Mirrored r dep dep' (Like r) (iteratorInPass v dep) (iteratorInPass v' dep') := by
  refine like_induction
    (P := fun v v' => Mirrored r dep dep' (Like r) (iteratorInPass v dep) (iteratorInPass v' dep'))
    (fun v v' hv hno => ?other) (fun i j node => ?placeholder)
    (fun i j a b a' b' ha hb => ?union) hv
  case other =>
    rw [iteratorInPass_of_not_object hno, iteratorInPass_of_not_object (not_object_of_like hv hno)]
    exact mirrored_store (paired_iteratorInPass hv hno dep dep')
  case placeholder => exact mirrored_iteratorOfNode node
  case union =>
    unfold iteratorInPass
    exact ha.bind fun x x' hx => hb.bind fun _ _ _ => mirrored_pure hx

theorem mirrored_unaryInPass (op : UnaryOp) (ha : Like r a a') :
    Mirrored r dep dep' (Like r) (unaryInPass op a dep) (unaryInPass op a' dep') := by
  cases op with
  | iteratorC => exact mirrored_iteratorInPass ha
  | _ => exact mirrored_pure like_nil

theorem mirrored_binaryInPass (op : BinaryOp) (ha : Like r a a') (hb : Like r b b') :
    Mirrored r dep dep' (Like r) (binaryInPass op a b dep) (binaryInPass op a' b' dep') := by
  by_cases hop : op = .member
  · subst hop
    exact mirrored_memberInPassAt ha hb
  · have hquiet : ∀ a b : Value, ∀ dep : Dependency,
        binaryInPass op a b dep = quiet (Run.store (a.binaryInPass op b dep)) := by
      cases op <;> first | exact fun _ _ _ => rfl | exact absurd rfl hop
    rw [hquiet, hquiet]
    exact mirrored_store (paired_binaryInPass hop ha hb dep dep')

theorem mirrored_variableInPass (var : Variable) :
    Mirrored r dep dep' (Like r) (variableInPass var dep) (variableInPass var dep') := by
  refine (mirrored_quiet fun _ _ => Run.mirrored_context).bind fun c d hcd => ?_
  obtain ⟨henv, -, -, -, hregistry, -⟩ := hcd
  rw [← hregistry var]
  cases c.registry.lookup? var with
  | none =>
    refine (mirrored_quiet fun _ _ => Run.mirrored_context).bind fun c d hcd => mirrored_pure ?_
    exact like_getD (hcd.1.get? var)
  | some node =>
    exact (mirrored_noteRead node).bind fun _ _ _ => mirrored_store (paired_newPlaceholder node)

/-! ## Following a path -/

variable {reg : Region} {w w' : Walk} {s : Script Value} {analyse analyse' : Analyser}

/-- The analyses of like functions with like arguments mirror one another. -/
def AnalysesMirrored (r : Renaming) (dep dep' : Dependency) (analyse analyse' : Analyser) : Prop :=
  ∀ f f' bs bs', Like r f f' → LikeEach r bs bs' →
    Mirrored r dep dep' (Like r) (analyse f bs) (analyse' f' bs')

theorem mirrored_pushNext {x y : Logged Value} (h : w.Mirrors r w')
    (hx : Mirrored r dep dep' (Like r) x y) :
    Mirrored r dep dep' (Walk.Mirrors r)
      (do
        quiet (Run.push (← x))
        return w.next)
      (do
        quiet (Run.push (← y))
        return w'.next) := by
  refine hx.bind fun v v' hv => ?_
  refine (mirrored_quiet fun _ _ => Run.mirrored_push hv).bind fun _ _ _ => ?_
  exact mirrored_pure h.next

theorem mirrored_walkCall (hA : AnalysesMirrored r dep dep' analyse analyse')
    (h : w.Mirrors r w') (n : Nat) (op : Opcode) :
    Mirrored r dep dep' (Walk.Mirrors r) (walkCall analyse s reg w n op)
      (walkCall analyse' s reg w' n op) := by
  obtain ⟨pending, result, rfl⟩ := h.exists_eq
  refine (mirrored_quiet fun _ _ => Run.paired_sameExcept _).bind fun params params' hp => ?_
  obtain rfl : params = params' := hp
  refine (mirrored_quiet fun _ _ => Run.mirrored_takeManyOrNil n).bind fun vs ws hvs => ?_
  refine (mirrored_quiet fun _ _ => Run.mirrored_takeOrNil).bind fun f f' hf => ?_
  have hbindings : LikeEach r (params.zip vs) (params.zip ws) := Run.likeEach_zip params hvs
  have hpush : ∀ v v', Like r v v' → Mirrored r dep dep' (Walk.Mirrors r)
      (do
        quiet (Run.push v)
        return w.goto (w.pos + 1 + n))
      (do
        quiet (Run.push v')
        return { w with pending, result }.goto (w.pos + 1 + n)) := fun v v' hv =>
    (mirrored_quiet fun _ _ => Run.mirrored_push hv).bind fun _ _ _ => mirrored_pure (h.goto _)
  by_cases hop : op = .closure
  · simp only [if_pos hop]
    exact (mirrored_store (paired_partialApply hf hbindings)).bind hpush
  · simp only [if_neg hop]
    exact (hA f f' _ _ hf hbindings).bind hpush

/-- One instruction. -/
theorem mirrored_walkInstr (hA : AnalysesMirrored r dep dep' analyse analyse')
    (h : w.Mirrors r w') (hconst : ∀ c ∈ s.constants, Like r c c) (i : Instruction) :
    Mirrored r dep dep' (Walk.Mirrors r) (walkInstr analyse dep s reg w i)
      (walkInstr analyse' dep' s reg w' i) := by
  obtain ⟨pending, result, rfl⟩ := h.exists_eq
  rcases i with ⟨opcode, n⟩
  cases opcode with
  | nop => exact mirrored_quiet fun _ _ => paired_pure h.next
  | pushConst =>
    exact mirrored_quiet fun _ _ => Run.mirrored_pushNext h (Run.mirrored_constantAt hconst _ _)
  | pop =>
    exact mirrored_quiet fun _ _ => Run.mirrored_takeOrNil.bind fun _ _ _ => paired_pure h.next
  | dup =>
    refine mirrored_quiet fun _ _ => Run.mirrored_frame.bind fun f g hfg => ?_
    exact (Run.mirrored_push (like_getD (forall₂_getElem? hfg n))).bind fun _ _ _ =>
      paired_pure h.next
  | jump => exact mirrored_quiet fun _ _ => Run.mirrored_walkJump h n
  | jumpIfNot =>
    refine mirrored_quiet fun _ _ => (Run.paired_sameExcept _).bind fun target target' ht => ?_
    obtain rfl : target = target' := ht
    refine Run.mirrored_takeOrNil.bind fun _ _ _ => ?_
    exact (Run.mirrored_walkBranch h target).bind fun _ _ hw => paired_pure hw.next
  | jumpScAnd | jumpScOr =>
    refine mirrored_quiet fun _ _ => (Run.paired_sameExcept _).bind fun target target' ht => ?_
    obtain rfl : target = target' := ht
    refine (Run.mirrored_walkBranch h target).bind fun _ _ hw => ?_
    exact Run.mirrored_takeOrNil.bind fun _ _ _ => paired_pure hw.next
  | loop => exact mirrored_quiet fun _ _ => Run.mirrored_walkLoop h n false
  | loopWithKey => exact mirrored_quiet fun _ _ => Run.mirrored_walkLoop h n true
  | ret => exact mirrored_quiet fun _ _ => Run.mirrored_returnTop h
  | getVar => exact mirrored_pushNext h (mirrored_variableInPass ⟨n⟩)
  | setVar =>
    refine mirrored_quiet fun _ _ => Run.mirrored_peekOrNil.bind fun v v' hv => ?_
    exact (Run.mirrored_bindVariable ⟨n⟩ hv).bind fun _ _ _ => paired_pure h.next
  | memberC =>
    refine (mirrored_quiet fun _ _ => Run.mirrored_constantAt hconst _ _).bind fun key key' hkey => ?_
    refine (mirrored_quiet fun _ _ => Run.mirrored_takeOrNil).bind fun v v' hv => ?_
    exact mirrored_pushNext h (mirrored_memberInPassAt hv hkey)
  | makeObject =>
    refine mirrored_quiet fun _ _ => (Run.mirrored_takeManyOrNil _).bind fun vs ws hvs => ?_
    exact Run.mirrored_pushNext h (Run.mirrored_store (paired_makeObject hvs))
  | call => exact mirrored_walkCall hA h n .call
  | closure => exact mirrored_walkCall hA h n .closure
  | tailCall => exact mirrored_walkCall hA h n .tailCall
  | unary =>
    refine (mirrored_quiet fun _ _ => Run.mirrored_takeOrNil).bind fun v v' hv => ?_
    refine (mirrored_quiet fun _ _ => Run.paired_sameExcept _).bind fun op op' hop => ?_
    obtain rfl : op = op' := hop
    exact mirrored_pushNext h (mirrored_unaryInPass op hv)
  | binary =>
    refine (mirrored_quiet fun _ _ => Run.paired_sameExcept _).bind fun op op' hop => ?_
    obtain rfl : op = op' := hop
    refine (mirrored_quiet fun _ _ => Run.mirrored_takeOrNil).bind fun v v' hv => ?_
    refine (mirrored_quiet fun _ _ => Run.mirrored_takeOrNil).bind fun u u' hu => ?_
    exact mirrored_pushNext h (mirrored_binaryInPass op hu hv)
  | ternary | quaternary =>
    refine mirrored_quiet fun _ _ => (Run.mirrored_takeManyOrNil _).bind fun _ _ _ => ?_
    exact (Run.mirrored_push like_nil).bind fun _ _ _ => paired_pure h.next

theorem mirrored_walkStep (hA : AnalysesMirrored r dep dep' analyse analyse')
    (h : w.Mirrors r w') (hconst : ∀ c ∈ s.constants, Like r c c) :
    Mirrored r dep dep' (Option.Rel (Walk.Mirrors r)) (walkStep analyse dep s reg w)
      (walkStep analyse' dep' s reg w') := by
  refine (mirrored_quiet fun _ _ => Run.mirrored_resume h).bind fun next next' hnext => ?_
  cases hnext with
  | none => exact mirrored_pure .none
  | @some w w' hw =>
    dsimp only
    rw [← hw.pending.length_eq]
    refine (mirrored_quiet fun _ _ => Run.mirrored_mergeWaiting _ hw).bind fun w w' hw => ?_
    rw [← hw.pos]
    cases s.code[w.pos]? with
    | none =>
      refine (mirrored_quiet fun _ _ => Run.mirrored_returnTop hw).bind fun _ _ hw => ?_
      exact mirrored_pure (.some hw)
    | some i =>
      refine (mirrored_tell_visited s.id w.pos).bind fun _ _ _ => ?_
      exact (mirrored_walkInstr hA hw hconst i).bind fun _ _ hw => mirrored_pure (.some hw)

theorem mirrored_walkFrom (hA : AnalysesMirrored r dep dep' analyse analyse')
    (hconst : ∀ c ∈ s.constants, Like r c c) (budget : Nat) (h : w.Mirrors r w') :
    Mirrored r dep dep' (Like r) (walkFrom analyse dep s reg budget w)
      (walkFrom analyse' dep' s reg budget w') := by
  induction budget generalizing w w' with
  | zero => exact mirrored_quiet fun _ _ => paired_throw _
  | succ budget ih =>
    refine (mirrored_walkStep hA h hconst).bind fun next next' hnext => ?_
    cases hnext with
    | none => exact mirrored_pure h.result
    | some hw => exact ih hw

/-! ## Passes and calls -/

theorem mirrored_passWith (hA : AnalysesMirrored r dep dep' analyse analyse')
    (hconst : ∀ c ∈ s.constants, Like r c c) (budget : Nat) {bs bs' : Bindings}
    (hbs : LikeEach r bs bs') :
    Mirrored r dep dep' (Like r) (passWith analyse budget dep s bs)
      (passWith analyse' budget dep' s bs') := by
  refine (mirrored_quiet fun _ _ => Run.mirrored_changeAnalyzing (· ++ [s.id])).bind fun _ _ _ => ?_
  refine (mirrored_quiet fun _ _ => Run.mirrored_height).bind fun base base' hbase => ?_
  obtain rfl : base = base' := hbase
  refine (mirrored_quiet fun _ _ => Run.mirrored_enterScope).bind fun mark mark' hmark => ?_
  obtain rfl : mark = mark' := hmark
  refine (mirrored_quiet fun _ _ => Run.mirrored_bindAll hbs).bind fun _ _ _ => ?_
  have hwalk : Mirrored r dep dep' (Like r) (walkFrom analyse dep s ⟨base, mark⟩ budget .start)
      (walkFrom analyse' dep' s ⟨base, mark⟩ budget .start) :=
    mirrored_walkFrom hA hconst budget Run.mirrors_start
  refine hwalk.attempt.bind fun a b hab => ?_
  refine (mirrored_quiet fun _ _ => Run.mirrored_leaveScope mark).bind fun _ _ _ => ?_
  refine (mirrored_quiet fun _ _ => Run.mirrored_truncate base).bind fun _ _ _ => ?_
  refine (mirrored_quiet fun _ _ =>
    Run.mirrored_changeAnalyzing (·.filter (· ≠ s.id))).bind fun _ _ _ => ?_
  exact mirrored_quiet fun _ _ => Run.paired_ofExcept hab

theorem mirrored_analyseScript (hA : AnalysesMirrored r dep dep' analyse analyse')
    (hconst : ∀ c ∈ s.constants, Like r c c) (budget : Nat) {bs bs' : Bindings}
    (hbs : LikeEach r bs bs') :
    Mirrored r dep dep' (Like r) (analyseScript analyse budget dep s bs)
      (analyseScript analyse' budget dep' s bs') := by
  refine (mirrored_quiet fun _ _ => Run.mirrored_context).bind fun c d hcd => ?_
  obtain ⟨-, -, -, -, -, hanalyzing⟩ := hcd
  rw [← hanalyzing]
  by_cases hrunning : c.analyzing.contains s.id = true
  · simp only [if_pos hrunning]
    exact mirrored_pure like_nil
  · simp only [if_neg hrunning]
    refine (mirrored_quiet fun _ _ => Run.mirrored_beginCall).bind fun _ _ _ => ?_
    refine (mirrored_passWith hA hconst budget hbs).attempt.bind fun a b hab => ?_
    refine (mirrored_quiet fun _ _ => Run.mirrored_endCall).bind fun _ _ _ => ?_
    exact mirrored_quiet fun _ _ => Run.paired_ofExcept hab

/-- The call of a value mirrors that of a like value if the calls nested in them do. -/
theorem mirrored_analyseWith (hA : AnalysesMirrored r dep dep' analyse analyse') (budget : Nat) :
    AnalysesMirrored r dep dep' (analyseWith analyse budget dep)
      (analyseWith analyse' budget dep') := by
  intro f f' bs bs' hf hbs
  have hnil : Mirrored r dep dep' (Like r) (quiet (pure .nil)) (quiet (pure .nil)) :=
    mirrored_pure like_nil
  cases hf with
  | scalar h => cases f <;> first | exact hnil | cases h
  | script h hconst => exact mirrored_analyseScript hA hconst budget hbs
  | closure hf vars values =>
    exact hA _ _ _ _ hf (likeEach_append (likeEach_iff.2 ⟨vars, values⟩) hbs)
  | composition hfirst hsecond =>
    refine (hA _ _ _ _ hfirst hbs).bind fun v v' hv => ?_
    refine (mirrored_store Store.paired_internInput).bind fun var var' hvar => ?_
    obtain rfl : var = var' := hvar
    exact hA _ _ _ _ hsecond (.cons ⟨rfl, hv⟩ .nil)
  | placeholder =>
    refine mirrored_inScope ?_
    exact (mirrored_quiet fun _ _ => Run.mirrored_bindAll hbs).bind fun _ _ _ => hnil
  | union ha hb =>
    refine mirrored_inScope ?_
    refine (mirrored_quiet fun _ _ => Run.mirrored_bindAll hbs).bind fun _ _ _ => ?_
    refine (hA _ _ _ _ ha .nil).bind fun x x' hx => (hA _ _ _ _ hb .nil).bind fun y y' hy => ?_
    exact mirrored_store (paired_either hx hy)
  | @builtin i f h =>
    have hcall : ∀ A : ReactiveScript.Analyser, ∀ dep i bs,
        Run.analyseWith A budget dep (.builtin i f) bs = pure .nil := by
      intro A dep i bs
      simp only [Run.analyseWith, h]
    refine mirrored_quiet fun _ _ => ?_
    rw [hcall, hcall]
    exact paired_pure like_nil
  | collection | iterator => exact hnil

theorem mirrored_analyseFor (budget : Nat) :
    AnalysesMirrored r dep dep' (analyseFor dep budget) (analyseFor dep' budget) := by
  induction budget with
  | zero => exact fun _ _ _ _ _ _ => mirrored_quiet fun _ _ => paired_throw _
  | succ budget ih => exact mirrored_analyseWith ih budget

/-- The pass over a script whose constants are like themselves. -/
theorem mirrored_trackReads (dep dep' : Dependency) (hconst : ∀ c ∈ s.constants, Like r c c)
    (budget : Nat) :
    Mirrored r dep dep' (Like r) (trackReads budget dep s) (trackReads budget dep' s) :=
  mirrored_passWith (mirrored_analyseFor budget) hconst budget .nil

end Logged

end ReactiveScript
