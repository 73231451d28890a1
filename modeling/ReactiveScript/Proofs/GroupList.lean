import ReactiveScript.Proofs.Readings

/-
  Lists of groups in a pass.

  The nodes of registered variables are collected in a list, or two such lists are joined by an
  operator or by a branch. The iterator of a list begins with its first node and that of a union with
  the first node of its left side; a pass notes what making the list reads (`passes_groupList`).
-/

namespace ReactiveScript

/-- Lists of the nodes of variables, and their unions. -/
inductive GroupList
  | list (groups : List Variable)
  /-- One of two lists, as an operator or OR_ELSE chooses. -/
  | union (op : BinaryOp) (a b : GroupList)
  | ite (condition : Expression) (whenTrue whenFalse : GroupList)

namespace GroupList

/-- Append the code that collects the nodes of variables, each without a key. -/
def emitItems (groups : List Variable) (b : Builder) : Builder :=
  groups.foldl (fun b x => (b.pushConst .nil).getVar x) b

/-- Append the code of a list. -/
def emit : GroupList → Builder → Builder
  | list groups, b => (emitItems groups b).makeObject groups.length
  | union op x y, b => (y.emit (x.emit b)).binary op
  | ite c t e, b =>
    let (otherwise, b) := (c.emit b).jumpAhead .jumpIfNot
    let (done, b) := (t.emit b).jumpAhead .jump
    (e.emit (b.landHere otherwise)).landHere done

/-- The number of instructions. -/
def size : GroupList → Nat
  | list groups => 2 * groups.length + 1
  | union _ x y => x.size + y.size + 1
  | ite c t e => c.size + t.size + e.size + 2

/-- The constants in the order of their use. -/
def constants : GroupList → List Value
  | list groups => groups.map fun _ => .nil
  | union _ x y => x.constants ++ y.constants
  | ite c t e => c.constants ++ t.constants ++ e.constants

/-- The code that collects the nodes of variables, with `n` constants before. -/
def itemsCode : List Variable → Nat → List (Opcode × Nat)
  | [], _ => []
  | x :: rest, n => (.pushConst, n) :: (.getVar, x.id) :: itemsCode rest (n + 1)

/-- The instructions from position `pos` on, when there are `n` constants before. -/
def code : GroupList → Nat → Nat → List (Opcode × Nat)
  | list groups, _, n => itemsCode groups n ++ [(.makeObject, groups.length)]
  | union op x y, pos, n =>
    x.code pos n ++ y.code (pos + x.size) (n + x.constants.length) ++ [(.binary, Family.code op)]
  | ite c t e, pos, n =>
    let whenTrue := pos + c.size + 1
    let whenFalse := whenTrue + t.size + 1
    c.code pos n ++ (.jumpIfNot, whenFalse) :: (t.code whenTrue (n + c.constants.length) ++
      (.jump, whenFalse + e.size) ::
        e.code whenFalse (n + c.constants.length + t.constants.length))

theorem size_pos (g : GroupList) : 0 < g.size := by
  cases g <;> exact Nat.succ_pos _

theorem length_itemsCode (groups : List Variable) (n : Nat) :
    (itemsCode groups n).length = 2 * groups.length := by
  induction groups generalizing n with
  | nil => rfl
  | cons x rest ih => simp only [itemsCode, List.length_cons, ih, Nat.mul_add]

theorem length_code (g : GroupList) (pos n : Nat) : (g.code pos n).length = g.size := by
  induction g generalizing pos n with
  | list groups => simp [code, size, length_itemsCode]
  | union op x y ihx ihy => simp [code, size, ihx, ihy]; omega
  | ite c t e iht ihe => simp [code, size, Expression.length_code, iht, ihe]; omega

theorem emitItems_adds (groups : List Variable) (b : Builder) :
    b.Adds (emitItems groups b) (itemsCode groups b.constants.size) (groups.map fun _ => .nil) := by
  induction groups generalizing b with
  | nil => exact ⟨rfl, (List.append_nil _).symm, fun he => ⟨he, (List.append_nil _).symm⟩⟩
  | cons x rest ih =>
    have hpush := b.adds_onConstant .pushConst .nil
    have hget := hpush.trans ((b.pushConst .nil).adds_append .getVar x.id)
    have h := hget.trans (ih ((b.pushConst .nil).getVar x))
    have hsize : ((b.pushConst .nil).getVar x).constants.size = b.constants.size + 1 :=
      hget.size_constants
    rw [hsize] at h
    exact h

/-- Emitting a list adds its code and its constants. -/
theorem emit_adds (g : GroupList) (b : Builder) :
    b.Adds (g.emit b) (g.code b.position b.constants.size) g.constants := by
  induction g generalizing b with
  | list groups =>
    have h := (emitItems_adds groups b).trans
      ((emitItems groups b).adds_append .makeObject groups.length)
    rw [List.append_nil] at h
    exact h
  | union op x y ihx ihy =>
    have hx := ihx b
    have hxy := hx.trans (ihy (x.emit b))
    have h := hxy.trans ((y.emit (x.emit b)).adds_append .binary (Family.code op))
    rw [hx.size_constants, hx.position_eq, length_code, List.append_nil] at h
    exact h
  | ite c t e iht ihe =>
    have h := (c.emit_adds b).choice iht ihe t.length_code e.length_code
    rw [Expression.length_code] at h
    exact h

/-- All variables are registered. -/
def Registered (registry : Registry) : GroupList → Prop
  | list groups => ∀ x ∈ groups, registry.lookup? x ≠ none
  | union op x y => (op = .add ∨ op = .orElse) ∧ x.Registered registry ∧ y.Registered registry
  | ite c t e => c.Plain (fun x => registry.lookup? x ≠ none) ∧ t.Registered registry ∧
    e.Registered registry

/-- The node that an iterator over the list begins with in a pass. -/
def first (registry : Registry) : GroupList → Option Node
  | list groups => groups.head?.bind registry.lookup?
  | union _ x _ => x.first registry
  | ite _ _ e => e.first registry

/-- The owners that are read while the lists are made. -/
def readings (registry : Registry) (of : Variable → Set Node) : GroupList → Set OwnerId
  | list groups => {o | ∃ x ∈ groups, o ∈ registry.ownersOf x}
  | union _ x y => x.readings registry of ∪ y.readings registry of
  | ite c t e => c.readings registry of ∪ (t.readings registry of ∪ e.readings registry of)

end GroupList

namespace Run

open World

variable {analyse : Analyser} {dep : Dependency} {s : Script Value} {sc : Scene}
  {waiting : List WaitingPath} {w : World} {wk : Walk} {m : Machine} {pos n : Nat}
  {sketches : List Sketch}

/-! ## Collecting groups -/

/-- The path stands alone, and above the operands of the sketches lie these values, the lowest
first. -/
structure Collects (sc : Scene) (waiting : List WaitingPath) (sketches : List Sketch)
    (values : List Value) (pos : Nat) (wk : Walk) (w : World) (m : Machine) : Prop where
  alone : ∃ others, Alone sc waiting w wk m pos others
  frame : ∃ f, m.context.stack = values.reverse ++ f ++ sc.below ∧ List.Forall₂ w.Shows sketches f

theorem Alone.collects (h : Alone sc waiting w wk m pos sketches) :
    Collects sc waiting sketches [] pos wk w m :=
  ⟨⟨sketches, h⟩, h.shows.frame⟩

/-- One more value. -/
theorem Collects.pushed {values : List Value} {w' : World} {m' : Machine} {v : Value}
    {owners : Set OwnerId} (h : Collects sc waiting sketches values pos wk w m) (hle : w.Le w')
    (hfit : w'.Fits m') (hcontext : m'.context = m.context) (hv : w'.Knows v)
    (hnotes : Notes dep w w' owners) :
    After w' (Since dep w owners fun wk₁ w₁ m₁ =>
      Collects sc waiting sketches (values ++ [v]) (pos + 1) wk₁ w₁ m₁ ∧ w₁ = w') ((do
        push v
        return wk.next : Run Walk) m') := by
  obtain ⟨others, halone⟩ := h.alone
  obtain ⟨f, hs, hf⟩ := h.frame
  obtain ⟨g, hs₀, hg⟩ := halone.shows.frame
  have hs' : m'.context.stack = g ++ sc.below := (congrArg Context.stack hcontext).trans hs₀
  refine (after_pushed_eq (d := .any) halone hle hfit hs' hg (congrArg Context.env hcontext) hv trivial
    hnotes).mono ?_
  rintro wk₁ w₁ m₁ - ⟨hnotes, halone₁, rfl, rfl⟩
  refine ⟨hnotes, ⟨⟨_, halone₁⟩, f, ?_, hf.imp fun _ _ => hle.shows⟩, rfl⟩
  show v :: m'.context.stack = _
  rw [hcontext, hs, List.reverse_append]
  rfl

theorem withoutKeys_snoc (values : List Value) (v : Value) :
    withoutKeys (values ++ [v]) = withoutKeys values ++ [.nil] ++ [v] := by
  unfold withoutKeys
  rw [List.flatMap_append, List.append_assoc]
  rfl

theorem HeadLeads.snoc {old : Ident → Prop} {values : List Value} {first : Option Node}
    (h : HeadLeads old values first) {id : Ident} {g : Node} (hn : ¬ old id) :
    HeadLeads old (values ++ [.object id (.placeholder g)]) (first.or (some g)) := by
  cases h with
  | nil => exact .cons hn
  | cons hn => exact .cons hn

/-- The key of an element that has none is collected. -/
theorem Collects.takesKey {values : List Value}
    (h : Collects sc waiting sketches values pos wk w m) (hlater : ∀ p ∈ waiting, p.target ≠ pos)
    (hi : s.HasInstr pos (.pushConst, n)) (hnil : s.constants[n]? = some .nil) :
    Comes analyse dep s sc.region w wk m (Since dep w ∅ fun wk' w' m' =>
      Collects sc waiting sketches (values ++ [.nil]) (pos + 1) wk' w' m' ∧ w'.old = w.old) := by
  obtain ⟨others, halone⟩ := h.alone
  obtain ⟨_, hinstr⟩ := hi
  refine halone.comes hlater hinstr ?_
  have hconstant : ofExcept (s.constantAt wk.pos n) m = (.ok .nil, m) := by
    rw [constantAt_eq hnil]
    rfl
  refine After.bind_ok hconstant ((h.pushed (.refl w) halone.ground.fits rfl (knows_nil w)
    (notes_of_eq rfl dep)).mono ?_)
  rintro wk' w' m' - ⟨hnotes, hcollects, rfl⟩
  exact ⟨hnotes, hcollects, rfl⟩

/-- The placeholder of a registered variable is collected, and reading the variable is noted. -/
theorem Collects.takesPlaceholder {values : List Value} {x : Variable} {g : Node}
    (hdep : dep.isDummy = false) (h : Collects sc waiting sketches values pos wk w m)
    (hlater : ∀ p ∈ waiting, p.target ≠ pos) (hi : s.HasInstr pos (.getVar, x.id))
    (hg : sc.registry.lookup? x = some g) :
    Comes analyse dep s sc.region w wk m (Since dep w (sc.registry.ownersOf x) fun wk' w' m' =>
      ∃ id, ¬ w'.old id ∧ w'.old = w.old ∧
        Collects sc waiting sketches (values ++ [.object id (.placeholder g)]) (pos + 1) wk' w' m') := by
  obtain ⟨others, halone⟩ := h.alone
  obtain ⟨_, hinstr⟩ := hi
  refine halone.comes hlater hinstr ?_
  refine (after_variableInPass halone.ground.fits x dep).bind ?_
  rintro v w₁ m₁ hle₁ h₁ ⟨hv, hcontext, hnode, -⟩
  rw [halone.ground.registry] at hnode
  obtain ⟨id, hn, rfl⟩ := (hnode g hg).1 halone.ground.separates
  have hnotes : Notes dep w w₁ (sc.registry.ownersOf x) := by
    unfold Registry.ownersOf
    rw [hg]
    exact (hnode g hg).2 hdep
  refine (h.pushed hle₁ h₁ hcontext hv hnotes).mono ?_
  rintro wk' w' m' - ⟨hnotes, hcollects, rfl⟩
  exact ⟨hnotes, id, hle₁.old ▸ hn, hle₁.old, hcollects⟩

/-- The placeholders of registered variables are collected without keys. -/
theorem comes_items {groups : List Variable} {values : List Value} {first : Option Node}
    (hdep : dep.isDummy = false) (hgroups : ∀ x ∈ groups, sc.registry.lookup? x ≠ none)
    (hcode : s.HasCode pos (GroupList.itemsCode groups n))
    (hconst : s.HasConstants n (groups.map fun _ => .nil))
    (hlater : ∀ p ∈ waiting, pos + 2 * groups.length < p.target)
    (hvalues : HeadLeads w.old values first)
    (h : Collects sc waiting sketches (withoutKeys values) pos wk w m) :
    Comes analyse dep s sc.region w wk m
      (Since dep w {o | ∃ x ∈ groups, o ∈ sc.registry.ownersOf x} fun wk' w' m' =>
        ∃ values', Collects sc waiting sketches (withoutKeys values') (pos + 2 * groups.length) wk' w'
          m' ∧ values'.length = values.length + groups.length ∧
          HeadLeads w'.old values' (first.or (groups.head?.bind sc.registry.lookup?))) := by
  induction groups generalizing w wk m pos n values first with
  | nil =>
    have hnone : {o | ∃ x ∈ ([] : List Variable), o ∈ sc.registry.ownersOf x} = ∅ :=
      Set.eq_empty_of_forall_notMem fun o ⟨x, hx, _⟩ => by cases hx
    rw [hnone]
    refine Comes.here (since_self ⟨values, h, rfl, ?_⟩)
    rwa [List.head?_nil, Option.bind_none, Option.or_none]
  | cons x rest ih =>
    obtain ⟨hpush, hget, hcode⟩ := hcode
    obtain ⟨hnil, hconst⟩ := hconst
    obtain ⟨g, hg⟩ := Option.ne_none_iff_exists'.1 (hgroups x List.mem_cons_self)
    have hlater' : ∀ p ∈ waiting, pos + 1 + 1 + 2 * rest.length < p.target := by
      intro p hp
      have := hlater p hp
      rw [List.length_cons] at this
      omega
    have howners : {o | ∃ y ∈ x :: rest, o ∈ sc.registry.ownersOf y} =
        sc.registry.ownersOf x ∪ {o | ∃ y ∈ rest, o ∈ sc.registry.ownersOf y} := by
      ext o
      simp only [Set.mem_ofPred_eq, Set.mem_union, List.mem_cons, exists_eq_or_imp]
    have hend : pos + 2 * (x :: rest).length = pos + 1 + 1 + 2 * rest.length := by
      rw [List.length_cons]
      omega
    rw [howners, hend]
    have hhere : ∀ p ∈ waiting, p.target ≠ pos ∧ p.target ≠ pos + 1 := by
      intro p hp
      have := hlater' p hp
      omega
    refine (h.takesKey (fun p hp => (hhere p hp).1) hpush hnil).quietly ?_
    rintro w₁ wk₁ m₁ - ⟨h₁, hold₁⟩
    refine (h₁.takesPlaceholder hdep (fun p hp => (hhere p hp).2) hget hg).andThen ?_
    rintro w₂ wk₂ m₂ - ⟨id, hn, hold₂, h₂⟩
    rw [← withoutKeys_snoc] at h₂
    have hvalues₂ : HeadLeads w₂.old (values ++ [.object id (.placeholder g)]) (first.or (some g)) := by
      refine HeadLeads.snoc ?_ hn
      rw [hold₂, hold₁]
      exact hvalues
    refine (ih (fun y hy => hgroups y (List.mem_cons_of_mem _ hy)) hcode hconst hlater' hvalues₂
      h₂).mono ?_
    rintro w₃ wk₃ m₃ - ⟨hnotes, values', hcollects, hlen, hfirst⟩
    refine ⟨hnotes, values', hcollects, ?_, ?_⟩
    · rw [hlen, List.length_append, List.length_cons]
      show values.length + 1 + rest.length = _
      omega
    · have hhead : ((x :: rest).head?.bind sc.registry.lookup?) = some g := hg
      rw [hhead]
      cases first <;> exact hfirst

theorem length_withoutKeys (values : List Value) : (withoutKeys values).length = 2 * values.length := by
  induction values with
  | nil => rfl
  | cons v rest ih =>
    show (withoutKeys rest).length + 2 = 2 * (rest.length + 1)
    rw [ih, Nat.mul_add]

/-- A list of the nodes of registered variables. -/
theorem passes_list {groups : List Variable} (hdep : dep.isDummy = false)
    (hgroups : ∀ x ∈ groups, sc.registry.lookup? x ≠ none)
    (hcode : s.HasCode pos (GroupList.itemsCode groups n ++ [(.makeObject, groups.length)]))
    (hconst : s.HasConstants n (groups.map fun _ => .nil)) :
    Passes analyse dep s sc sc pos (pos + (2 * groups.length + 1)) sketches
      (.list (groups.head?.bind sc.registry.lookup?) :: sketches)
      {o | ∃ x ∈ groups, o ∈ sc.registry.ownersOf x} := by
  intro waiting w wk m hw harr
  obtain ⟨hitems, ⟨hn, hmake⟩, -⟩ := eachAt_append.1 hcode
  rw [GroupList.length_itemsCode] at hmake
  have hlater : ∀ p ∈ waiting, pos + 2 * groups.length < p.target := hw
  refine (Comes.settled harr fun p hp => ?_).quietly ?_
  · have := hlater p hp
    omega
  rintro w₁ wk₁ m₁ - halone
  refine (comes_items hdep hgroups hitems hconst hlater .nil halone.collects).andQuietly ?_
  rintro w₂ wk₂ m₂ - ⟨values, hcollects, hlen, hfirst⟩
  obtain ⟨others, halone₂⟩ := hcollects.alone
  obtain ⟨f, hs, hf⟩ := hcollects.frame
  refine halone₂.comes (fun p hp => Nat.ne_of_gt (hlater p hp)) hmake ?_
  have hlen' : (withoutKeys values).reverse.length = 2 * groups.length := by
    rw [List.length_reverse, length_withoutKeys, hlen]
    simp only [List.length_nil, Nat.zero_add]
  have htake := takeMany_eq (f := (withoutKeys values).reverse ++ f) (n := 2 * groups.length)
    halone₂.ground.base hs (by rw [List.length_append, hlen']; omega)
  rw [← hlen', List.take_left, List.drop_left, List.reverse_reverse, hlen'] at htake
  have hknown : ∀ v ∈ withoutKeys values, w₂.Knows v := by
    intro v hv
    refine halone₂.ground.fits.stack v ?_
    rw [hs]
    exact List.mem_append_left _ (List.mem_append_left _ (List.mem_reverse.2 hv))
  have hfit : w₂.Fits (m₂.withStack (f ++ sc.below)) := by
    refine halone₂.ground.fits.setStack fun v hv => halone₂.ground.fits.stack v ?_
    rw [hs, List.append_assoc]
    exact List.mem_append_right _ hv
  have hvalues : ∀ v ∈ values, w₂.Knows v := fun v hv =>
    hknown v (List.mem_flatMap.2 ⟨v, hv, List.mem_cons_of_mem _ List.mem_cons_self⟩)
  have hfirst' : HeadLeads w₂.old values (groups.head?.bind sc.registry.lookup?) := hfirst
  refine After.bind_ok htake ((after_store hfit
    (after_makeList halone₂.ground.separates hfit.store hvalues hfirst')).bind ?_)
  rintro v w₃ m₃ hle₃ h₃ ⟨⟨⟨hv, hleads⟩, hquiet⟩, hcontext⟩
  have henv : m₃.context.env = m₂.context.env := by
    rw [hcontext]
    rfl
  refine (after_pushed (d := .list _) halone₂ hle₃ h₃ (congrArg Context.stack hcontext) hf henv hv hleads
    (notes_of_eq hquiet dep)).mono fun _ _ _ _ hdone => ⟨hdone.notes, hdone.holds.arrived⟩

/-- A pass over the code of a list leaves a value whose iterator begins with the first node, and notes
what making the list reads. -/
theorem passes_groupList {g : GroupList} (hg : g.Registered sc.registry) (hdep : dep.isDummy = false)
    (hcode : s.HasCode pos (g.code pos n)) (hconst : s.HasConstants n g.constants) :
    Passes analyse dep s sc sc pos (pos + g.size) sketches (.list (g.first sc.registry) :: sketches)
      (g.readings sc.registry sc.nodesOf) := by
  induction g generalizing pos n sketches with
  | list groups => exact passes_list hdep hg hcode hconst
  | union op x y ihx ihy =>
    obtain ⟨hop, hx, hy⟩ := hg
    obtain ⟨hxy, hlast, -⟩ := eachAt_append.1 hcode
    obtain ⟨hcodeX, hcodeY⟩ := eachAt_append.1 hxy
    obtain ⟨hconstX, hconstY⟩ := eachAt_append.1 hconst
    rw [GroupList.length_code] at hcodeY
    rw [List.length_append, GroupList.length_code, GroupList.length_code,
      ← Nat.add_assoc] at hlast
    have hend : pos + (GroupList.union op x y).size = pos + x.size + y.size + 1 := by
      simp only [GroupList.size]
      omega
    have hjoined : Sketch.operated op (.list (x.first sc.registry)) (.list (y.first sc.registry)) =
        .list (x.first sc.registry) := by
      rcases hop with rfl | rfl <;> rfl
    have hne : op ≠ .member := by
      rcases hop with rfl | rfl <;> decide
    rw [hend, GroupList.first, ← hjoined]
    refine Passes.quietly ?_ (passes_binary hne hlast) rfl (Nat.le_succ _)
    exact (ihx hx hcodeX hconstX).trans (ihy hy hcodeY hconstY) rfl (Nat.le_add_right _ _)
  | ite c t e iht ihe =>
    obtain ⟨hc, ht, he⟩ := hg
    obtain ⟨hcodeC, hif, hrest⟩ := eachAt_append.1 hcode
    rw [Expression.length_code] at hif hrest
    obtain ⟨hcodeT, hjump, hcodeE⟩ := eachAt_append.1 hrest
    obtain ⟨hconstCT, hconstE⟩ := eachAt_append.1 hconst
    obtain ⟨hconstC, hconstT⟩ := eachAt_append.1 hconstCT
    rw [GroupList.length_code] at hjump hcodeE
    rw [List.length_append, ← Nat.add_assoc] at hconstE
    have hpos := e.size_pos
    have hend : pos + (GroupList.ite c t e).size = pos + c.size + 1 + t.size + 1 + e.size := by
      simp only [GroupList.size]
      omega
    rw [hend]
    refine (passes_expression (hc.mono fun _ => .inl) hdep hcodeC hconstC).trans ?_ rfl (by omega)
    exact passes_choice hif (iht ht hcodeT hconstT) hjump (ihe he hcodeE hconstE) (by omega)
      (by omega)

end Run

end ReactiveScript
