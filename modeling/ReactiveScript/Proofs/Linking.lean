import ReactiveScript.Proofs.PassRestores
import ReactiveScript.Proofs.Session

/-
  What linking is made of.

  Linking first enrolls the card: its owners forget who reads them, and its two groups are
  registered (`Template.run_enroll`). Then there is one pass for every script of a field, and two
  for every script of a style (`Template.trackAll`). What holds of passes and of the combinations
  that linking makes of them holds of all of them together (`Run.PassClosed.trackAll`), so they give
  back operands and variables, and keep the registry and the settings.
-/

namespace ReactiveScript

/-! ## Content flags -/

/-- The content flag of a computed value that has a script. -/
def Computed.flag? {α : Type} (p : Computed α) : Option Bool := p.script.map fun _ => p.readsContent

/-- The content flags of the properties that have a script. -/
def Style.flags (s : Style) (p : Property) : Option Bool := (Property.get s p).flag?

/-- A style that was classified and has the same flags is the same. -/
theorem Style.Reclassified.eq_of_flags {s s' : Style} (h : s.Reclassified s')
    (hflags : s'.flags = s.flags) : s' = s := by
  refine h.frame.eq fun p => ?_
  obtain ⟨hvalue, hscript, hunscripted⟩ := h.properties p
  have hflag := congrFun hflags p
  unfold Style.flags Computed.flag? at hflag
  generalize Property.get s p = c, Property.get s' p = c' at hvalue hscript hunscripted hflag
  obtain ⟨value, script, readsContent⟩ := c
  obtain ⟨value', script', readsContent'⟩ := c'
  obtain rfl : value' = value := hvalue
  obtain rfl : script' = script := hscript
  cases script' with
  | none => rw [show readsContent' = readsContent from hunscripted rfl]
  | some _ => rw [show readsContent' = readsContent from Option.some.inj hflag]

theorem Style.owner_put {s : Style} {p : Property} {c : Computed p.Carrier}
    (hc : c.script = (Property.get s p).script) : (Property.put s p c).owner = s.owner := by
  unfold Style.owner
  rw [(s.sameFrame_put p c).name, (s.sameFrame_put p c).dependents]
  congr 2
  funext q
  by_cases hpq : p = q
  · subst hpq
    rw [Property.get_put_self, hc]
  · rw [Property.get_put_of_ne s hpq]

theorem Style.flags_put_self (s : Style) (p : Property) (c : Computed p.Carrier) :
    (Property.put s p c).flags p = c.flag? := by
  unfold Style.flags
  rw [Property.get_put_self]

theorem Style.flags_put_of_ne (s : Style) {p q : Property} (h : p ≠ q) (c : Computed p.Carrier) :
    (Property.put s p c).flags q = s.flags q := by
  unfold Style.flags
  rw [Property.get_put_of_ne s h]

/-- Classify a computed value, unless something failed before. -/
def Computed.checkUnless {α : Type} (budget : Nat) (p : Computed α) (failure : Option EvalError) :
    Run (Computed α × Option EvalError) := do
  match failure with
  | some e => return (p, some e)
  | none =>
    match ← Run.attempt (p.checkContent budget) with
    | .ok p => return (p, none)
    | .error e => return (p, some e)

/-- Classify a property of a style, unless one before it failed. -/
def Style.checkProperty (budget : Nat) (s : Style) (p : Property) :
    StateT (Option EvalError) Run Style := do
  return Property.put s p (← (Property.get s p).checkUnless budget)

theorem Style.checkContents_eq (budget : Nat) (s : Style) :
    s.checkContents budget = Property.all.foldlM (Style.checkProperty budget) s none := by
  unfold Style.checkContents
  rw [Style.mapProperties_eq]
  rfl

/-- Registering a style goes over the scripts of its properties. -/
theorem Style.trackReads_eq (budget : Nat) (s : Style) (dep : Dependency) :
    s.trackReads budget dep =
      Property.all.forM fun p => (Property.get s p).trackReads budget dep := by
  unfold Style.trackReads Style.mapProperties
  simp only [bind_assoc, pure_bind, Property.all]
  rfl

/-! ## Forgetting the readers -/

/-- The lists of dependents when those of some owners are cleared. -/
def clearedLists (owners : List OwnerId) (lists : Array (List Dependency)) :
    Array (List Dependency) :=
  owners.foldl (fun lists owner => lists.setIfInBounds owner []) lists

theorem getElem?_clearedLists (owners : List OwnerId) (lists : Array (List Dependency))
    (owner : OwnerId) : (clearedLists owners lists)[owner]? =
      if owner ∈ owners then lists[owner]?.map fun _ => [] else lists[owner]? := by
  induction owners generalizing lists with
  | nil => rfl
  | cons other rest ih =>
    have hset : (lists.setIfInBounds other [])[owner]? =
        if other = owner then lists[owner]?.map fun _ => [] else lists[owner]? := by
      rw [Array.getElem?_setIfInBounds]
      by_cases ho : other = owner
      · subst ho
        rw [if_pos rfl, if_pos rfl]
        by_cases hlt : other < lists.size
        · simp [hlt]
        · simp [hlt]
      · rw [if_neg ho, if_neg ho]
    show (clearedLists rest (lists.setIfInBounds other []))[owner]? = _
    rw [ih, hset]
    by_cases ho : other = owner
    · subst ho
      rw [if_pos rfl, if_pos List.mem_cons_self, Option.map_map]
      exact ite_self _
    · rw [if_neg ho]
      simp only [List.mem_cons, Ne.symm ho, false_or]

theorem size_clearedLists (owners : List OwnerId) (lists : Array (List Dependency)) :
    (clearedLists owners lists).size = lists.size := by
  induction owners generalizing lists with
  | nil => rfl
  | cons owner rest ih => exact (ih _).trans Array.size_setIfInBounds

theorem Store.forM_clearDependents {α : Type} (owner : α → OwnerId) (xs : List α) (s : Store) :
    xs.forM (fun x => Store.clearDependents (owner x)) s =
      ((), { s with dependents := clearedLists (xs.map owner) s.dependents }) := by
  induction xs generalizing s with
  | nil => rfl
  | cons x rest ih => exact ih { s with dependents := s.dependents.setIfInBounds (owner x) [] }

namespace Template

variable {t : Template} {budget : Nat} {m : Machine}

/-- The owners of a card: its fields and its styles. -/
def owners (t : Template) : List OwnerId :=
  t.fields.map (·.field.dependents) ++ t.styles.map (·.style.dependents)

theorem run_clearDependents (t : Template) (s : Store) : t.clearDependents s =
    ((), { s with dependents := clearedLists t.owners s.dependents }) := by
  have hfields := Store.forM_clearDependents (fun c : FieldCell => c.field.dependents) t.fields s
  have hstyles := Store.forM_clearDependents (fun c : StyleCell => c.style.dependents) t.styles
    { s with dependents := clearedLists (t.fields.map (·.field.dependents)) s.dependents }
  unfold clearDependents owners clearedLists
  rw [List.foldl_append]
  show (t.styles.forM fun c => Store.clearDependents c.style.dependents)
    (t.fields.forM (fun c => Store.clearDependents c.field.dependents) s).2 = _
  rw [hfields]
  exact hstyles

/-! ## Enrolling -/

/-- The group of the fields. -/
def fieldsNode (t : Template) : Node :=
  t.fields.foldl (fun node c => node.addMember (.ofOwner c.field.name c.field.dependents))
    (.emptyGroup "card")

/-- The group of the styles. -/
def stylesNode (t : Template) : Node :=
  t.styles.foldl (fun node c => node.addMember c.style.toNode) (.emptyGroup "card style")

theorem name_foldl_addMember {α : Type} (member : α → Node) (xs : List α) (node : Node) :
    (xs.foldl (fun node x => node.addMember (member x)) node).name = node.name := by
  induction xs generalizing node with
  | nil => rfl
  | cons x rest ih =>
    rw [List.foldl_cons, ih]
    cases node <;> rfl

theorem name_fieldsNode (t : Template) : t.fieldsNode.name = "card" := by
  have hname : normalName "card" = "card" := by decide +kernel
  exact (name_foldl_addMember ..).trans hname

theorem name_stylesNode (t : Template) : t.stylesNode.name = "card style" := by
  have hname : normalName "card style" = "card style" := by decide +kernel
  exact (name_foldl_addMember ..).trans hname

/-- Register the card with nobody reading it. -/
def enroll (t : Template) : Run Unit := do
  Run.store t.clearDependents
  t.toNodes.forM Run.insertNode

/-- The variables `card` and `card style`, and the names with them. -/
def cardNames (names : Names) : Variable × Variable × Names :=
  let card := names.intern "card"
  let cardStyle := card.2.intern "card style"
  (card.1, cardStyle.1, cardStyle.2)

/-- The machine when the card is enrolled. -/
def enrolled (t : Template) (m : Machine) : Machine where
  context := { m.context with registry := ⟨Assoc.insert (cardNames m.store.names).2.1 t.stylesNode
    (Assoc.insert (cardNames m.store.names).1 t.fieldsNode m.context.registry.nodes)⟩ }
  store := { m.store with
    names := (cardNames m.store.names).2.2
    dependents := clearedLists t.owners m.store.dependents }

/-- The machine when a node is registered. -/
def inserted (node : Node) (m : Machine) : Machine where
  context := { m.context with registry :=
    ⟨Assoc.insert (m.store.names.intern node.name).1 node m.context.registry.nodes⟩ }
  store := { m.store with names := (m.store.names.intern node.name).2 }

theorem run_insertNode (node : Node) (m : Machine) :
    Run.insertNode node m = (.ok (), inserted node m) := rfl

theorem run_enroll (t : Template) (m : Machine) : t.enroll m = (.ok (), t.enrolled m) := by
  have hclear : Run.store t.clearDependents m = (.ok (), { m with store := { m.store with
      dependents := clearedLists t.owners m.store.dependents } }) := by
    rw [Run.run_store, run_clearDependents]
  have hnodes : t.toNodes.forM Run.insertNode =
      (do Run.insertNode t.fieldsNode; Run.insertNode t.stylesNode; pure ()) := rfl
  unfold enroll
  rw [Run.run_bind_ok hclear, hnodes, Run.run_bind_ok (run_insertNode _ _),
    Run.run_bind_ok (run_insertNode _ _)]
  unfold inserted
  rw [name_fieldsNode, name_stylesNode]
  rfl

theorem lookup?_enrolled (t : Template) (m : Machine) (var : Variable) :
    (t.enrolled m).context.registry.lookup? var =
      if (cardNames m.store.names).2.1 = var then some t.stylesNode
      else if (cardNames m.store.names).1 = var then some t.fieldsNode
      else m.context.registry.lookup? var := by
  unfold enrolled Registry.lookup?
  rw [Assoc.find?_insert, Assoc.find?_insert]

/-! ## All passes of a card -/

/-- Find out who reads what. -/
def trackAll (budget : Nat) (t : Template) : Run (Template × Option EvalError) := do
  match ← Run.attempt (linkFields budget 0 t.fields) with
  | .error e => return (t, some e)
  | .ok () =>
    let (styles, failure) ← linkStyles budget 0 t.styles
    let t := { t with styles }
    return (if failure.isNone then t.markAllDirty else t, failure)

theorem link_eq (budget : Nat) (t : Template) :
    t.link budget = (do t.enroll; t.trackAll budget) := by
  unfold link enroll
  rw [bind_assoc]
  rfl

theorem run_link (budget : Nat) (t : Template) (m : Machine) :
    t.link budget m = t.trackAll budget (t.enrolled m) := by
  rw [link_eq, Run.run_bind_ok (run_enroll t m)]

end Template

namespace Run

/-- A property of evaluations that passes have and everything that linking puts together from what
has it. -/
structure PassClosed (J : {α : Type} → Run α → Prop) : Prop where
  pure : ∀ {α : Type} (a : α), J (pure a : Run α)
  bind : ∀ {α β : Type} {x : Run α} {f : α → Run β}, J x → (∀ a, J (f a)) → J (x >>= f)
  attempt : ∀ {α : Type} {x : Run α}, J x → J (attempt x)
  store : ∀ {α : Type} (x : StateM Store α), J (store x)
  trackReads : ∀ (budget : Nat) (dep : Dependency) (s : Script Value), J (trackReads budget dep s)

namespace PassClosed

variable {J : {α : Type} → Run α → Prop}

theorem forM (hJ : PassClosed J) {β : Type} {f : β → Run PUnit} (hf : ∀ b, J (f b))
    (xs : List β) : J (xs.forM f) := by
  induction xs with
  | nil => exact hJ.pure ()
  | cons x rest ih => exact hJ.bind (hf x) fun _ => ih

theorem foldlM_state (hJ : PassClosed J) {σ β γ : Type} {f : β → γ → StateT σ Run β}
    (hf : ∀ b c st, J (f b c st)) (xs : List γ) (b : β) (st : σ) : J (xs.foldlM f b st) := by
  induction xs generalizing b st with
  | nil => exact hJ.pure (b, st)
  | cons x rest ih => exact hJ.bind (hf b x st) fun r => ih r.1 r.2

theorem trackComputed (hJ : PassClosed J) {α : Type} (budget : Nat) (p : Computed α)
    (dep : Dependency) : J (p.trackReads budget dep) := by
  unfold Computed.trackReads
  cases p.script with
  | none => exact hJ.pure ()
  | some s => exact hJ.bind (hJ.trackReads budget dep s) fun _ => hJ.pure ()

theorem checkContent (hJ : PassClosed J) {α : Type} (budget : Nat) (p : Computed α) :
    J (p.checkContent budget) := by
  unfold Computed.checkContent
  cases p.script with
  | none => exact hJ.pure p
  | some s =>
    refine hJ.bind ?_ fun _ => hJ.pure _
    refine hJ.bind (hJ.store _) fun _ => hJ.bind (hJ.trackReads _ _ _) fun _ => ?_
    exact hJ.bind (hJ.store _) fun _ => hJ.pure _

theorem trackStyle (hJ : PassClosed J) (budget : Nat) (s : Style) (dep : Dependency) :
    J (s.trackReads budget dep) := by
  rw [Style.trackReads_eq]
  exact hJ.forM (fun p => hJ.trackComputed budget _ dep) Property.all

theorem checkContents (hJ : PassClosed J) (budget : Nat) (s : Style) :
    J (s.checkContents budget) := by
  rw [Style.checkContents_eq]
  refine hJ.foldlM_state (fun s p failure => ?_) _ _ _
  refine hJ.bind ?_ fun _ => hJ.pure _
  cases failure with
  | some e => exact hJ.pure _
  | none =>
    refine hJ.bind (hJ.attempt (hJ.checkContent budget _)) fun result => ?_
    cases result <;> exact hJ.pure _

theorem linkFields (hJ : PassClosed J) (budget index : Nat) (cells : List FieldCell) :
    J (Template.linkFields budget index cells) := by
  induction cells generalizing index with
  | nil => exact hJ.pure ()
  | cons c rest ih => exact hJ.bind (hJ.trackComputed budget _ _) fun _ => ih _

theorem linkStyles (hJ : PassClosed J) (budget index : Nat) (cells : List StyleCell) :
    J (Template.linkStyles budget index cells) := by
  induction cells generalizing index with
  | nil => exact hJ.pure _
  | cons c rest ih =>
    refine hJ.bind (hJ.attempt (hJ.trackStyle budget _ _)) fun result => ?_
    cases result with
    | error e => exact hJ.pure _
    | ok _ =>
      refine hJ.bind (hJ.checkContents budget _) fun checked => ?_
      obtain ⟨style, failure⟩ := checked
      cases failure with
      | some e => exact hJ.pure _
      | none => exact hJ.bind (ih _) fun _ => hJ.pure _

theorem trackAll (hJ : PassClosed J) (budget : Nat) (t : Template) : J (t.trackAll budget) := by
  refine hJ.bind (hJ.attempt (hJ.linkFields budget 0 _)) fun result => ?_
  cases result with
  | error e => exact hJ.pure _
  | ok _ => exact hJ.bind (hJ.linkStyles budget 0 _) fun _ => hJ.pure _

end PassClosed

theorem passClosed_neutral : PassClosed Neutral where
  pure := neutral_pure
  bind hx hf := hx.bind composes_retained hf
  attempt hx := hx.attempt
  store := neutral_store
  trackReads budget _ s := passWith_neutral (analyseFor_neutral budget) budget s []

theorem passClosed_keeps {γ : Type} (part : Context → γ) [Unaffected part] :
    PassClosed (Keeps part) where
  pure := keeps_pure
  bind hx hf := hx.bind hf
  attempt hx := hx.attempt
  store := keeps_store
  trackReads := keeps_trackReads

end Run

end ReactiveScript
