import ReactiveScript.Proofs.Showing

/-
  Render cycles that are watched.

  The render cycle once more, over a monad in which an evaluation also tells what can be seen of it: the
  scripts of properties that are evaluated, the styles that are measured and the listeners that are
  told, in order, whether the cycle comes to an end or not. It does the same on the same machines
  (`run_render`): the events are only looked at from outside.
-/

namespace ReactiveScript

/-- What can be seen of a render cycle. -/
inductive RenderEvent
  /-- The script of a property of the style at an index is evaluated; says whether another value is
  stored. -/
  | evaluated (style : Nat) (property : Property) (replaced : Bool)
  /-- The style at an index is measured. -/
  | measured (style : Nat)
  /-- A listener of the style at an index is told of changes. -/
  | told (style : Nat) (listener : String) (changes : Changes)
  deriving DecidableEq, Repr

/-- An evaluation, and what is seen of it when it starts on a machine. -/
structure Watched (α : Type) where
  run : Run α
  events : Machine → List RenderEvent

namespace Watched

open Template

variable {α β : Type}

instance : Monad Watched where
  pure a := ⟨pure a, fun _ => []⟩
  bind x f := {
    run := x.run >>= fun a => (f a).run
    events := fun m => x.events m ++ match x.run m with
      | (.ok a, m') => (f a).events m'
      | (.error _, _) => [] }

/-- What nothing is seen of. -/
def quiet (x : Run α) : Watched α := ⟨x, fun _ => []⟩

/-- What is seen as one event, which may show the result, if there is one. -/
def seen (event : Option α → RenderEvent) (x : Run α) : Watched α :=
  ⟨x, fun m => [event (x m).1.toOption]⟩

/-- Run in a scope of its own. -/
def inScope (x : Watched α) : Watched α :=
  ⟨Run.inScope x.run, fun m => x.events (Run.enterScope m).2⟩

theorem run_bind (x : Watched α) (f : α → Watched β) :
    (x >>= f).run = x.run >>= fun a => (f a).run := rfl

theorem run_inScope (x : Watched α) : (inScope x).run = Run.inScope x.run := rfl

/-! ## Styles -/

/-- Run the script of a property of the style at an index if it belongs to the phase. Its flag joins
the others if another value is stored. -/
def updateProperty (budget index : Nat) (onlyContent : Bool) (style : String)
    (r : Changes × Style) (p : Property) : Watched (Changes × Style) := do
  let c := Property.get r.2 p
  if !c.isScripted || c.readsContent != onlyContent then return r
  let (changed, c) ← seen (fun out => .evaluated index p (out.any Prod.fst))
    (Style.updateProperty budget style p.name c)
  return (if changed then r.1 ∪ p.flag else r.1, Property.put r.2 p c)

/-- Run the scripts of the style at an index that read measured content, or those that do not. -/
def update (budget index : Nat) (s : Style) (onlyContent : Bool) : Watched (Changes × Style) :=
  Property.all.foldlM (updateProperty budget index onlyContent s.name) (.none, s)

/-- Run the scripts of a style for one phase and mark its readers if it changed. -/
def runStyle (budget : Nat) (onlyContent : Bool) (c : Cycle) (index : Nat) : Watched Cycle :=
  match c.template.styleAt? index with
  | none => return c
  | some style => do
    quiet c.template.bind
    let (mask, style) ← update budget index style onlyContent
    let c := { c with template := c.template.setStyle index style }
    if mask.isEmpty then return c
    else
      let c := c.modifyCell index fun cell => { cell with mask := cell.mask ∪ mask }
      return (← quiet (c.readers style)).foldl Cycle.markReader c

/-! ## Cycles -/

/-- Visit a style in the first phase; says whether it ran. -/
def visitStructure (budget : Nat) (c : Cycle) (index : Nat) : Watched (Cycle × Bool) :=
  match c.cells[index]? with
  | some cell =>
    if cell.structureDirty then do
      let c := c.modifyCell index fun cell => { cell with structureDirty := false }
      return (← runStyle budget false c index, true)
    else return (c, false)
  | none => return (c, false)

/-- Visit a style in the second phase; says whether it ran. -/
def visitContent (budget : Nat) (c : Cycle) (index : Nat) : Watched (Cycle × Bool) :=
  match c.cells[index]?, c.template.styleAt? index with
  | some cell, some style =>
    if cell.contentDirty then
      let c := c.modifyCell index fun cell => { cell with contentDirty := false }
      if style.readsContent then do return (← runStyle budget true c index, true)
      else return (c, false)
    else return (c, false)
  | _, _ => return (c, false)

/-- Visit styles in order; says whether any ran. -/
def sweep (visit : Cycle → Nat → Watched (Cycle × Bool)) :
    Cycle → List Nat → Watched (Cycle × Bool)
  | c, [] => return (c, false)
  | c, index :: rest => do
    let (c, ran) ← visit c index
    let (c, more) ← sweep visit c rest
    return (c, ran || more)

/-- Sweep until nothing runs, at most a number of times. -/
def sweeps (visit : Cycle → Nat → Watched (Cycle × Bool)) : Nat → Cycle → Watched Cycle
  | 0, c => return c
  | tries + 1, c => do
    let (c, ran) ← sweep visit c (List.range c.template.styles.length)
    if ran then sweeps visit tries c else return c

/-- Sweep once per style at most. -/
def phase (visit : Cycle → Nat → Watched (Cycle × Bool)) (c : Cycle) : Watched Cycle :=
  sweeps visit c.template.styles.length c

/-- Store what was measured of a style, and mark who reads its content if that changed. -/
def storeMeasured (c : Cycle) (index : Nat) (style : Style) : Option Measurement → Run Cycle
  | none => pure c
  | some measured => do
    let (changed, next) := style.storeContent measured
    let c := { c with template := c.template.setStyle index next }
    if changed then pure ((← c.readers next).foldl Cycle.markContentReader c) else pure c

/-- Measure styles in order. -/
def measureAll (measure : Style → Run (Option Measurement)) :
    Cycle → List Nat → Watched (Cycle × List Style)
  | c, [] => return (c, [])
  | c, index :: rest =>
    match c.template.styleAt? index with
    | none => measureAll measure c rest
    | some style => do
      let result ← seen (fun _ => .measured index) (measure style)
      let c ← quiet (storeMeasured c index style result)
      let (c, styles) ← measureAll measure c rest
      return (c, style :: styles)

/-- Tell every listener of the style at an index of a change. -/
def notify (index : Nat) (s : Style) (mask : Changes) : Watched Unit :=
  s.listeners.forM fun listener =>
    seen (fun _ => .told index listener mask)
      (Run.store (Store.write (.styleChanged listener s.name mask)))

/-- Tell the listeners of the styles that changed; the first is the one at the index. -/
def announce : Nat → List (StyleCell × CycleCell) → Watched Changes
  | _, [] => return .none
  | index, (s, cell) :: rest => do
    if !cell.mask.isEmpty then notify index s.style cell.mask
    return cell.mask ∪ (← announce (index + 1) rest)

/-- Update everything once around layout. -/
def render (budget : Nat) (t : Template) (measure : Style → Run (Option Measurement)) :
    Watched Rendered := do
  let (t, _) ← quiet (t.refreshFields budget)
  let (c, measured) ← inScope do
    let c ← phase (visitStructure budget) (.start t)
    let (c, measured) ← measureAll measure c (List.range t.styles.length)
    return (← phase (visitContent budget) c, measured)
  let t := c.carryOver
  let changes ← announce 0 (t.styles.zip c.cells)
  return ⟨t, changes, measured⟩

/-! ## Watching changes nothing -/

variable {budget : Nat}

theorem put_get (s : Style) (p : Property) : Property.put s p (Property.get s p) = s := by
  cases p <;> rfl

theorem run_updateProperty (index : Nat) (onlyContent : Bool) (style : String) (mask : Changes)
    (s : Style) (p : Property) :
    (updateProperty budget index onlyContent style (mask, s) p).run = (do
      let (c, mask) ← Style.updateInPhase budget onlyContent style p.name p.flag
        (Property.get s p) mask
      return (mask, Property.put s p c)) := by
  unfold updateProperty Style.updateInPhase
  dsimp only
  split
  · rw [pure_bind, put_get]
    rfl
  · rw [bind_assoc]
    rfl

theorem run_foldlM (index : Nat) (onlyContent : Bool) (style : String) (ps : List Property)
    (mask : Changes) (s : Style) :
    (ps.foldlM (updateProperty budget index onlyContent style) (mask, s)).run = (do
      let (s, mask) ← (ps.foldlM (fun s p => do
        return Property.put s p (← Style.updateInPhase budget onlyContent style p.name p.flag
          (Property.get s p))) s : StateT Changes Run Style) mask
      return (mask, s)) := by
  induction ps generalizing mask s with
  | nil => rfl
  | cons p rest ih =>
    let step (s : Style) (p : Property) : StateT Changes Run Style := do
      return Property.put s p (← Style.updateInPhase budget onlyContent style p.name p.flag
        (Property.get s p))
    let first := Style.updateInPhase budget onlyContent style p.name p.flag (Property.get s p) mask
    rw [List.foldlM_cons, List.foldlM_cons, run_bind, run_updateProperty]
    show (first >>= fun r => pure (r.2, Property.put s p r.1)) >>= _ =
      ((first >>= fun r => pure (Property.put s p r.1, r.2)) >>= fun r =>
        rest.foldlM step r.1 r.2) >>= fun r => pure (r.2, r.1)
    rw [bind_assoc, bind_assoc, bind_assoc]
    refine congrArg (first >>= ·) (funext fun r => ?_)
    rw [pure_bind, pure_bind]
    exact ih r.2 (Property.put s p r.1)

theorem run_update (index : Nat) (s : Style) (onlyContent : Bool) :
    (update budget index s onlyContent).run = s.update budget onlyContent := by
  unfold update Style.update
  rw [run_foldlM, Style.mapProperties_eq]
  rfl

theorem run_runStyle (onlyContent : Bool) (c : Cycle) (index : Nat) :
    (runStyle budget onlyContent c index).run = c.runStyle budget onlyContent index := by
  unfold runStyle Cycle.runStyle
  cases c.template.styleAt? index with
  | none => rfl
  | some style =>
    refine congrArg (c.template.bind >>= ·) (funext fun _ => ?_)
    rw [run_bind, run_update]
    refine congrArg (style.update budget onlyContent >>= ·) (funext fun r => ?_)
    dsimp only
    split <;> rfl

theorem run_visitStructure (c : Cycle) (index : Nat) :
    (visitStructure budget c index).run = c.visitStructure budget index := by
  unfold visitStructure Cycle.visitStructure
  cases c.cells[index]? with
  | none => rfl
  | some cell =>
    dsimp only
    split
    · rw [run_bind, run_runStyle]
      rfl
    · rfl

theorem run_visitContent (c : Cycle) (index : Nat) :
    (visitContent budget c index).run = c.visitContent budget index := by
  unfold visitContent Cycle.visitContent
  cases c.cells[index]? with
  | none => rfl
  | some cell =>
    cases c.template.styleAt? index with
    | none => rfl
    | some style =>
      dsimp only
      split
      · split
        · rw [run_bind, run_runStyle]
          rfl
        · rfl
      · rfl

variable {visit : Cycle → Nat → Watched (Cycle × Bool)}
  {visit' : Cycle → Nat → Run (Cycle × Bool)} {measure : Style → Run (Option Measurement)}

theorem run_sweep (hvisit : ∀ c i, (visit c i).run = visit' c i) (c : Cycle) (indices : List Nat) :
    (sweep visit c indices).run = Cycle.sweep visit' c indices := by
  induction indices generalizing c with
  | nil => rfl
  | cons index rest ih =>
    unfold sweep Cycle.sweep
    rw [run_bind, hvisit]
    refine congrArg (visit' c index >>= ·) (funext fun r => ?_)
    rw [run_bind, ih]
    rfl

theorem run_sweeps (hvisit : ∀ c i, (visit c i).run = visit' c i) (tries : Nat) (c : Cycle) :
    (sweeps visit tries c).run = Cycle.sweeps visit' tries c := by
  induction tries generalizing c with
  | zero => rfl
  | succ tries ih =>
    unfold sweeps Cycle.sweeps
    rw [run_bind, run_sweep hvisit]
    refine congrArg (Cycle.sweep visit' c _ >>= ·) (funext fun r => ?_)
    dsimp only
    split
    · exact ih r.1
    · rfl

theorem run_measureAll (c : Cycle) (indices : List Nat) :
    (measureAll measure c indices).run = c.measureAll measure indices := by
  induction indices generalizing c with
  | nil => rfl
  | cons index rest ih =>
    unfold measureAll Cycle.measureAll
    cases c.template.styleAt? index with
    | none => exact ih c
    | some style =>
      refine congrArg (measure style >>= ·) (funext fun result => ?_)
      have hrest : ∀ c, (do
          let (c, styles) ← measureAll measure c rest
          return (c, style :: styles) : Watched (Cycle × List Style)).run = (do
            let (c, styles) ← c.measureAll measure rest
            return (c, style :: styles)) := by
        intro c
        rw [run_bind, ih]
        rfl
      cases result with
      | none => exact congrArg (pure c >>= ·) (funext hrest)
      | some measured =>
        refine (congrArg (storeMeasured c index style (some measured) >>= ·) (funext hrest)).trans ?_
        unfold storeMeasured
        dsimp only
        generalize style.storeContent measured = stored
        obtain ⟨_ | _, next⟩ := stored
        · rfl
        · exact bind_assoc ..

theorem store_bind (x : StateM Store α) (f : α → StateM Store β) :
    Run.store (x >>= f) = Run.store x >>= fun a => Run.store (f a) := rfl

theorem run_notify (index : Nat) (s : Style) (mask : Changes) :
    (notify index s mask).run = Run.store (s.notify mask) := by
  unfold notify Style.notify
  induction s.listeners with
  | nil => rfl
  | cons listener rest ih =>
    exact congrArg (Run.store (Store.write (.styleChanged listener s.name mask)) >>= ·)
      (funext fun _ => ih)

theorem run_announce (index : Nat) (styles : List (StyleCell × CycleCell)) :
    (announce index styles).run = Run.store (Cycle.announce styles) := by
  induction styles generalizing index with
  | nil => rfl
  | cons x rest ih =>
    obtain ⟨s, cell⟩ := x
    unfold announce Cycle.announce
    split
    · rw [run_bind, run_notify, store_bind]
      refine congrArg (Run.store _ >>= ·) (funext fun _ => ?_)
      rw [run_bind, ih]
      rfl
    · rw [run_bind, ih]
      rfl

/-- A cycle does the same whether it is watched or not. -/
theorem run_render (budget : Nat) (t : Template) (measure : Style → Run (Option Measurement)) :
    (render budget t measure).run = t.render budget measure := by
  unfold render Template.render
  refine congrArg (t.refreshFields budget >>= ·) (funext fun r => ?_)
  have hcycle : (do
      let c ← phase (visitStructure budget) (.start r.1)
      let (c, measured) ← measureAll measure c (List.range r.1.styles.length)
      return (← phase (visitContent budget) c, measured) : Watched (Cycle × List Style)).run = (do
        let c ← Cycle.phase (Cycle.visitStructure budget) (.start r.1)
        let (c, measured) ← c.measureAll measure (List.range r.1.styles.length)
        return (← Cycle.phase (Cycle.visitContent budget) c, measured)) := by
    unfold phase Cycle.phase
    rw [run_bind, run_sweeps run_visitStructure]
    refine congrArg (Cycle.sweeps (Cycle.visitStructure budget) _ _ >>= ·) (funext fun c => ?_)
    rw [run_bind, run_measureAll]
    refine congrArg (c.measureAll measure _ >>= ·) (funext fun r => ?_)
    dsimp only
    rw [run_bind, run_sweeps run_visitContent]
    rfl
  rw [run_bind, run_inScope, hcycle]
  refine congrArg (Run.inScope _ >>= ·) (funext fun r => ?_)
  dsimp only
  rw [run_bind, run_announce]
  rfl

end Watched

end ReactiveScript
