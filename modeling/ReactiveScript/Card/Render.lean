import ReactiveScript.Card.Template

/-
  Rendering.

  A render cycle updates the fields, runs the style scripts that read no measured content, lets the
  layout measure every style, runs the scripts that do read measured content, and tells the
  listeners of every style that changed. Before and after measuring, the styles are swept in order
  until nothing is left to run, at most once per style; what is still to be run then waits for the
  next cycle.
-/

namespace ReactiveScript

namespace Template

/-- What a cycle knows of a style: its changes so far, and whether scripts that read no measured
content (`structure`) or that do (`content`) must still run. -/
structure CycleCell where
  mask : Changes
  structureDirty : Bool
  contentDirty : Bool

/-- A cycle in progress. -/
structure Cycle where
  template : Template
  cells : List CycleCell

namespace Cycle

/-- The start of a cycle: what is dirty must run in both phases. -/
def start (t : Template) : Cycle :=
  ⟨t, t.styles.map fun c => ⟨.none, c.dirty, c.dirty⟩⟩

/-- Change the cell of a style. -/
def modifyCell (c : Cycle) (index : Nat) (f : CycleCell → CycleCell) : Cycle :=
  { c with cells := c.cells.modify index f }

/-- Make scripts run that read a style which changed. -/
def markReader (c : Cycle) (reader : Nat) : Cycle :=
  c.modifyCell reader fun cell => { cell with structureDirty := true, contentDirty := true }

/-- Make scripts run that read the content of a style which was measured. -/
def markContentReader (c : Cycle) (reader : Nat) : Cycle :=
  c.modifyCell reader fun cell => { cell with contentDirty := true }

/-- The indices of the styles that read a style. -/
def readers (c : Cycle) (style : Style) : Run (List Nat) := do
  let deps ← Run.store (Store.dependentsOf style.dependents)
  return (deps.filter fun d => d.kind == .style && d.index < c.template.styles.length).map
    Dependency.index

/-- Run the scripts of a style for one phase and mark its readers if it changed. -/
def runStyle (budget : Nat) (onlyContent : Bool) (c : Cycle) (index : Nat) : Run Cycle := do
  match c.template.styleAt? index with
  | none => return c
  | some style =>
    c.template.bind
    let (mask, style) ← style.update budget onlyContent
    let c := { c with template := c.template.setStyle index style }
    if mask.isEmpty then return c
    else
      let c := c.modifyCell index fun cell => { cell with mask := cell.mask ∪ mask }
      return (← c.readers style).foldl markReader c

/-- Visit a style in the first phase; says whether it ran. -/
def visitStructure (budget : Nat) (c : Cycle) (index : Nat) : Run (Cycle × Bool) := do
  match c.cells[index]? with
  | some cell =>
    if cell.structureDirty then
      let c := c.modifyCell index fun cell => { cell with structureDirty := false }
      return (← c.runStyle budget false index, true)
    else return (c, false)
  | none => return (c, false)

/-- Visit a style in the second phase; says whether it ran. -/
def visitContent (budget : Nat) (c : Cycle) (index : Nat) : Run (Cycle × Bool) := do
  match c.cells[index]?, c.template.styleAt? index with
  | some cell, some style =>
    if cell.contentDirty then
      let c := c.modifyCell index fun cell => { cell with contentDirty := false }
      if style.readsContent then return (← c.runStyle budget true index, true)
      else return (c, false)
    else return (c, false)
  | _, _ => return (c, false)

/-- Visit styles in order; says whether any ran. -/
def sweep (visit : Cycle → Nat → Run (Cycle × Bool)) : Cycle → List Nat → Run (Cycle × Bool)
  | c, [] => return (c, false)
  | c, index :: rest => do
    let (c, ran) ← visit c index
    let (c, more) ← sweep visit c rest
    return (c, ran || more)

/-- Sweep until nothing runs, at most a number of times. -/
def sweeps (visit : Cycle → Nat → Run (Cycle × Bool)) : Nat → Cycle → Run Cycle
  | 0, c => return c
  | tries + 1, c => do
    let (c, ran) ← sweep visit c (List.range c.template.styles.length)
    if ran then sweeps visit tries c else return c

/-- Sweep once per style at most. -/
def phase (visit : Cycle → Nat → Run (Cycle × Bool)) (c : Cycle) : Run Cycle :=
  sweeps visit c.template.styles.length c

/-- Measure styles in order. Gives the styles as they were when measured. -/
def measureAll (measure : Style → Run (Option Measurement)) :
    Cycle → List Nat → Run (Cycle × List Style)
  | c, [] => return (c, [])
  | c, index :: rest => do
    match c.template.styleAt? index with
    | none => measureAll measure c rest
    | some style =>
      let c ← match ← measure style with
        | none => pure c
        | some measured => do
          let (changed, next) := style.storeContent measured
          let c := { c with template := c.template.setStyle index next }
          if changed then pure ((← c.readers next).foldl markContentReader c) else pure c
      let (c, styles) ← measureAll measure c rest
      return (c, style :: styles)

/-- The card with what is left to run in the next cycle. -/
def carryOver (c : Cycle) : Template :=
  { c.template with
    styles := c.template.styles.zipWith
      (fun s cell => { s with dirty := cell.structureDirty || cell.contentDirty }) c.cells }

/-- Tell the listeners of the styles that changed; gives all changes. -/
def announce : List (StyleCell × CycleCell) → StateM Store Changes
  | [] => return .none
  | (s, cell) :: rest => do
    if !cell.mask.isEmpty then s.style.notify cell.mask
    return cell.mask ∪ (← announce rest)

end Cycle

/-- What a render cycle gives. -/
structure Rendered where
  template : Template
  /-- The changes of all styles. -/
  changes : Changes
  /-- The styles as they were when they were measured. -/
  measured : List Style

/-- Update everything once around layout. -/
def render (budget : Nat) (t : Template) (measure : Style → Run (Option Measurement)) :
    Run Rendered := do
  let (t, _) ← t.refreshFields budget
  let (c, measured) ← Run.inScope do
    let c ← Cycle.phase (Cycle.visitStructure budget) (.start t)
    let (c, measured) ← c.measureAll measure (List.range t.styles.length)
    return (← Cycle.phase (Cycle.visitContent budget) c, measured)
  let t := c.carryOver
  let changes ← Run.store (Cycle.announce (t.styles.zip c.cells))
  return ⟨t, changes, measured⟩

end Template

end ReactiveScript
