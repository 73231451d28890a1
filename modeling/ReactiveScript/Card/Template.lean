import ReactiveScript.Card.Field
import ReactiveScript.Card.Style

/-
  Templates.

  A template is the fields and styles of a card. Scripts see the fields as `card` and the styles as
  `card style`. Linking registers both with the context and finds out who reads what. A round of
  updates runs fields and pushes changes to their readers wave by wave; every round has an age, and
  a field runs at most once per age, so rounds end also when fields read each other in a circle.
-/

namespace ReactiveScript

/-- A field with the age of the round in which it last ran. -/
structure FieldCell where
  field : Field
  age : Nat

/-- A style, and whether something it reads changed since it was rendered. -/
structure StyleCell where
  style : Style
  dirty : Bool

/-- The fields and styles of a card. -/
structure Template where
  fields : List FieldCell
  styles : List StyleCell
  /-- The age of the last round. -/
  age : Nat

namespace Template

/-- A card without fields and styles. -/
def empty : Template := ⟨[], [], 0⟩

instance : Inhabited Template := ⟨empty⟩

/-- Add a field; it never ran. -/
def addField (t : Template) (field : Field) : Template :=
  { t with fields := t.fields ++ [⟨field, 0⟩] }

/-- Add a style; it was never rendered. -/
def addStyle (t : Template) (style : Style) : Template :=
  { t with styles := t.styles ++ [⟨style, true⟩] }

/-- The first field of a name. -/
def field? (t : Template) (name : String) : Option Field :=
  (t.fields.find? fun c => c.field.name = name).map FieldCell.field

/-- The index of the first style of a name. -/
def styleIndex? (t : Template) (name : String) : Option Nat :=
  t.styles.findIdx? fun c => c.style.name = name

/-- The style at an index. -/
def styleAt? (t : Template) (index : Nat) : Option Style := (t.styles[index]?).map StyleCell.style

/-- Replace the style at an index. -/
def setStyle (t : Template) (index : Nat) (style : Style) : Template :=
  { t with styles := t.styles.modify index fun c => { c with style } }

/-- Mark a style as reading something that changed. -/
def markDirty (t : Template) (index : Nat) : Template :=
  { t with styles := t.styles.modify index fun c => { c with dirty := true } }

/-- Make the next rendering run every style. -/
def markAllDirty (t : Template) : Template :=
  { t with styles := t.styles.map fun c => { c with dirty := true } }

/-! ## What scripts see -/

/-- The fields as scripts see them. -/
def fieldsValue (t : Template) : StateM Store Value :=
  Store.newCollection (.ofEntries (t.fields.map fun c => (some c.field.name, c.field.value)))

/-- The styles as scripts see them. -/
def stylesValue (t : Template) : StateM Store Value := do
  let entries ← t.styles.mapM fun c => do return (some c.style.name, ← c.style.toValue)
  Store.newCollection (.ofEntries entries)

/-- Bind fields and styles in the current scope. -/
def bind (t : Template) : Run Unit := do
  let card ← Run.store t.fieldsValue
  Run.bindVariable (← Run.store (Store.intern "card")) card
  let styles ← Run.store t.stylesValue
  Run.bindVariable (← Run.store (Store.intern "card style")) styles

/-! ## Linking -/

/-- The groups of the fields and of the styles. -/
def toNodes (t : Template) : List Node :=
  [t.fields.foldl (fun node c => node.addMember (.ofOwner c.field.name c.field.dependents))
     (.emptyGroup "card"),
   t.styles.foldl (fun node c => node.addMember c.style.toNode) (.emptyGroup "card style")]

/-- Forget who reads the fields and styles. -/
def clearDependents (t : Template) : StateM Store Unit := do
  t.fields.forM fun c => Store.clearDependents c.field.dependents
  t.styles.forM fun c => Store.clearDependents c.style.dependents

/-- Register each field with everything its script reads. -/
def linkFields (budget : Nat) : Nat → List FieldCell → Run Unit
  | _, [] => return ()
  | index, c :: rest => do
    c.field.content.trackReads budget ⟨.cardField, index⟩
    linkFields budget (index + 1) rest

/-- Register and classify the styles in order, up to the first that fails. -/
def linkStyles (budget : Nat) : Nat → List StyleCell → Run (List StyleCell × Option EvalError)
  | _, [] => return ([], none)
  | index, c :: rest => do
    match ← Run.attempt (c.style.trackReads budget ⟨.style, index⟩) with
    | .error e => return (c :: rest, some e)
    | .ok () =>
      let (style, failure) ← c.style.checkContents budget
      let c := { c with style }
      match failure with
      | some e => return (c :: rest, some e)
      | none =>
        let (rest, failure) ← linkStyles budget (index + 1) rest
        return (c :: rest, failure)

/-- Register the card with the context and find out who reads what, from scratch. A pass that fails
ends the linking. -/
def link (budget : Nat) (t : Template) : Run (Template × Option EvalError) := do
  Run.store t.clearDependents
  t.toNodes.forM Run.insertNode
  match ← Run.attempt (linkFields budget 0 t.fields) with
  | .error e => return (t, some e)
  | .ok () =>
    let (styles, failure) ← linkStyles budget 0 t.styles
    let t := { t with styles }
    return (if failure.isNone then t.markAllDirty else t, failure)

/-! ## Rounds -/

/-- A round in progress: the card and the names of the fields that changed. -/
structure Round where
  template : Template
  changed : List String

/-- Run a field of the round, unless it ran already; gives the readers of its new value. -/
def runField (budget : Nat) (r : Round) (index : Nat) : Run (Round × List Dependency) := do
  let t := r.template
  match t.fields[index]? with
  | none => return (r, [])
  | some cell =>
    if cell.age ≥ t.age then return (r, [])
    let t := { t with fields := t.fields.set index ⟨cell.field, t.age⟩ }
    t.bind
    let (mask, field) ← cell.field.update budget false
    let t := { t with fields := t.fields.set index ⟨field, t.age⟩ }
    if mask.isEmpty then return ({ r with template := t }, [])
    else
      let readers ← Run.store (Store.dependentsOf field.dependents)
      return (⟨t, r.changed ++ [field.name]⟩, readers)

/-- Tell the readers of changed fields: fields run, styles become dirty. Gives the readers of the
fields that changed on the way. -/
def tellReaders (budget : Nat) : Round → List Dependency → Run (Round × List Dependency)
  | r, [] => return (r, [])
  | r, dep :: rest => do
    match dep.kind with
    | .cardField =>
      let (r, readers) ← runField budget r dep.index
      let (r, more) ← tellReaders budget r rest
      return (r, readers ++ more)
    | .style => tellReaders budget { r with template := r.template.markDirty dep.index } rest
    | _ => tellReaders budget r rest

/-- Tell readers wave by wave. Each wave but the first needs a field that ran, so there are at most
as many waves as fields, and one. -/
def spread (budget : Nat) : Nat → Round → List Dependency → Run Round
  | 0, r, _ => return r
  | _, r, [] => return r
  | waves + 1, r, deps => do
    let (r, readers) ← tellReaders budget r deps
    spread budget waves r readers

/-- Tell the readers of changed fields until nothing changes any more. -/
def spreadAll (budget : Nat) (r : Round) (deps : List Dependency) : Run Round :=
  spread budget (r.template.fields.length + 1) r deps

/-- Run fields by their index, each with everything that follows from it. -/
def runFields (budget : Nat) : Round → List Nat → Run Round
  | r, [] => return r
  | r, index :: rest => do
    let (r, readers) ← runField budget r index
    runFields budget (← spreadAll budget r readers) rest

/-- Begin a round. -/
def beginRound (t : Template) : Template := { t with age := t.age + 1 }

/-- Run every field once, pushing changes to readers. Gives the names of the changed fields. -/
def refreshFields (budget : Nat) (t : Template) : Run (Template × List String) := do
  let r ← Run.inScope (runFields budget ⟨t.beginRound, []⟩ (List.range t.fields.length))
  return (r.template, r.changed)

/-- Store a value given by the user in the first field of a name and push the change to readers.
Gives the names of the changed fields, that one first. -/
def edit (budget : Nat) (t : Template) (name : String) (v : Value) :
    Run (Template × List String) := do
  match t.fields.findIdx? fun c => c.field.name = name with
  | none => return (t, [])
  | some index =>
    match t.fields[index]? with
    | none => return (t, [])
    | some cell =>
      let (changed, field) := cell.field.setValue v
      if !changed then return (t, [])
      let t := t.beginRound
      let t := { t with fields := t.fields.set index ⟨field, t.age⟩ }
      let readers ← Run.store (Store.dependentsOf field.dependents)
      let r ← Run.inScope (spreadAll budget ⟨t, [name]⟩ readers)
      return (r.template, r.changed)

end Template

end ReactiveScript
