import ReactiveScript.Card.Computed

/-
  Styles.

  A style is how a field is drawn: seven properties that scripts may compute, and the sizes measured
  when its content was laid out. `mapProperties` goes over the properties in their order, whatever
  their types; updates, passes and classification are instances of it.
-/

namespace ReactiveScript

/-- Sizes known only after layout. -/
structure Measurement where
  width : Float
  height : Float
  lines : Int64

/-- Equal sizes; a size that is not a number equals none. -/
def Measurement.same (a b : Measurement) : Bool :=
  a.width == b.width && a.height == b.height && a.lines == b.lines

/-- How a field is drawn. -/
structure Style where
  name : String
  left : Computed Float
  top : Computed Float
  width : Computed Float
  height : Computed Float
  angle : Computed Float
  visible : Computed Bool
  mask : Computed String
  /-- The last measurement. -/
  content : Option Measurement
  dependents : OwnerId
  /-- The listeners in the order in which they are told. -/
  listeners : List String

/-- What a property shows to those that need not know its type. -/
structure PropertyView where
  name : String
  value : Value
  script : Option (Script Value)
  readsContent : Bool

/-- A property as seen from outside. -/
def Computed.view {α : Type} [HostValue α] (p : Computed α) (name : String) : PropertyView :=
  ⟨name, HostValue.toValue p.value, p.script, p.readsContent⟩

namespace Style

/-- A visible style at the origin without size, with dependents of its own. -/
def make (name : String) : StateM Store Style := do
  return ⟨name, .fixed 0, .fixed 0, .fixed 0, .fixed 0, .fixed 0, .fixed true, .fixed "", none,
    ← Store.newDependents, []⟩

/-- Go over the properties in order, each with its name and the flag of its changes. -/
def mapProperties {m : Type → Type} [Monad m]
    (f : {α : Type} → [HostValue α] → String → Changes → Computed α → m (Computed α))
    (s : Style) : m Style := do
  let left ← f "left" .sizeOnly s.left
  let top ← f "top" .sizeOnly s.top
  let width ← f "width" .sizeOnly s.width
  let height ← f "height" .sizeOnly s.height
  let angle ← f "angle" .sizeOnly s.angle
  let visible ← f "visible" .otherOnly s.visible
  let mask ← f "mask" .maskOnly s.mask
  return { s with left, top, width, height, angle, visible, mask }

/-- The properties in order. -/
def properties (s : Style) : List PropertyView :=
  [s.left.view "left", s.top.view "top", s.width.view "width", s.height.view "height",
   s.angle.view "angle", s.visible.view "visible", s.mask.view "mask"]

/-- Whether any property's script reads measured content. -/
def readsContent (s : Style) : Bool := s.properties.any PropertyView.readsContent

/-! ## Content -/

/-- Store a measurement; says whether it is another one. -/
def storeContent (s : Style) (measured : Measurement) : Bool × Style :=
  if s.content.any (·.same measured) then (false, s)
  else (true, { s with content := some measured })

/-- Forget the measurement. -/
def forgetContent (s : Style) : Style := { s with content := none }

/-- The measured sizes under the names scripts read them by. -/
def contentEntries (s : Style) : List (Option String × Value) :=
  match s.content with
  | some c =>
    [(some "content width", .real c.width), (some "content height", .real c.height),
     (some "content lines", .int c.lines)]
  | none => []

/-- The style as scripts see it. -/
def toValue (s : Style) : StateM Store Value :=
  Store.newCollection <| .ofEntries <|
    (s.properties.map fun p => (some p.name, p.value)) ++ s.contentEntries

/-! ## Dependencies -/

/-- The names under which other scripts can read a style. -/
def ownerNames (s : Style) : List String :=
  s.properties.map PropertyView.name ++ ["content width", "content height", "content lines"]

/-- The group through which passes find the style. -/
def toNode (s : Style) : Node :=
  s.ownerNames.foldl (fun node name => node.addMember (.ofOwner name s.dependents))
    (.emptyGroup s.name)

/-- Register a dependency with everything the scripts read. -/
def trackReads (budget : Nat) (s : Style) (dep : Dependency) : Run Unit := do
  let _ ← s.mapProperties fun _ _ p => do
    p.trackReads budget dep
    return p

/-- Classify the properties in order, up to the first whose pass fails. -/
def checkContents (budget : Nat) (s : Style) : Run (Style × Option EvalError) :=
  (s.mapProperties fun _ _ p => fun failure : Option EvalError => do
    match failure with
    | some e => return (p, some e)
    | none =>
      match ← Run.attempt (p.checkContent budget) with
      | .ok p => return (p, none)
      | .error e => return (p, some e) : StateT (Option EvalError) Run Style) none

/-! ## Updates -/

/-- Run the script of a property; an error is reported and changes nothing. -/
def updateProperty {α : Type} [HostValue α] (budget : Nat) (style name : String)
    (p : Computed α) : Run (Bool × Computed α) := do
  match ← Run.attempt (p.update budget) with
  | .ok result => return result
  | .error e =>
    Run.reportError style name e
    return (false, p)

/-- Run the scripts that read measured content, or those that do not. -/
def update (budget : Nat) (s : Style) (onlyContent : Bool) : Run (Changes × Style) := do
  let (s, mask) ← (s.mapProperties fun name flag p => fun mask : Changes => do
    if !p.isScripted || p.readsContent != onlyContent then return (p, mask)
    let (changed, p) ← updateProperty budget s.name name p
    return (p, if changed then mask ∪ flag else mask) : StateT Changes Run Style) .none
  return (mask, s)

/-! ## Listeners -/

/-- Add a listener at the end. -/
def listen (s : Style) (listener : String) : Style :=
  { s with listeners := s.listeners ++ [listener] }

/-- Remove a listener wherever it stands. -/
def unlisten (s : Style) (listener : String) : Style :=
  { s with listeners := s.listeners.filter (· ≠ listener) }

/-- Tell every listener of a change. -/
def notify (s : Style) (mask : Changes) : StateM Store Unit :=
  s.listeners.forM fun listener => Store.write (.styleChanged listener s.name mask)

/-! ## Text -/

/-- Named parts between braces, after the name of what they belong to. -/
def record (name : String) (parts : List (String × String)) (rest : List String) : String :=
  name ++ " \x7b " ++ ", ".intercalate ((parts.map fun p => p.1 ++ ": " ++ p.2) ++ rest) ++ " \x7d"

/-- The text of a measurement in listings. -/
def contentText : Option Measurement → String
  | none => "None"
  | some c =>
    let size := Decimal.Layout.explicit.write
    "Some(" ++ record "Measurement"
      [("width", size c.width), ("height", size c.height), ("lines", toString c.lines.toInt)] []
      ++ ")"

/-- The text of a style in listings. -/
def text (s : Style) : String :=
  record "Style"
    ([("name", Text.quoted s.name)] ++ (s.properties.map fun p => (p.name, p.value.inspect)) ++
      [("content", contentText s.content)]) [".."]

end Style

end ReactiveScript
