import ReactiveScript.Tracking.Walk

/-
  Values that a script may compute.

  A computed value is a host value and perhaps the script it comes from. Updating runs the script
  and keeps the old value if anything fails or nothing changes. A script that reads measured content
  is classified as content dependent by a pass with a dummy dependency.
-/

namespace ReactiveScript

/-- Host values that a script's result converts to. -/
class HostValue (α : Type) where
  /-- The host value of a result. -/
  ofValue : Value → Except EvalError α
  /-- Whether replacing one by the other changes nothing. -/
  same : α → α → Bool
  /-- The value as scripts see it. -/
  toValue : α → Value

instance : HostValue Value where
  ofValue v := .ok v
  same := Value.equal
  toValue v := v

instance : HostValue Float where
  ofValue := Value.toReal
  same x y := x == y
  toValue := .real

instance : HostValue Int64 where
  ofValue := Value.toInt
  same x y := x == y
  toValue := .int

instance : HostValue Bool where
  ofValue := Value.toBool
  same x y := x == y
  toValue := .bool

instance : HostValue String where
  ofValue := Value.toText
  same x y := x == y
  toValue := .string

instance : HostValue Color where
  ofValue
    | .color c => .ok c
    | v => .error (v.cannotConvert "color")
  same x y := x == y
  toValue := .color

/-- A host value, perhaps computed by a script. -/
structure Computed (α : Type) where
  value : α
  script : Option (Script Value)
  /-- Whether the script reads measured content. -/
  readsContent : Bool

namespace Computed

variable {α : Type}

/-- A value with the script that computes it, if there is one. -/
def ofParts (value : α) (script : Option (Script Value)) : Computed α := ⟨value, script, false⟩

/-- A value that no script computes. -/
def fixed (value : α) : Computed α := ofParts value none

/-- Whether a script computes the value. -/
def isScripted (p : Computed α) : Bool := p.script.isSome

/-- Store another value. -/
def setValue (p : Computed α) (value : α) : Computed α := { p with value }

/-- Register a dependency with everything the script reads. -/
def trackReads (budget : Nat) (p : Computed α) (dep : Dependency) : Run Unit := do
  if let some s := p.script then
    let _ ← Run.trackReads budget dep s

/-- Find out whether the script reads measured content. -/
def checkContent (budget : Nat) (p : Computed α) : Run (Computed α) := do
  match p.script with
  | some s =>
    let (_, readsContent) ← Run.trackingContent (Run.trackReads budget (.dummyOf 0) s)
    return { p with readsContent }
  | none => return p

/-- Store a value unless it is the same as before; says whether it was stored. -/
def replace [HostValue α] (p : Computed α) (value : α) : Bool × Computed α :=
  if HostValue.same value p.value then (false, p) else (true, p.setValue value)

/-- Run the script and store its converted result; says whether that changed the value. -/
def update [HostValue α] (budget : Nat) (p : Computed α) : Run (Bool × Computed α) := do
  match p.script with
  | some s =>
    let result ← Run.eval budget s true
    return p.replace (← Run.ofExcept (HostValue.ofValue result))
  | none => return (false, p)

end Computed

namespace Run

/-- Keep a report if the context keeps reports. -/
def report (r : ErrorReport) : Run Unit := do
  if (← context).keepsReports then
    store fun s => ((), { s with reports := s.reports.push r })

/-- The report of an error, with the calls it went through. -/
def makeReport (owner property : String) (e : EvalError) : Run ErrorReport := do
  return ⟨owner, property, e, ← takeFrames⟩

/-- Report the error of an owner's property. -/
def reportError (owner property : String) (e : EvalError) : Run Unit := do
  report (← makeReport owner property e)

end Run

end ReactiveScript
