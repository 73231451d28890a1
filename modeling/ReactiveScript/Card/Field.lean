import ReactiveScript.Card.Computed

/-
  Fields.

  A field of a card holds a value that a script may compute from other fields, or from the stored
  value itself, which it sees as the variable `value`.
-/

namespace ReactiveScript

/-- A named value with the owners that read it. -/
structure Field where
  name : String
  content : Computed Value
  dependents : OwnerId

namespace Field

/-- A field with dependents of its own. -/
def make (name : String) (value : Value) (script : Option (Script Value)) :
    StateM Store Field := do
  return ⟨name, .ofParts value script, ← Store.newDependents⟩

/-- The stored value. -/
def value (f : Field) : Value := f.content.value

/-- Store a value given by the user; says whether it is another one. -/
def setValue (f : Field) (v : Value) : Bool × Field :=
  if f.value.equal v then (false, f) else (true, { f with content := f.content.setValue v })

/-- Run the script on the stored value. -/
def runScript (budget : Nat) (f : Field) : Run (Bool × Field) := do
  let (changed, content) ← Run.inScope do
    Run.bindVariable (← Run.store (Store.intern "value")) f.value
    f.content.update budget
  return (changed, { f with content })

/-- Run the script in the phase for scripts that read no measured content. An error is reported and
changes nothing. -/
def update (budget : Nat) (f : Field) (onlyContent : Bool) : Run (Changes × Field) := do
  if onlyContent then return (.none, f)
  match ← Run.attempt (f.runScript budget) with
  | .ok (changed, f) => return (if changed then .otherOnly else .none, f)
  | .error e =>
    Run.reportError f.name "value" e
    return (.none, f)

end Field

end ReactiveScript
