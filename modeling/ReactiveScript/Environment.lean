import ReactiveScript.Value.Basic

/-
  Scoped variables.

  Each variable has at most one slot, with its value and the level of the scope that bound it.
  Rebinding a variable of an outer scope saves the old slot, or its absence, on a stack; closing a
  scope takes slots back from there down to the mark that opening it gave. So a scope leaves no
  trace, and a variable that was unbound before is unbound again.
-/

namespace ReactiveScript

/-- The value of a variable and the level at which it was bound, counted as in `Environment`. -/
structure Slot where
  level : Nat
  value : Value
  deriving Inhabited

/-- The variables of a context. Levels count the open scopes without bound; counters of 32 bits do the
same while fewer than 2^32 scopes are open (`Environment.toWord`). -/
structure Environment where
  slots : List (Variable × Slot)
  /-- What rebinding hid, the most recent first; `none` where nothing was bound. -/
  shadowed : List (Variable × Option Slot)
  level : Nat
  deriving Inhabited

namespace Environment

/-- No variables, at the outermost level. -/
def empty : Environment := ⟨[], [], 0⟩

/-- The slot of a variable. -/
def slot? (env : Environment) (var : Variable) : Option Slot := Assoc.find? var env.slots

/-- The value of a variable. -/
def get? (env : Environment) (var : Variable) : Option Value := (env.slot? var).map Slot.value

/-- How many scopes lie between the current one and the one that bound a variable. -/
def distance? (env : Environment) (var : Variable) : Option Nat :=
  (env.slot? var).map fun slot => env.level - slot.level

/-- How many bindings are hidden. -/
def hiddenCount (env : Environment) : Nat := env.shadowed.length

/-- Enter a scope. The mark to close it with is the number of hidden bindings. -/
def enterScope (env : Environment) : Nat × Environment :=
  (env.hiddenCount, { env with level := env.level + 1 })

/-- Put a slot back, or its absence. -/
def restoreSlot {σ : Type} (var : Variable) (slot : Option σ) (slots : List (Variable × σ)) :
    List (Variable × σ) :=
  match slot with
  | some slot => Assoc.insert var slot slots
  | none => Assoc.erase var slots

/-- Put back the hidden slots above a mark, the most recent first. -/
def unwind {σ : Type} (mark : Nat) : List (Variable × Option σ) → List (Variable × σ) →
    List (Variable × Option σ) × List (Variable × σ)
  | [], slots => ([], slots)
  | (var, slot) :: rest, slots =>
    if mark < rest.length + 1 then unwind mark rest (restoreSlot var slot slots)
    else ((var, slot) :: rest, slots)

/-- Undo the bindings made since a mark. -/
def unwindTo (env : Environment) (mark : Nat) : Environment :=
  let (shadowed, slots) := unwind mark env.shadowed env.slots
  { env with shadowed, slots }

/-- Leave a scope, bringing back what it hid. -/
def leaveScope (env : Environment) (mark : Nat) : Environment :=
  { env with level := env.level - 1 }.unwindTo mark

/-- Whether binding a variable hides what an outer scope left. -/
def hides (env : Environment) (var : Variable) : Bool :=
  env.level > 0 &&
    match env.slot? var with
    | some slot => slot.level < env.level
    | none => true

/-- Bind a variable in the current scope. -/
def set (env : Environment) (var : Variable) (value : Value) : Environment :=
  { env with
    slots := Assoc.insert var ⟨env.level, value⟩ env.slots
    shadowed := if env.hides var then (var, env.slot? var) :: env.shadowed else env.shadowed }

/-- Bind several variables in order. -/
def setAll (env : Environment) (bindings : Bindings) : Environment :=
  bindings.foldl (fun env b => env.set b.1 b.2) env

/-- The variables rebound since a mark, the oldest first, with their current values. -/
def reboundSince (env : Environment) (mark : Nat) : List (Variable × Option Value) :=
  ((env.shadowed.take (env.hiddenCount - mark)).reverse).map fun b => (b.1, env.get? b.1)

@[simp] theorem level_set (env : Environment) (var : Variable) (v : Value) :
    (env.set var v).level = env.level := rfl

@[simp] theorem level_enterScope (env : Environment) : env.enterScope.2.level = env.level + 1 := rfl

@[simp] theorem level_leaveScope (env : Environment) (mark : Nat) :
    (env.leaveScope mark).level = env.level - 1 := rfl

theorem slot?_set (env : Environment) (var other : Variable) (v : Value) :
    (env.set var v).slot? other =
      if var = other then some ⟨env.level, v⟩ else env.slot? other :=
  Assoc.find?_insert ..

theorem get?_set (env : Environment) (var other : Variable) (v : Value) :
    (env.set var v).get? other = if var = other then some v else env.get? other := by
  unfold get?
  rw [slot?_set]
  split <;> rfl

end Environment

end ReactiveScript
