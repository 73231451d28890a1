/-
  Interned names.

  Scripts refer to variables by number. A name table hands out one number per name, the position at
  which the name first came in: tables only grow at their end, a name never gets a second number,
  and a number keeps its name.
-/

namespace ReactiveScript

/-- A variable, known by the number of its name. Numbers have no bound here; where they have 32 bits they
are the same for the first 2^32 names. -/
structure Variable where
  id : Nat
  deriving DecidableEq, Repr, Inhabited

/-- The names in the order in which they came in. -/
structure Names where
  entries : Array String
  deriving DecidableEq, Inhabited

namespace Names

/-- The table without names. -/
def empty : Names := ⟨#[]⟩

/-- The number of a name that came in before. -/
def find? (names : Names) (name : String) : Option Variable :=
  (names.entries.idxOf? name).map Variable.mk

/-- Append a name that is not there yet. -/
def push (names : Names) (name : String) : Variable × Names :=
  (⟨names.entries.size⟩, ⟨names.entries.push name⟩)

/-- The number of a name, which comes in if it is new. -/
def intern (names : Names) (name : String) : Variable × Names :=
  match names.find? name with
  | some var => (var, names)
  | none => names.push name

/-- The name of a number, or the number after a hash mark if no name has it. -/
def nameOf (names : Names) (var : Variable) : String :=
  match names.entries[var.id]? with
  | some name => name
  | none => "#" ++ toString var.id

end Names

end ReactiveScript
