import ReactiveScript.Changes
import ReactiveScript.Iteration

/-
  The store.

  What all contexts share: the names, the supply of identities, the positions of iterators, the
  lists of dependents, the interrupt switches, what host functions logged and what was reported.
  Iterators and lists of dependents are known by their number and never go away.
-/

namespace ReactiveScript

/-- The kind of owner a dependency names. -/
inductive OwnerKind
  | cardField | cardsField | fieldEdit | style | copyDependencies | dummy
  deriving DecidableEq, Repr, Inhabited

namespace OwnerKind

/-- The kinds of owners. -/
def all : List OwnerKind := [.cardField, .cardsField, .fieldEdit, .style, .copyDependencies, .dummy]

/-- The name of a kind. -/
def name : OwnerKind → String
  | cardField => "CardField"
  | cardsField => "CardsField"
  | fieldEdit => "SetField"
  | style => "Style"
  | copyDependencies => "CopyDependencies"
  | dummy => "Dummy"

/-- The kind of a name. -/
def ofName? (text : String) : Option OwnerKind := all.find? fun kind => kind.name == text

end OwnerKind

/-- The owner to run again when something it read changes. A dummy stands for no owner. -/
structure Dependency where
  kind : OwnerKind
  index : Nat
  deriving DecidableEq, Repr, Inhabited

/-- The dependency that is registered nowhere. -/
def Dependency.dummyOf (index : Nat) : Dependency := ⟨.dummy, index⟩

/-- Whether a dependency stands for no owner. -/
def Dependency.isDummy (dep : Dependency) : Bool := dep.kind == .dummy

/-- An error caught where an owner was updated, and the calls it went through, innermost first. -/
structure ErrorReport where
  owner : String
  property : String
  error : EvalError
  backtrace : List String
  deriving DecidableEq, Repr

/-- The text shown for a report: a line for the error and one for each call. -/
def ErrorReport.text (report : ErrorReport) : String :=
  report.owner ++ "." ++ report.property ++ ": " ++ report.error.message ++
    String.join (report.backtrace.map fun frame => "\n  " ++ frame)

/-- What host functions and listeners wrote down. -/
inductive LogEntry
  | text (message : String)
  | variable (name : String) (value : Option Value)
  | styleChanged (listener style : String) (changes : Changes)

/-- What all contexts share. -/
structure Store where
  names : Names
  nextIdent : Ident
  iterations : Array Iteration
  dependents : Array (List Dependency)
  interrupts : Array Bool
  /-- Whether the running dependency was found to read measured content. -/
  contentRead : Bool
  log : Array LogEntry
  reports : Array ErrorReport
  /-- The gates through which host functions may pass. -/
  openGates : List String

namespace Store

/-- The store nothing was put into yet. -/
def empty : Store := ⟨.empty, 0, #[], #[], #[], false, #[], #[], []⟩

instance : Inhabited Store := ⟨empty⟩

/-- The number of a name. -/
def intern (name : String) : StateM Store Variable := fun s =>
  let (var, names) := s.names.intern name
  (var, { s with names })

/-- The name of a variable. -/
def nameOf (var : Variable) : StateM Store String := fun s => (s.names.nameOf var, s)

/-- An identity nothing else has. -/
def fresh : StateM Store Ident := fun s => (s.nextIdent, { s with nextIdent := s.nextIdent + 1 })

/-- Start an iteration. -/
def newIterator (it : Iteration) : StateM Store Value := fun s =>
  (.iterator s.iterations.size, { s with iterations := s.iterations.push it })

/-- Draw the next entry of an iterator. -/
def drawEntry (handle : Nat) : StateM Store (Option Entry) := fun s =>
  let (entry, rest) := (s.iterations[handle]?.getD .empty).next
  (entry, { s with iterations := s.iterations.setIfInBounds handle rest })

/-- Draw up to a number of entries of an iterator. -/
def drawEntries (handle count : Nat) : StateM Store (List Entry) := fun s =>
  let (entries, rest) := (s.iterations[handle]?.getD .empty).draw count
  (entries, { s with iterations := s.iterations.setIfInBounds handle rest })

/-- A collection value of its own. -/
def newCollection (items : Collection Value) : StateM Store Value := do
  return .collection (← fresh) items

/-- A list of dependents without entries. -/
def newDependents : StateM Store OwnerId := fun s =>
  (s.dependents.size, { s with dependents := s.dependents.push [] })

/-- The dependents of an owner in the order of their registration. -/
def dependentsOf (owner : OwnerId) : StateM Store (List Dependency) := fun s =>
  (s.dependents[owner]?.getD [], s)

/-- Forget the dependents of an owner. -/
def clearDependents (owner : OwnerId) : StateM Store Unit := fun s =>
  ((), { s with dependents := s.dependents.setIfInBounds owner [] })

/-- Register a dependency with an owner, once; a dummy is not registered. Says whether it was
new. -/
def addDependent (owner : OwnerId) (dep : Dependency) : StateM Store Bool := fun s =>
  let list := s.dependents[owner]?.getD []
  if dep.isDummy || list.contains dep then (false, s)
  else (true, { s with dependents := s.dependents.setIfInBounds owner (list ++ [dep]) })

/-- Note that the running dependency reads measured content. -/
def markContent : StateM Store Unit := fun s => ((), { s with contentRead := true })

/-- Forget whether measured content was read. -/
def clearContentMark : StateM Store Unit := fun s => ((), { s with contentRead := false })

/-- Whether measured content was read since that was forgotten. -/
def isContentMarked : StateM Store Bool := fun s => (s.contentRead, s)

/-- Write something down. -/
def write (entry : LogEntry) : StateM Store Unit := fun s =>
  ((), { s with log := s.log.push entry })

/-- Take the reports that were kept. -/
def takeReports : StateM Store (List ErrorReport) := fun s =>
  (s.reports.toList, { s with reports := #[] })

/-- A switch of its own that stops evaluations. -/
def newInterrupt : StateM Store Nat := fun s =>
  (s.interrupts.size, { s with interrupts := s.interrupts.push false })

/-- Whether a switch is set. -/
def isInterrupted (handle : Nat) : StateM Store Bool := fun s =>
  (s.interrupts[handle]?.getD false, s)

/-- Set or clear a switch. -/
def setInterrupt (handle : Nat) (on : Bool) : StateM Store Unit := fun s =>
  ((), { s with interrupts := s.interrupts.setIfInBounds handle on })

end Store

namespace Value

/-- The iterator of a value. What can not be iterated comes back as a delayed error. -/
def toIterator : Value → StateM Store Value
  | .iterator handle => return .iterator handle
  | .error e => return .error e
  | .nil => Store.newIterator .empty
  | .collection _ items => Store.newIterator (.ofCollection items)
  | .object _ body =>
    match body with
    | .host ⟨_, _, some entries, _⟩ => Store.newIterator (.ofEntries entries)
    | body => return .error (.notIterator body.typeName)
  | v => return .error (.notIterator v.typeName)

end Value

end ReactiveScript
