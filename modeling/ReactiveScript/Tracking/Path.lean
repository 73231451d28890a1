import ReactiveScript.Machine.State
import ReactiveScript.Tracking.Alternatives

/-
  Paths of a pass.

  A pass follows one path at a time. A path that waits keeps its target, its frame and the variables
  bound since the pass began. Resuming it puts both back; joining it lets each value be either its
  own or that of the path that arrived at the same position.
-/

namespace ReactiveScript

/-- A path that waits to be followed from its target on. -/
structure WaitingPath where
  target : Nat
  /-- The frame, its top first. -/
  frame : List Value
  bindings : List (Variable × Option Value)

/-- Where a pass runs: the frame above `base`, with the scope opened at `mark`. -/
structure Region where
  base : Nat
  mark : Nat

/-- Take out an entry and put the last one in its place. -/
def swapRemove {α : Type} (list : List α) (index : Nat) : List α :=
  match list.getLast? with
  | some last => if index + 1 < list.length then list.dropLast.set index last else list.dropLast
  | none => []

/-- The index of the first path with the lowest target. -/
def earliest? (pending : List WaitingPath) : Option Nat :=
  match pending.map WaitingPath.target with
  | [] => none
  | t :: ts =>
    let lowest := ts.foldl min t
    pending.findIdx? fun p => p.target == lowest

/-- Two frames, given from the bottom up, as one; what only one of them has is kept. -/
def eitherFrames : List Value → List Value → StateM Store (List Value)
  | a :: as, b :: bs => do
    let v ← either a b
    return v :: (← eitherFrames as bs)
  | as, [] => return as
  | [], bs => return bs

namespace Run

/-- The frame above `base`, its top first. -/
def frame (base : Nat) : Run (List Value) := do
  let stack ← operands
  return stack.take (stack.length - base)

/-- Replace the frame above `base`. -/
def setFrame (base : Nat) (frame : List Value) : Run Unit :=
  change fun c => { c with stack := frame ++ c.stack.drop (c.stack.length - base) }

/-- The current path, to be followed later from `target`. -/
def suspendPath (r : Region) (target : Nat) : Run WaitingPath := do
  return ⟨target, ← frame r.base, (← context).env.reboundSince r.mark⟩

/-- The bindings of a path that are bound. -/
def boundOnly (bindings : List (Variable × Option Value)) : Bindings :=
  bindings.filterMap fun b => b.2.map fun v => (b.1, v)

/-- Follow a path that waited. -/
def resumePath (r : Region) (path : WaitingPath) : Run Unit := do
  setFrame r.base path.frame
  change fun c => { c with env := (c.env.unwindTo r.mark).setAll (boundOnly path.bindings) }

/-- Join the variables of a path that waited. -/
def mergeBindings : Bindings → Run Unit
  | [] => return ()
  | (var, other) :: rest => do
    match (← context).env.get? var with
    | some current => bindVariable var (← store (either current other))
    | none => bindVariable var other
    mergeBindings rest

/-- Join a path that waited with the current one. -/
def mergePath (r : Region) (path : WaitingPath) : Run Unit := do
  let live ← frame r.base
  let joined ← store (eitherFrames live.reverse path.frame.reverse)
  setFrame r.base joined.reverse
  mergeBindings (boundOnly path.bindings)

/-- Take the top of the frame, or nil if it is empty. -/
def takeOrNil (base : Nat) : Run Value := do
  match ← operands with
  | v :: rest =>
    if base ≤ rest.length then
      setOperands rest
      return v
    else return .nil
  | [] => return .nil

/-- Take `n` values of the frame, the lowest first, with nil for what is missing. -/
def takeManyOrNil (base : Nat) : Nat → Run (List Value)
  | 0 => return []
  | n + 1 => do
    let v ← takeOrNil base
    return (← takeManyOrNil base n) ++ [v]

/-- The top of the frame, or nil if it is empty. -/
def peekOrNil (base : Nat) : Run Value := do
  return (← frame base).head?.getD .nil

end Run

end ReactiveScript
