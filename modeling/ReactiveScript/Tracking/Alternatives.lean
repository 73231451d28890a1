import ReactiveScript.Operator.Basic
import ReactiveScript.Tracking.Node

/-
  Stand-in values of a pass.

  A dependency pass works without data. Reading a registered variable gives a placeholder of its
  node, and where paths join, a value that may be one of two is their union. Reading a member of a
  union reads it from both sides. What can not be read is nil, never an error.
-/

namespace ReactiveScript

/-- The value that may be either; equal values and nil leave nothing to tell apart. -/
def either (a b : Value) : StateM Store Value :=
  if a.isNil || a.equal b then return b
  else if b.isNil then return a
  else do return .object (← Store.fresh) (.union a b)

/-- The stand-in for a registered owner or group. -/
def newPlaceholder (node : Node) : StateM Store Value := do
  return .object (← Store.fresh) (.placeholder node)

/-- The entries of a group with a placeholder for each member. -/
def placeholdersOf : List (String × Node) → StateM Store (List Entry)
  | [] => return []
  | (key, node) :: rest => do
    let v ← newPlaceholder node
    return (.string key, v) :: (← placeholdersOf rest)

/-- Register a dependency with the owners of a host object under a name. -/
def HostObject.noteRead {α : Type} (object : HostObject α) (name : String) (dep : Dependency) :
    StateM Store Unit :=
  ((object.owners.getD []).filter fun owner => owner.1 = name).forM fun owner => do
    let _ ← Store.addDependent owner.2 dep

/-- The member of a placeholder. -/
def Node.memberInPass (node : Node) (name : String) (dep : Dependency) :
    StateM Store Value :=
  match node.get? name with
  | some member => do
    member.noteRead dep
    newPlaceholder member
  | none => return .nil

/-- An iterator with one element that stands for all. -/
def newStandIn : StateM Store Value := Store.newIterator .standIn

/-- The iterator over a placeholder, all of whose owners are read. -/
def Node.iteratorInPass (node : Node) (dep : Dependency) : StateM Store Value := do
  node.noteReadBelow dep
  match node with
  | .owner _ _ => newStandIn
  | .group _ members => Store.newIterator (.ofEntries (← placeholdersOf members))

namespace Value

/-- The member of a value in a pass, registering the dependency with what is read. -/
def memberInPass : Value → String → Dependency → StateM Store Value
  | .object _ (.host o), name, dep => do
    o.noteRead name dep
    return (Assoc.find? name o.members).getD .nil
  | .object _ (.placeholder node), name, dep => node.memberInPass name dep
  | .object _ (.union a b), name, dep => do
    let x ← a.memberInPass name dep
    let y ← b.memberInPass name dep
    either x y
  | .collection id items, name, _ =>
    match (Value.collection id items).member (.string name) with
    | .error _ => return .nil
    | v => return v
  | _, _, _ => return .nil
termination_by structural v => v

/-- The member under a key that is a value; a key without text reads nothing. -/
def memberInPassAt (object key : Value) (dep : Dependency) : StateM Store Value :=
  match key.toText with
  | .ok name => object.memberInPass name dep
  | .error _ => return .nil

/-- The iterator of a value in a pass. Of a union both sides are read, and the first is the
iterator. -/
def iteratorInPass : Value → Dependency → StateM Store Value
  | .object _ (.host o), _ =>
    match o.entries with
    | some entries => Store.newIterator (.ofEntries entries)
    | none => newStandIn
  | .object _ (.placeholder node), dep => node.iteratorInPass dep
  | .object _ (.union a b), dep => do
    let first ← a.iteratorInPass dep
    let _ ← b.iteratorInPass dep
    return first
  | .iterator handle, _ => return .iterator handle
  | .collection id items, _ =>
    if items.isEmpty then newStandIn else (Value.collection id items).toIterator
  | _, _ => newStandIn
termination_by structural v => v

/-- What a unary operator gives in a pass. -/
def unaryInPass (op : UnaryOp) (a : Value) (dep : Dependency) : StateM Store Value :=
  match op with
  | .iteratorC => a.iteratorInPass dep
  | _ => return .nil

/-- What a binary operator gives in a pass. Functions still compose, and a range of known ends is
itself; addition and OR_ELSE may give either operand. -/
def binaryInPass (op : BinaryOp) (a b : Value) (dep : Dependency) : StateM Store Value :=
  match op with
  | .member => a.memberInPassAt b dep
  | .add =>
    if a.isCallable && b.isCallable then Operator.binary .add a b else either a b
  | .orElse => either a b
  | .iteratorR => do
    match ← Operator.binary .iteratorR a b with
    | .iterator handle => return .iterator handle
    | _ => newStandIn
  | _ => return .nil

end Value

end ReactiveScript
