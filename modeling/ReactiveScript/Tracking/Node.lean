import ReactiveScript.Store

/-
  Owners that passes can find.

  A registry maps variables to nodes: single owners, or groups of owners by member name. Names are
  canonical, an underscore reading as a space. Reading an owner registers the running dependency
  with it, or, for a dummy dependency, notes whether the owner is measured content.
-/

namespace ReactiveScript

/-- A name with its underscores read as spaces. -/
def normalName (name : String) : String := name.map fun c => if c = '_' then ' ' else c

namespace Node

/-- An owner under its canonical name. -/
def ofOwner (name : String) (scripts : OwnerId) : Node := .owner (normalName name) scripts

/-- A group without members under its canonical name. -/
def emptyGroup (name : String) : Node := .group (normalName name) []

/-- Add a member to a group, in place of one of the same name. An owner stays as it is. -/
def addMember (node member : Node) : Node :=
  match node with
  | .group name members => .group name (Assoc.insert member.name member members)
  | .owner name scripts => .owner name scripts

/-- The members of a group by name. -/
def members : Node → List (String × Node)
  | .group _ members => members
  | .owner _ _ => []

/-- The member of a group under a name. -/
def get? (node : Node) (name : String) : Option Node :=
  Assoc.find? (normalName name) node.members

/-- Whether an owner of this name stands for measured content. -/
def isContentName (name : String) : Bool := "content ".toList.isPrefixOf name.toList

/-- Register a dependency with an owner; a group is not touched. -/
def noteRead (node : Node) (dep : Dependency) : StateM Store Unit :=
  match node with
  | .owner name scripts => do
    if dep.isDummy && isContentName name then Store.markContent
    let _ ← Store.addDependent scripts dep
  | .group _ _ => return ()

mutual

/-- Register a dependency with an owner, or with all owners of a group and its groups. -/
def noteReadBelow : Node → Dependency → StateM Store Unit
  | .owner name scripts, dep => (Node.owner name scripts).noteRead dep
  | .group _ members, dep => noteReadMembers members dep
termination_by structural node => node

/-- Register a dependency with all owners among the members. -/
def noteReadMembers : List (String × Node) → Dependency → StateM Store Unit
  | [], _ => return ()
  | (_, node) :: rest, dep => do
    node.noteReadBelow dep
    noteReadMembers rest dep
termination_by structural members => members

end

end Node

/-- The nodes by the variable of their name. -/
structure Registry where
  nodes : List (Variable × Node)
  deriving Inhabited

namespace Registry

/-- Nothing registered. -/
def empty : Registry := ⟨[]⟩

/-- The node of a variable. -/
def lookup? (r : Registry) (var : Variable) : Option Node := Assoc.find? var r.nodes

/-- Register a node under its name. -/
def insert (r : Registry) (node : Node) : StateM Store Registry := do
  return ⟨Assoc.insert (← Store.intern node.name) node r.nodes⟩

/-- Take a node out by its name; says whether there was one. -/
def remove (r : Registry) (name : String) : StateM Store (Bool × Registry) := do
  let var ← Store.intern (normalName name)
  return ((r.lookup? var).isSome, ⟨Assoc.erase var r.nodes⟩)

/-- The number of registered nodes. -/
def size (r : Registry) : Nat := r.nodes.length

end Registry

end ReactiveScript
