import ReactiveScript.Collection
import ReactiveScript.Instruction.Basic

/-
  Values.

  Values are immutable. Those that are equal only to themselves (scripts, host functions, closures,
  compositions, objects, iterators) carry an identity, and so do collections, because a collection
  equals itself even when it holds something that does not. An iterator is a handle: its position is
  kept in the store, so every copy sees it move.

  What the host provides is data as well. A host function is a prelude function or a list of
  actions; an object is one of the host, a stand-in for a registered owner, or a union of two
  values met at a join of a dependency pass.
-/

namespace ReactiveScript

/-- What tells apart values that are equal only to themselves. -/
abbrev Ident := Nat

/-- The number of a list of dependents in the store. -/
abbrev OwnerId := Nat

/-- A color with 8-bit channels; alpha 255 is opaque. -/
structure Color where
  r : UInt8
  g : UInt8
  b : UInt8
  a : UInt8
  deriving DecidableEq, Repr, Inhabited

/-- Instructions with their constants. -/
structure Script (α : Type) where
  id : Ident
  code : Array Instruction
  constants : Array α

/-- An owner that dependency passes can find, or a group of them by member name. -/
inductive Node
  | owner (name : String) (scripts : OwnerId)
  | group (name : String) (members : List (String × Node))
  deriving Inhabited

/-- What a host function aborts with, besides failing. -/
inductive PanicPayload
  | text (message : String)
  | other
  deriving DecidableEq, Repr

/-- One step of a host function, on the context it is called in. The steps of a function are fixed
beforehand and done in order up to the first that fails. So these are the host functions that do not
branch on what they read, go on after a failure, open scopes of their own, or look at how deep calls
are nested, at scopes or at noted calls. -/
inductive HostAction (α : Type)
  | give (value : α)
  | log (text : String)
  | logVariable (var : Variable)
  | fail (error : HostError)
  | eval (script : Script α) (ownScope : Bool)
  | call (function : α) (arguments : List (Variable × α))
  | get (var : Variable)
  | set (var : Variable) (value : α)
  | interrupt
  | panic (payload : PanicPayload)
  | gate (name : String)
  /-- Another step, with contexts for its failure. -/
  | within (contexts : List String) (action : HostAction α)

/-- One step of a dependency hook, with the dependency of the running pass. As with `HostAction` the
steps are fixed beforehand and done in order up to the first that fails: no branches on what is read, no
going on after a failure, no scopes of their own. -/
inductive HookAction (α : Type)
  | give (value : α)
  | logVariable (var : Variable)
  | get (var : Variable)
  | raise (error : EvalError)
  | eval (script : Script α)
  | call (function : α) (arguments : List (Variable × α))
  | read (owner : OwnerId)
  | markContent

/-- The functions every script can rely on. -/
inductive PreludeFunction
  | toText | toInt | toReal | toBool | length | typeName | error
  deriving DecidableEq, Repr

/-- What a host function does. -/
inductive HostBody (α : Type)
  | prelude (function : PreludeFunction)
  | actions (steps : List (HostAction α))

/-- A function of the host, with what stands for it during dependency passes. -/
structure HostFunction (α : Type) where
  name : String
  body : HostBody α
  hook : Option (List (HookAction α))

/-- An object of the host with named members. `entries` are what it iterates over, if it does;
`owners` are the owners that reading a member, or calling the object, touches. All of these are fixed:
no member is computed in the context that reads it. -/
structure HostObject (α : Type) where
  typeName : String
  members : List (String × α)
  entries : Option (List (α × α))
  owners : Option (List (String × OwnerId))

/-- The three kinds of objects. -/
inductive ObjectBody (α : Type)
  | host (object : HostObject α)
  | placeholder (node : Node)
  | union (a b : α)

/-- A value of the scripting language. -/
inductive Value
  | nil
  | bool (b : Bool)
  | int (n : Int64)
  | real (x : Float)
  | string (s : String)
  | color (c : Color)
  | collection (id : Ident) (items : Collection Value)
  | object (id : Ident) (body : ObjectBody Value)
  | iterator (handle : Nat)
  | script (script : Script Value)
  | builtin (id : Ident) (function : HostFunction Value)
  | closure (id : Ident) (function : Value) (bindings : List (Variable × Value))
  | composition (id : Ident) (first second : Value)
  | error (e : EvalError)
  deriving Inhabited

/-- Arguments of a call by the variables that receive them. -/
abbrev Bindings := List (Variable × Value)

/-- The name of a node. -/
def Node.name : Node → String
  | .owner name _ => name
  | .group name _ => name

/-- The type of an object as messages name it. -/
def ObjectBody.typeName {α : Type} : ObjectBody α → String
  | .host object => object.typeName
  | .placeholder node => node.name
  | .union _ _ => "union"

namespace Value

/-- The type of a value as messages name it. -/
def typeName : Value → String
  | .nil => "nil"
  | .bool _ => "boolean"
  | .int _ => "integer"
  | .real _ => "real"
  | .string _ => "string"
  | .color _ => "color"
  | .collection _ _ => "collection"
  | .object _ body => body.typeName
  | .iterator _ => "iterator"
  | .script _ => "function"
  | .builtin _ _ => "function"
  | .closure _ _ _ => "function"
  | .composition _ _ _ => "function"
  | .error _ => "error"

/-- The absence of a value. -/
def isNil : Value → Bool
  | .nil => true
  | _ => false

/-- A delayed error. -/
def isError : Value → Bool
  | .error _ => true
  | _ => false

/-- An integer or a real. -/
def isNumeric : Value → Bool
  | .int _ => true
  | .real _ => true
  | _ => false

/-- A value that can be called. -/
def isCallable : Value → Bool
  | .script _ => true
  | .builtin _ _ => true
  | .closure _ _ _ => true
  | .composition _ _ _ => true
  | _ => false

/-- The text of a string. -/
def string? : Value → Option String
  | .string s => some s
  | _ => none

/-- The payload of a collection. -/
def collection? : Value → Option (Collection Value)
  | .collection _ items => some items
  | _ => none

/-- A result, or the failure delayed until someone needs the value. -/
def ofExcept : Except EvalError Value → Value
  | .ok v => v
  | .error e => .error e

/-- Raise a delayed error. -/
def force : Value → Except EvalError Value
  | .error e => .error e
  | v => .ok v

end Value

/-- The number of instructions. -/
def Script.length {α : Type} (s : Script α) : Nat := s.code.size

end ReactiveScript
