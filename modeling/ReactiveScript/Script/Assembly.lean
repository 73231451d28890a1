import ReactiveScript.Script.Builder

/-
  Jumps to named labels.

  A jump to a label that was placed goes back to its position. A jump to one that was not waits, and
  the next placement of the label points it there; a jump that waits in vain keeps the target zero.
  Placing a label again moves it for the jumps that follow.
-/

namespace ReactiveScript

/-- A script in the making, the labels placed so far and the jumps that wait for one. -/
structure Assembly where
  builder : Builder
  placed : List (String × Nat)
  waiting : List (String × Label)
  deriving Inhabited

namespace Assembly

/-- No instruction and no label yet. -/
def empty : Assembly := ⟨.empty, [], []⟩

/-- Append to the script. -/
def emit (a : Assembly) (f : Builder → Builder) : Assembly := { a with builder := f a.builder }

/-- Place a label at the next instruction. -/
def place (a : Assembly) (name : String) : Assembly :=
  let (arriving, waiting) := a.waiting.partition fun w => w.1 = name
  let builder := arriving.foldl (fun b w => b.landHere w.2) a.builder
  ⟨builder, Assoc.insert name builder.position a.placed, waiting⟩

/-- Append a jump to a label. -/
def jump (a : Assembly) (opcode : Opcode) (name : String) : Assembly :=
  match Assoc.find? name a.placed with
  | some position => a.emit fun b => b.append opcode position
  | none =>
    let (label, builder) := a.builder.jumpAhead opcode
    { a with builder, waiting := a.waiting ++ [(name, label)] }

end Assembly

end ReactiveScript
