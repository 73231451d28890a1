import ReactiveScript.Name
import ReactiveScript.Value.Text

/-
  Listings and call sites.

  A listing shows one instruction a line, with the constant it uses. `argumentsStart` finds where
  the code that pushed the topmost values begins, by summing stack effects backward and ignoring
  jumps; `functionNameAt` uses it to name the function that a call takes from below its arguments.
-/

namespace ReactiveScript.Script

/-- The constant at an index. -/
def constant? {α : Type} (s : Script α) (index : Nat) : Option α := s.constants[index]?

/-- A count of missing values, as signed 64 bits hold it: what does not fit wraps around. -/
def missingCount (n : Int) : Int := n.bmod 18446744073709551616

/-- Go back from position `pos` until no value is missing any more. -/
def argumentsStartBefore (code : Array Instruction) : Nat → Int → Option Nat
  | 0, _ => none
  | pos + 1, need =>
    let (pops, pushes) := match code[pos]? with
      | some i => i.popsAndPushes
      | none => (0, 0)
    let need := missingCount (need - pushes + pops)
    if need ≤ 0 then some pos else argumentsStartBefore code pos need

/-- The first instruction that contributes to the `values` topmost values before position `stop`.
More values than a signed count holds stand for a negative number of them. -/
def argumentsStart {α : Type} (s : Script α) (stop values : Nat) : Option Nat :=
  if values = 0 then some stop
  else argumentsStartBefore s.code (min stop s.code.size) (missingCount values)

/-- The function an instruction pushes, in words. -/
def pushedName (names : Names) (s : Script Value) (i : Instruction) : Option String :=
  match i.opcode with
  | .getVar => some (names.nameOf ⟨i.operand⟩)
  | .memberC => (s.constant? i.operand).map Value.display
  | .pushConst => (s.constant? i.operand).map Value.inspect
  | _ => none

/-- The name of the function called at a position, if the code that pushed it tells. -/
def functionNameAt (names : Names) (s : Script Value) (callPos : Nat) : Option String := do
  let call ← s.code[callPos]?
  match ← s.argumentsStart callPos call.operand with
  | 0 => none
  | before + 1 => pushedName names s (← s.code[before]?)

/-- A number right-aligned in four columns. -/
def inColumns (n : Nat) : String := String.ofList ((Nat.toDigits 10 n).leftpad 4 ' ')

/-- The remark after an instruction. -/
def remark (s : Script Value) (i : Instruction) : String :=
  match i.opcode with
  | .pushConst =>
    match s.constant? i.operand with
    | some v => "\t; " ++ v.inspect
    | none => "\t; <missing constant>"
  | .memberC =>
    match s.constant? i.operand with
    | some v => "\t; ." ++ v.display
    | none => ""
  | _ => ""

/-- All instructions with their positions and remarks. -/
def listing (names : Names) (s : Script Value) : String :=
  String.join <| s.code.toList.zipIdx.map fun (i, pos) =>
    inColumns pos ++ ": " ++ i.text names ++ s.remark i ++ "\n"

end ReactiveScript.Script
