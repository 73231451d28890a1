/-
  What can go wrong.

  `EvalError` is the failure of an evaluation. It is plain data, so a value can carry it and whoever
  needs that value raises it again. `HostError` is the failure of a host function: a cause below the
  contexts added on its way out. `EncodeError` is the failure to assemble or read instructions.
-/

namespace ReactiveScript

/-- Why an evaluation failed. -/
inductive EvalError
  | unboundVariable (name : String)
  | noMember (typeName member : String)
  | invalidOperands (op left right : String)
  | conversion (source target : String)
  | notIterator (typeName : String)
  | notCallable (typeName : String)
  | divisionByZero
  | integerOverflow
  | builtin (name message : String)
  | stackOverflow (depth max : Nat)
  | malformedScript (position : Nat) (message : String)
  | interrupted
  deriving DecidableEq, Repr, Inhabited

namespace EvalError

/-- The text shown for an error. -/
def message : EvalError → String
  | unboundVariable name => s!"Variable not set: {name}"
  | noMember typeName member => s!"{typeName} has no member '{member}'"
  | invalidOperands op left right => s!"Invalid operands for {op}: {left} and {right}"
  | conversion source target => s!"Can not convert from {source} to {target}"
  | notIterator typeName => s!"Can not iterate over {typeName}"
  | notCallable typeName => s!"Can not call {typeName}, it is not a function"
  | divisionByZero => "Division by zero"
  | integerOverflow => "Integer overflow"
  | builtin name message => s!"{name}: {message}"
  | stackOverflow depth max => s!"Stack overflow: call depth {depth} exceeds maximum {max}"
  | malformedScript position message => s!"Malformed script at instruction {position}: {message}"
  | interrupted => "Evaluation interrupted"

/-- The name of an error's kind. -/
def kind : EvalError → String
  | unboundVariable .. => "UnboundVariable"
  | noMember .. => "NoMember"
  | invalidOperands .. => "InvalidOperands"
  | conversion .. => "Conversion"
  | notIterator .. => "NotIterator"
  | notCallable .. => "NotCallable"
  | divisionByZero => "DivisionByZero"
  | integerOverflow => "IntegerOverflow"
  | builtin .. => "Builtin"
  | stackOverflow .. => "StackOverflow"
  | malformedScript .. => "MalformedScript"
  | interrupted => "Interrupted"

/-- The errors of the limits on evaluation, which no script can recover from. -/
def isLimit : EvalError → Bool
  | stackOverflow .. => true
  | interrupted => true
  | _ => false

end EvalError

/-- Why a host function failed. -/
inductive HostCause
  | eval (error : EvalError)
  | message (text : String)
  deriving DecidableEq, Repr

/-- A failure of a host function: its cause and the contexts added to it, the last one first. -/
structure HostError where
  cause : HostCause
  contexts : List String
  deriving DecidableEq, Repr

namespace HostError

/-- An evaluation error as it left a nested evaluation. -/
def ofEval (error : EvalError) : HostError := ⟨.eval error, []⟩

/-- A failure with a message of its own. -/
def ofMessage (text : String) : HostError := ⟨.message text, []⟩

/-- The failure with contexts added to it. -/
def addContexts (error : HostError) (contexts : List String) : HostError :=
  { error with contexts := contexts ++ error.contexts }

/-- The contexts from the last one inward, then the cause. -/
def text (error : HostError) : String :=
  let cause := match error.cause with
    | .eval e => e.message
    | .message m => m
  ": ".intercalate (error.contexts ++ [cause])

/-- The name of a failure's kind. -/
def kind (error : HostError) : String :=
  match error.cause with
  | .eval e => e.kind
  | .message _ => "Host"

/-- What a failure of the host function `name` is for the script that called it: a nested evaluation
error stays itself whatever contexts it got, all else becomes the failure of `name`. -/
def toEvalError (name : String) (error : HostError) : EvalError :=
  match error.cause with
  | .eval e => e
  | .message _ => .builtin name error.text

end HostError

/-- Why instructions could not be assembled or read. -/
inductive EncodeError
  | operandOverflow (operand : Nat)
  | unknownOpcode (code : Nat)
  | unknownOperator (family : String) (code : Nat)
  deriving DecidableEq, Repr, Inhabited

namespace EncodeError

/-- The text shown for an encoding error. -/
def message : EncodeError → String
  | operandOverflow operand => s!"Operand {operand} does not fit in an instruction"
  | unknownOpcode code => s!"Unknown opcode {code}"
  | unknownOperator family code => s!"Unknown {family} operator {code}"

/-- The name of an encoding error's kind. -/
def kind : EncodeError → String
  | operandOverflow _ => "OperandOverflow"
  | unknownOpcode _ => "UnknownOpcode"
  | unknownOperator .. => "UnknownOperator"

end EncodeError

end ReactiveScript
