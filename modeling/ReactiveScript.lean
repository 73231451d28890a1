import ReactiveScript.Card.HostType
import ReactiveScript.Card.Render
import ReactiveScript.Real.Bits
import ReactiveScript.Script.Assembly
import ReactiveScript.Worker.Studio
import ReactiveScript.Proofs.Frame
import ReactiveScript.Proofs.Balance
import ReactiveScript.Proofs.Expression
import ReactiveScript.Proofs.Termination
import ReactiveScript.Proofs.Arrivals
import ReactiveScript.Proofs.Readings
import ReactiveScript.Proofs.GroupList
import ReactiveScript.Proofs.GroupLoop
import ReactiveScript.Proofs.Term
import ReactiveScript.Proofs.TermRun
import ReactiveScript.Proofs.StyleSettling
import ReactiveScript.Proofs.Layers
import ReactiveScript.Proofs.RoundLog
import ReactiveScript.Proofs.RoundReport
import ReactiveScript.Proofs.Joins
import ReactiveScript.Proofs.TailCalls
import ReactiveScript.Proofs.Conservation
import ReactiveScript.Proofs.Abort
import ReactiveScript.Proofs.Freshness
import ReactiveScript.Proofs.Interrupted
import ReactiveScript.Proofs.Escape
import ReactiveScript.Proofs.FoldLoop
import ReactiveScript.Proofs.PassRestores
import ReactiveScript.Proofs.TailChain
import ReactiveScript.Proofs.RenderLog
import ReactiveScript.Proofs.Monitor
import ReactiveScript.Proofs.Relinking
import ReactiveScript.Proofs.Positional
import ReactiveScript.Proofs.ExactArithmetic
import ReactiveScript.Proofs.StyleTurns
import ReactiveScript.Proofs.Overriding
import ReactiveScript.Proofs.SharedIterator
import ReactiveScript.Proofs.DelayedErrors
import ReactiveScript.Proofs.StackEffect
import ReactiveScript.Proofs.CallSites
import ReactiveScript.Proofs.Emission
import ReactiveScript.Proofs.InstructionWords
import ReactiveScript.Proofs.Interning
import ReactiveScript.Proofs.EqualityLaws
