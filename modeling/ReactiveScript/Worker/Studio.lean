import ReactiveScript.Machine.Call
import ReactiveScript.Worker.Basic

/-
  A worker at work.

  A studio is a worker with the context its jobs run on. It takes requests in order until none is
  left or a job waits at a gate that is not open; such a job leaves no trace until it can be run to
  its end. A job that panics fails alone, and the jobs after it run on a new context.
-/

namespace ReactiveScript

/-- The actions that generate a result. -/
abbrev Job := List (HostAction Value)

/-- A worker and its context. -/
structure Studio where
  worker : Worker Job Value
  context : Context

namespace Studio

/-- What came of running a job. -/
inductive Outcome
  | finished (result : JobResult Value) (m : Machine)
  | panicked (message : String) (m : Machine)
  /-- A gate that is not open holds the job. -/
  | held (gate : String)
  /-- The budget was not enough. -/
  | exhausted

/-- What a panic says. -/
def panicText : PanicPayload → String
  | .text message => message
  | .other => "unknown panic"

/-- Run a job on a context. -/
def runJob (budget : Nat) (job : Job) (m : Machine) : Outcome :=
  let call := Run.callFor budget
  match Run.performAll call (Run.evalWith call budget) .nil job m with
  | (.ok result, m) => .finished result m
  | (.error (.error e), m) => .finished (.error (.ofEval e)) m
  | (.error (.panic payload), m) => .panicked (panicText payload) m
  | (.error (.held gate), _) => .held gate
  | (.error .exhausted, _) => .exhausted

/-- A new context on which a setup was run. -/
def newContext (setup : Run Unit) : StateM Store Context := fun s =>
  let (interrupt, s) := Store.newInterrupt s
  let (_, m) := setup ⟨.ofSettings ⟨defaultMaxCallDepth, false, interrupt⟩, s⟩
  (m.context, m.store)

/-- A studio without requests. -/
def start (setup : Run Unit) : StateM Store Studio := do
  return ⟨.empty, ← newContext setup⟩

/-- Finish the request in flight, or the next one if none is; says whether there was one that could
be finished. -/
def work (budget : Nat) (setup : Run Unit) (studio : Studio) : StateM Store (Studio × Bool) :=
  fun s =>
    let worker := if studio.worker.inFlight.isNone then studio.worker.pop else studio.worker
    match worker.inFlight with
    | none => (({ studio with worker }, false), s)
    | some r =>
      match runJob budget r.job ⟨studio.context, s⟩ with
      | .held _ | .exhausted => (({ studio with worker }, false), s)
      | .finished result m => ((⟨worker.complete r result, m.context⟩, true), m.store)
      | .panicked message m =>
        let (context, s) := newContext setup m.store
        let failure := HostError.ofMessage ("generator panicked: " ++ message)
        ((⟨worker.complete r (.error failure), context⟩, true), s)

/-- Work on up to a number of requests. -/
def workOn (budget : Nat) (setup : Run Unit) : Nat → Studio → StateM Store Studio
  | 0, studio => return studio
  | tries + 1, studio => do
    let (studio, done) ← work budget setup studio
    if done then workOn budget setup tries studio else return studio

/-- Work until nothing is left to do or a gate holds the request in flight. -/
def advance (budget : Nat) (setup : Run Unit) (studio : Studio) : StateM Store Studio :=
  workOn budget setup (studio.worker.pending + 1) studio

/-- Open a gate. -/
def openGate (name : String) : StateM Store Unit := fun s =>
  ((), { s with openGates := name :: s.openGates })

/-- Drop the requests of an owner: the queued ones, and the result of the one in flight, for which
`gate` is opened. Says how many were queued. -/
def abort (budget : Nat) (setup : Run Unit) (studio : Studio) (owner : String)
    (gate : Option String) : StateM Store (Studio × Nat) := do
  let (removed, worker) := studio.worker.dropQueued owner
  let studio ← match gate with
    | some name => do
      openGate name
      advance budget setup { studio with worker }
    | none => pure { studio with worker }
  return ({ studio with worker := studio.worker.dropFinished owner }, removed)

/-- The gate that holds the request in flight. -/
def heldAt? (budget : Nat) (studio : Studio) : StateM Store (Option String) := fun s =>
  match studio.worker.inFlight with
  | none => (none, s)
  | some r =>
    match runJob budget r.job ⟨studio.context, s⟩ with
    | .held gate => (some gate, s)
    | _ => (none, s)

/-- Open the gates that hold the request in flight, up to a number of them, and finish it. -/
def stop (budget : Nat) (setup : Run Unit) (studio : Studio) : Nat → StateM Store Studio
  | 0 => return studio
  | gates + 1 => do
    match ← heldAt? budget studio with
    | some gate => do
      openGate gate
      stop budget setup studio gates
    | none =>
      if studio.worker.inFlight.isNone then return studio
      else return (← work budget setup studio).1

end Studio

end ReactiveScript
