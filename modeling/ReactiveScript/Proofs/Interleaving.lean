import ReactiveScript.Worker.Studio

/-
  A worker among its clients.

  A workshop is a worker with the thread that works for it and any number of clients, each a thread
  of its own. Nobody is stopped while it holds the queue or an inbox, and the entry of a key is held
  by one party at a time; between two such sections everybody else may get on. So a call of a client
  is a chain of sections (`goOn`), and so is what the worker does for one request (`workOn`): the
  sections that `Worker.request` and `Worker.complete` run through in one piece. A run is any list of
  moves, and one that is not possible leaves everything as it is. The history says what each section
  did.
-/

namespace ReactiveScript

/-! ## What sections do to entries and inboxes -/

namespace Worker

variable {γ ρ : Type}

/-- The deliveries that wait for an owner, the oldest first. -/
def inbox (w : Worker γ ρ) (owner : String) : List (Delivery ρ) :=
  (Assoc.find? owner w.inboxes).getD []

theorem entry_insert (w : Worker γ ρ) (key other : String) (e : Cached ρ) :
    entry { w with cache := Assoc.insert key e w.cache } other =
      if key = other then e else w.entry other := by
  unfold entry
  rw [Assoc.find?_insert]
  by_cases h : key = other
  · rw [if_pos h, if_pos h]
    rfl
  · rw [if_neg h, if_neg h]

@[simp] theorem entry_touch (w : Worker γ ρ) (key other : String) :
    (w.touch key).entry other = w.entry other := by
  unfold touch
  rw [entry_insert]
  by_cases h : key = other
  · rw [if_pos h, h]
  · rw [if_neg h]

theorem entry_mark (w : Worker γ ρ) (key other : String) : (w.mark key).entry other =
    if key = other then (w.entry other).invalidate else w.entry other := by
  unfold mark
  rw [entry_insert]
  by_cases h : key = other
  · rw [if_pos h, if_pos h, h]
  · rw [if_neg h, if_neg h]

theorem entry_write (w : Worker γ ρ) (key : String) (v : ρ) (requeued : Bool) (other : String) :
    (w.write key v requeued).entry other =
      if key = other then ⟨if requeued then .stale else .current, some v⟩ else w.entry other :=
  w.entry_insert key other _

/-- Only an entry that is current can be told apart from what invalidating leaves of it. -/
theorem entry_invalidate (w : Worker γ ρ) (key other : String) : (w.invalidate key).entry other =
    if key = other then (w.entry other).invalidate else w.entry other := by
  unfold invalidate
  cases hf : Assoc.find? key w.cache with
  | some e =>
    show entry { w with cache := Assoc.insert key e.invalidate w.cache } other = _
    have he : w.entry key = e := by
      unfold entry
      rw [hf]
      rfl
    rw [entry_insert, ← he]
    by_cases h : key = other
    · rw [if_pos h, if_pos h, h]
    · rw [if_neg h, if_neg h]
  | none =>
    show w.entry other = _
    by_cases h : key = other
    · have he : w.entry other = .notMade := by
        unfold entry
        rw [← h, hf]
        rfl
      rw [if_pos h, he]
      rfl
    · rw [if_neg h]

@[simp] theorem queue_invalidate (w : Worker γ ρ) (key : String) :
    (w.invalidate key).queue = w.queue := by
  unfold invalidate
  split <;> rfl

@[simp] theorem inFlight_invalidate (w : Worker γ ρ) (key : String) :
    (w.invalidate key).inFlight = w.inFlight := by
  unfold invalidate
  split <;> rfl

@[simp] theorem inboxes_invalidate (w : Worker γ ρ) (key : String) :
    (w.invalidate key).inboxes = w.inboxes := by
  unfold invalidate
  split <;> rfl

theorem inbox_publish (w : Worker γ ρ) (r : Request γ) (result : JobResult ρ) (owner : String) :
    (w.publish r result).inbox owner =
      w.inbox owner ++ if r.owner = owner then [⟨r.key, result⟩] else [] := by
  unfold publish inbox
  rw [Assoc.find?_insert]
  by_cases h : r.owner = owner
  · rw [if_pos h, if_pos h, h]
    rfl
  · rw [if_neg h, if_neg h, List.append_nil]

theorem inbox_poll (w : Worker γ ρ) (owner other : String) :
    (w.poll owner).2.inbox other = if owner = other then [] else w.inbox other := by
  unfold poll inbox
  rw [Assoc.find?_erase]
  by_cases h : owner = other
  · rw [if_pos h, if_pos h]
    rfl
  · rw [if_neg h, if_neg h]

end Worker

/-! ## Clients, the worker's thread, and what they do -/

/-- A job with the number of the call that brought it: every request brings a job of its own. -/
structure Numbered (γ : Type) where
  number : Nat
  job : γ
  deriving DecidableEq, Repr

/-- A request as it was accepted. -/
abbrev Commission (γ : Type) := Request (Numbered γ)

/-- How a job ended. -/
inductive Ending (ρ : Type)
  | returned (result : JobResult ρ)
  | panicked (payload : PanicPayload)

/-- What the owner gets of it. -/
def Ending.result {ρ : Type} : Ending ρ → JobResult ρ
  | returned result => result
  | panicked payload =>
    .error (.ofMessage ("generator panicked: " ++ Studio.panicText payload))

/-- What a client can ask for. -/
inductive Operation (γ : Type)
  | request (owner key : String) (job : γ)
  | poll (owner : String)
  | abort (owner : String)
  | invalidate (key : String)
  | cached (key : String)

/-- How far a client's call has come. -/
inductive Call (γ : Type)
  | idle
  | requesting (owner key : String) (job : γ)
  /-- The key has an entry. -/
  | entering (owner key : String) (job : γ)
  /-- The client holds the entry, which it has marked. -/
  | queueing (owner key : String) (job : γ)
  /-- The request is queued, and the client still holds the entry. -/
  | leaving (key : String)
  | polling (owner : String)
  | aborting (owner : String)
  /-- The queued requests are dropped; one of the owner's is in flight. -/
  | awaiting (owner : String)
  | discarding (owner : String)
  | invalidating (key : String)
  /-- The entry was found and has to be held. -/
  | outdating (key : String)
  | looking (key : String)
  /-- The entry was found and has to be held. -/
  | reading (key : String)

/-- A call that was just made. -/
def Operation.begin {γ : Type} : Operation γ → Call γ
  | request owner key job => .requesting owner key job
  | poll owner => .polling owner
  | abort owner => .aborting owner
  | invalidate key => .invalidating key
  | cached key => .looking key

/-- The entry that a call holds. -/
def Call.held? {γ : Type} : Call γ → Option String
  | queueing _ key _ => some key
  | leaving key => some key
  | _ => none

/-- What the worker's thread is at. -/
inductive Stage (γ ρ : Type)
  | free
  /-- A request was taken from the queue. -/
  | taken (r : Commission γ)
  | running (r : Commission γ)
  | ended (r : Commission γ) (result : JobResult ρ)
  /-- The worker holds the entry of the key. -/
  | storing (r : Commission γ) (v : ρ)
  /-- It knows, too, whether a newer request for the key waits. -/
  | checked (r : Commission γ) (v : ρ) (requeued : Bool)
  | stored (r : Commission γ) (result : JobResult ρ)
  | delivered (r : Commission γ)

namespace Stage

variable {γ ρ : Type}

/-- The request that the thread has in its hands: it is no longer queued and not yet delivered. -/
def inHand : Stage γ ρ → Option (Commission γ)
  | free => none
  | taken r => some r
  | running r => some r
  | ended r _ => some r
  | storing r _ => some r
  | checked r _ _ => some r
  | stored r _ => some r
  | delivered _ => none

/-- The request for which the worker counts as busy, until it says that it is free. -/
def busyWith : Stage γ ρ → Option (Commission γ)
  | delivered r => some r
  | stage => stage.inHand

/-- The request in hand, from when its job was started. -/
def begun : Stage γ ρ → Option (Commission γ)
  | taken _ => none
  | stage => stage.inHand

/-- The request whose result, if there will be one, is still to be stored. -/
def unstored : Stage γ ρ → Option (Commission γ)
  | stored _ _ => none
  | stage => stage.inHand

/-- The entry that the worker holds. -/
def held? : Stage γ ρ → Option String
  | storing r _ => some r.key
  | checked r _ _ => some r.key
  | _ => none

end Stage

/-- Who can hold an entry. -/
inductive Party
  | worker
  | client (number : Nat)
  deriving DecidableEq, Repr

/-- What happened in a section. -/
inductive Event (γ ρ : Type)
  /-- A request was queued, in place of others. -/
  | accepted (r : Commission γ) (replaced : List (Commission γ))
  /-- A call to abort took requests of its owner from the queue. -/
  | dropped (client : Nat) (owner : String) (removed : List (Commission γ))
  /-- A call to abort emptied the inbox of its owner and came back. -/
  | discarded (client : Nat) (owner : String)
  | polled (owner : String) (deliveries : List (Delivery ρ))
  /-- A request marked the entry of its key. -/
  | marked (key : String)
  | invalidated (key : String)
  | looked (key : String) (entry : Option (Cached ρ))
  | taken (r : Commission γ)
  | started (r : Commission γ)
  | ended (r : Commission γ) (result : JobResult ρ)
  /-- The result of a request was stored. -/
  | written (r : Commission γ) (v : ρ) (requeued : Bool)
  | published (r : Commission γ) (result : JobResult ρ)
  | released (r : Commission γ)

/-- What can come next. -/
inductive Move (γ ρ : Type)
  /-- A client that is idle makes a call. -/
  | call (client : Nat) (operation : Operation γ)
  /-- A client goes on with its call. -/
  | goOn (client : Nat)
  /-- The worker's thread goes on. -/
  | work
  /-- The job that runs comes to its end. -/
  | finish (ending : Ending ρ)

/-! ## The workshop -/

/-- The worker, its thread and the clients. -/
structure Workshop (γ ρ : Type) where
  worker : Worker (Numbered γ) ρ
  stage : Stage γ ρ
  calls : Nat → Call γ
  /-- Who holds the entry of a key. -/
  holder : String → Option Party
  /-- The number of requests accepted so far. -/
  issued : Nat
  /-- What happened, the oldest first. -/
  history : List (Event γ ρ)

namespace Workshop

variable {γ ρ : Type}

/-- Before anything happened. -/
def start : Workshop γ ρ := ⟨.empty, .free, fun _ => .idle, fun _ => none, 0, []⟩

/-- A client comes to another point of its call. -/
def setCall (s : Workshop γ ρ) (c : Nat) (call : Call γ) : Workshop γ ρ :=
  { s with calls := fun other => if other = c then call else s.calls other }

/-- An entry is held by a party, or by nobody. -/
def setHolder (s : Workshop γ ρ) (key : String) (party : Option Party) : Workshop γ ρ :=
  { s with holder := fun other => if other = key then party else s.holder other }

/-- Something happened. -/
def note (s : Workshop γ ρ) (e : Event γ ρ) : Workshop γ ρ := { s with history := s.history ++ [e] }

/-- The next section of a client's call. -/
def goOn (s : Workshop γ ρ) (c : Nat) : Call γ → Workshop γ ρ
  | .idle => s
  | .requesting owner key job =>
    { s with worker := s.worker.touch key }.setCall c (.entering owner key job)
  | .entering owner key job =>
    if s.holder key = none then
      (({ s with worker := s.worker.mark key }.setHolder key (some (.client c))).setCall c
        (.queueing owner key job)).note (.marked key)
    else s
  | .queueing owner key job =>
    let r : Commission γ := ⟨owner, key, s.issued, job⟩
    ({ s with worker := s.worker.enqueue r, issued := s.issued + 1 }.setCall c (.leaving key)).note
      (.accepted r (s.worker.queue.filter fun q => q.key = key))
  | .leaving key => (s.setHolder key none).setCall c .idle
  | .polling owner =>
    ({ s with worker := (s.worker.poll owner).2 }.setCall c .idle).note
      (.polled owner (s.worker.poll owner).1)
  | .aborting owner =>
    let next := if s.worker.isBusyFor owner then .awaiting owner else .discarding owner
    ({ s with worker := (s.worker.dropQueued owner).2 }.setCall c next).note
      (.dropped c owner (s.worker.queue.filter fun q => q.owner = owner))
  | .awaiting owner => if s.worker.isBusyFor owner then s else s.setCall c (.discarding owner)
  | .discarding owner =>
    ({ s with worker := s.worker.dropFinished owner }.setCall c .idle).note (.discarded c owner)
  | .invalidating key =>
    if (s.worker.cached? key).isSome then s.setCall c (.outdating key)
    else (s.setCall c .idle).note (.invalidated key)
  | .outdating key =>
    if s.holder key = none then
      ({ s with worker := s.worker.invalidate key }.setCall c .idle).note (.invalidated key)
    else s
  | .looking key =>
    if (s.worker.cached? key).isSome then s.setCall c (.reading key)
    else (s.setCall c .idle).note (.looked key none)
  | .reading key =>
    if s.holder key = none then (s.setCall c .idle).note (.looked key (s.worker.cached? key)) else s

/-- The next section of the worker's thread. While a job runs there is none. -/
def workOn (s : Workshop γ ρ) : Stage γ ρ → Workshop γ ρ
  | .free =>
    match s.worker.queue with
    | [] => s
    | r :: _ => { s with worker := s.worker.pop, stage := .taken r }.note (.taken r)
  | .taken r => { s with stage := .running r }.note (.started r)
  | .running _ => s
  | .ended r (.ok v) =>
    if s.holder r.key = none then
      { s with worker := s.worker.touch r.key, stage := .storing r v }.setHolder r.key (some .worker)
    else s
  | .ended r (.error e) => { s with stage := .stored r (.error e) }
  | .storing r v => { s with stage := .checked r v (s.worker.isQueued r.key) }
  | .checked r v requeued =>
    ({ s with worker := s.worker.write r.key v requeued, stage := .stored r (.ok v) }.setHolder r.key
      none).note (.written r v requeued)
  | .stored r result =>
    { s with worker := s.worker.publish r result, stage := .delivered r }.note (.published r result)
  | .delivered r => { s with worker := s.worker.release, stage := .free }.note (.released r)

/-- A job comes to its end, if it runs. -/
def finish (s : Workshop γ ρ) (ending : Ending ρ) : Stage γ ρ → Workshop γ ρ
  | .running r => { s with stage := .ended r ending.result }.note (.ended r ending.result)
  | _ => s

/-- A call is made, if the client is idle. -/
def begin (s : Workshop γ ρ) (c : Nat) (operation : Operation γ) : Call γ → Workshop γ ρ
  | .idle => s.setCall c operation.begin
  | _ => s

/-- What a move does. -/
def act (s : Workshop γ ρ) : Move γ ρ → Workshop γ ρ
  | .call c operation => s.begin c operation (s.calls c)
  | .goOn c => s.goOn c (s.calls c)
  | .work => s.workOn s.stage
  | .finish ending => s.finish ending s.stage

/-- What a list of moves leads to. -/
def run (moves : List (Move γ ρ)) : Workshop γ ρ := moves.foldl act start

/-- What holds at the start and is kept by every move always holds. -/
theorem run_induction {P : Workshop γ ρ → Prop} (hstart : P start)
    (hact : ∀ s move, P s → P (act s move)) (moves : List (Move γ ρ)) : P (run moves) := by
  unfold run
  generalize (start : Workshop γ ρ) = s at hstart
  induction moves generalizing s with
  | nil => exact hstart
  | cons move rest ih => exact ih _ (hact s move hstart)

end Workshop

end ReactiveScript
