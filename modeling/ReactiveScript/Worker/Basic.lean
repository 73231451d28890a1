import ReactiveScript.Assoc
import ReactiveScript.Failure

/-
  The background worker.

  Clients queue jobs under a cache key on behalf of an owner. The worker takes them one at a time:
  it pops a request, generates its result, stores the result in the cache, delivers it to the inbox
  of the owner, and is then free again. An operation is one section that no other party can interrupt,
  or it is put together of such sections: `request` of `touch`, `mark` and `enqueue`, and `complete` of
  `touch`, `write`, `publish` and `release`. What clients and worker do is any interleaving of
  sections.

  A newer request for a key takes the place of a queued one. A cache entry is current only while no
  newer request waits and nobody invalidated it.
-/

namespace ReactiveScript

/-- A job to be done, for the owner that wants it and the key of its result. -/
structure Request (γ : Type) where
  owner : String
  key : String
  job : γ
  deriving DecidableEq, Repr

/-- Whether the cached result of a key can be trusted. -/
inductive Freshness
  /-- No result was ever stored. -/
  | notMade
  | current
  /-- There is a result, but a newer one is wanted. -/
  | stale
  deriving DecidableEq, Repr

/-- The name of a status. -/
def Freshness.name : Freshness → String
  | notMade => "NotMade"
  | current => "Ok"
  | stale => "Changed"

/-- The cached result of a key. -/
structure Cached (ρ : Type) where
  status : Freshness
  value : Option ρ
  deriving DecidableEq, Repr

/-- What a job gave. -/
abbrev JobResult (ρ : Type) := Except HostError ρ

/-- A completed request, as its owner gets it. -/
structure Delivery (ρ : Type) where
  key : String
  result : JobResult ρ

/-- What clients and the worker share, and the request being generated. -/
structure Worker (γ ρ : Type) where
  queue : List (Request γ)
  inFlight : Option (Request γ)
  cache : List (String × Cached ρ)
  /-- Completed requests by owner, the oldest first. -/
  inboxes : List (String × List (Delivery ρ))

namespace Cached

variable {ρ : Type}

/-- The entry of a key nothing was generated for. -/
def notMade : Cached ρ := ⟨.notMade, none⟩

/-- A current result is no longer current. -/
def invalidate (e : Cached ρ) : Cached ρ :=
  if e.status = .current then { e with status := .stale } else e

end Cached

namespace Worker

variable {γ ρ : Type}

/-- Nothing queued, nothing in flight, nothing stored. -/
def empty : Worker γ ρ := ⟨[], none, [], []⟩

instance : Inhabited (Worker γ ρ) := ⟨empty⟩

/-- The cache entry of a key, or the one it starts with. -/
def entry (w : Worker γ ρ) (key : String) : Cached ρ :=
  (Assoc.find? key w.cache).getD .notMade

/-- Whether a request for a key waits. -/
def isQueued (w : Worker γ ρ) (key : String) : Bool := w.queue.any fun r => r.key = key

/-! ## What clients do -/

/-- See to it that a key has an entry. -/
def touch (w : Worker γ ρ) (key : String) : Worker γ ρ :=
  { w with cache := Assoc.insert key (w.entry key) w.cache }

/-- A newer result is wanted for a key. -/
def mark (w : Worker γ ρ) (key : String) : Worker γ ρ :=
  { w with cache := Assoc.insert key (w.entry key).invalidate w.cache }

/-- Put a request at the end of the queue, in place of a queued one for the same key. -/
def enqueue (w : Worker γ ρ) (r : Request γ) : Worker γ ρ :=
  { w with queue := w.queue.filter (fun q => q.key ≠ r.key) ++ [r] }

/-- Queue a job. -/
def request (w : Worker γ ρ) (r : Request γ) : Worker γ ρ := ((w.touch r.key).mark r.key).enqueue r

/-- Take the completed requests of an owner. -/
def poll (w : Worker γ ρ) (owner : String) : List (Delivery ρ) × Worker γ ρ :=
  ((Assoc.find? owner w.inboxes).getD [], { w with inboxes := Assoc.erase owner w.inboxes })

/-- Begin to abort: drop the queued requests of an owner. Says how many there were. -/
def dropQueued (w : Worker γ ρ) (owner : String) : Nat × Worker γ ρ :=
  let queue := w.queue.filter fun r => r.owner ≠ owner
  (w.queue.length - queue.length, { w with queue })

/-- Whether aborting must wait for the request in flight. -/
def isBusyFor (w : Worker γ ρ) (owner : String) : Bool :=
  w.inFlight.any fun r => r.owner = owner

/-- End to abort: drop the completed requests of an owner. -/
def dropFinished (w : Worker γ ρ) (owner : String) : Worker γ ρ := (w.poll owner).2

/-- Declare the result of a key stale. -/
def invalidate (w : Worker γ ρ) (key : String) : Worker γ ρ :=
  match Assoc.find? key w.cache with
  | some e => { w with cache := Assoc.insert key e.invalidate w.cache }
  | none => w

/-- The cache entry of a key, if anything was ever requested for it. -/
def cached? (w : Worker γ ρ) (key : String) : Option (Cached ρ) := Assoc.find? key w.cache

/-- How many requests wait. -/
def pending (w : Worker γ ρ) : Nat := w.queue.length

/-- Whether nothing waits and nothing is in flight. -/
def isIdle (w : Worker γ ρ) : Bool := w.queue.isEmpty && w.inFlight.isNone

/-! ## What the worker does -/

/-- Take the oldest request. -/
def pop (w : Worker γ ρ) : Worker γ ρ :=
  match w.queue with
  | [] => w
  | r :: rest => { w with queue := rest, inFlight := some r }

/-- Store a value, which is current unless a newer request was seen to wait. -/
def write (w : Worker γ ρ) (key : String) (v : ρ) (requeued : Bool) : Worker γ ρ :=
  { w with cache := Assoc.insert key ⟨if requeued then .stale else .current, some v⟩ w.cache }

/-- Store a generated result. A failure is not stored. -/
def storeResult (w : Worker γ ρ) (key : String) : JobResult ρ → Worker γ ρ
  | .ok v => (w.touch key).write key v (w.isQueued key)
  | .error _ => w

/-- Deliver a result to its owner. -/
def publish (w : Worker γ ρ) (r : Request γ) (result : JobResult ρ) : Worker γ ρ :=
  let inbox := (Assoc.find? r.owner w.inboxes).getD []
  { w with inboxes := Assoc.insert r.owner (inbox ++ [⟨r.key, result⟩]) w.inboxes }

/-- The request in flight is done. -/
def release (w : Worker γ ρ) : Worker γ ρ := { w with inFlight := none }

/-- Store, deliver and be free again. -/
def complete (w : Worker γ ρ) (r : Request γ) (result : JobResult ρ) : Worker γ ρ :=
  ((w.storeResult r.key result).publish r result).release

end Worker

end ReactiveScript
