import Mathlib.Algebra.Order.Group.Multiset
import Mathlib.Data.List.Induction
import Mathlib.Data.List.Pairwise
import Mathlib.Tactic.Abel
import ReactiveScript.Proofs.Interleaving

/-
  No request is lost, and none is done twice.

  The ledger says what a history amounts to: which requests were accepted, which of them were
  replaced or dropped while queued, which were started and completed, and what became of the
  completed ones. The books (`Books`) set it against what the worker and its thread hold. Every
  section keeps them, one lemma per kind of section, so they are right after any run; and since
  accepted requests have distinct numbers, books that are right put each in exactly one place.
-/

namespace ReactiveScript

/-- A request with what came of it. -/
structure Completion (γ ρ : Type) where
  request : Commission γ
  result : JobResult ρ

/-- As its owner gets it. -/
def Completion.delivery {γ ρ : Type} (done : Completion γ ρ) : Delivery ρ :=
  ⟨done.request.key, done.result⟩

/-- A filter and its complement make up the whole. -/
theorem coe_filter_not_add_filter {α : Type} (p : α → Bool) (xs : List α) :
    (xs : Multiset α) = xs.filter (fun x => !p x) + xs.filter p := by
  rw [Multiset.coe_add, Multiset.coe_eq_coe]
  exact (List.filter_append_perm p xs).symm.trans List.perm_append_comm

/-- What an event says of the requests that it takes from the queue. -/
def Event.Proper {γ ρ : Type} : Event γ ρ → Prop
  | .accepted r replaced => ∀ q ∈ replaced, q.key = r.key ∧ q.job.number < r.job.number
  | .dropped _ owner removed => ∀ q ∈ removed, q.owner = owner
  | _ => True

/-! ## The ledger of a history -/

/-- What a history amounts to, each list in the order of the history. -/
structure Ledger (γ ρ : Type) where
  accepted : List (Commission γ)
  /-- Taken from the queue by a later request. -/
  replaced : List (Commission γ)
  /-- Taken from the queue by a call to abort. -/
  dropped : List (Commission γ)
  started : List (Commission γ)
  published : List (Completion γ ρ)
  /-- Published, and neither polled nor discarded since. -/
  waiting : List (Completion γ ρ)
  polled : List (Completion γ ρ)
  /-- Discarded by a call to abort. -/
  discarded : List (Completion γ ρ)
  /-- What the calls to poll for an owner came back with. -/
  received : String → List (Delivery ρ)

namespace Ledger

variable {γ ρ : Type}

/-- Before anything happened. -/
def empty : Ledger γ ρ := ⟨[], [], [], [], [], [], [], [], fun _ => []⟩

/-- The completed requests of an owner that wait. -/
def waitingFor (l : Ledger γ ρ) (owner : String) : List (Completion γ ρ) :=
  l.waiting.filter fun done => done.request.owner = owner

/-- Those that wait for others. -/
def waitingElse (l : Ledger γ ρ) (owner : String) : List (Completion γ ρ) :=
  l.waiting.filter fun done => done.request.owner ≠ owner

/-- One event more. -/
def after (l : Ledger γ ρ) : Event γ ρ → Ledger γ ρ
  | .accepted r replaced =>
    { l with accepted := l.accepted ++ [r], replaced := l.replaced ++ replaced }
  | .dropped _ _ removed => { l with dropped := l.dropped ++ removed }
  | .discarded _ owner =>
    { l with
      waiting := l.waitingElse owner
      discarded := l.discarded ++ l.waitingFor owner }
  | .polled owner deliveries =>
    { l with
      waiting := l.waitingElse owner
      polled := l.polled ++ l.waitingFor owner
      received := fun other =>
        if owner = other then l.received owner ++ deliveries else l.received other }
  | .started r => { l with started := l.started ++ [r] }
  | .published r result =>
    { l with
      published := l.published ++ [⟨r, result⟩]
      waiting := l.waiting ++ [⟨r, result⟩] }
  | .marked _ | .invalidated _ | .looked _ _ | .taken _ | .ended _ _ | .written _ _ _
  | .released _ => l

/-- Of what waits for an owner, all or nothing waits for another. -/
theorem filter_waitingFor (l : Ledger γ ρ) (owner other : String) :
    (l.waitingFor owner).filter (fun done => done.request.owner = other) =
      if owner = other then l.waitingFor other else [] := by
  unfold waitingFor
  rw [List.filter_filter]
  by_cases h : owner = other
  · subst h
    simp
  · simp only [if_neg h, List.filter_eq_nil_iff]
    rintro done - hboth
    simp only [Bool.and_eq_true, decide_eq_true_eq] at hboth
    exact h (hboth.2.symm.trans hboth.1)

theorem filter_waitingElse (l : Ledger γ ρ) (owner other : String) :
    (l.waitingElse owner).filter (fun done => done.request.owner = other) =
      if owner = other then [] else l.waitingFor other := by
  unfold waitingElse waitingFor
  rw [List.filter_filter]
  by_cases h : owner = other
  · subst h
    simp
  · rw [if_neg h]
    refine List.filter_congr fun done _ => ?_
    by_cases ho : done.request.owner = other
    · have hne : other ≠ owner := fun heq => h heq.symm
      simp [ho, hne]
    · simp [ho]

/-- What waits, waits for an owner or for others. -/
theorem coe_waiting (l : Ledger γ ρ) (owner : String) :
    (l.waiting : Multiset (Completion γ ρ)) = l.waitingElse owner + l.waitingFor owner := by
  unfold waitingElse waitingFor
  simp only [ne_eq, decide_not]
  exact coe_filter_not_add_filter _ _

theorem coe_requests_waiting (l : Ledger γ ρ) (owner : String) :
    (l.waiting.map (·.request) : Multiset (Commission γ)) =
      (l.waitingElse owner).map (·.request) + (l.waitingFor owner).map (·.request) := by
  simp only [← Multiset.map_coe]
  rw [l.coe_waiting owner, Multiset.map_add]

end Ledger

namespace Workshop

variable {γ ρ : Type}

/-- The ledger of what happened so far. -/
def ledger (s : Workshop γ ρ) : Ledger γ ρ := s.history.foldl Ledger.after .empty

theorem ledger_note (s : Workshop γ ρ) (e : Event γ ρ) :
    (s.note e).ledger = s.ledger.after e := by
  unfold ledger note
  rw [List.foldl_append]
  rfl

/-- A request was replaced by one whose event says so. -/
theorem mem_replaced {s : Workshop γ ρ} {q : Commission γ} :
    q ∈ s.ledger.replaced ↔ ∃ r rs, .accepted r rs ∈ s.history ∧ q ∈ rs := by
  unfold ledger
  induction s.history using List.reverseRecOn with
  | nil => simp [Ledger.empty]
  | append_singleton h e ih =>
    rw [List.foldl_append]
    cases e <;> simp [Ledger.after, ih, or_and_right, exists_or]

/-- A request was dropped by a call to abort whose event says so. -/
theorem mem_dropped {s : Workshop γ ρ} {q : Commission γ} :
    q ∈ s.ledger.dropped ↔ ∃ c owner rs, .dropped c owner rs ∈ s.history ∧ q ∈ rs := by
  unfold ledger
  induction s.history using List.reverseRecOn with
  | nil => simp [Ledger.empty]
  | append_singleton h e ih =>
    rw [List.foldl_append]
    cases e <;> simp [Ledger.after, ih, or_and_right, exists_or]

/-- A completed request was discarded by a call to abort for its owner. -/
theorem discarded_of_mem {s : Workshop γ ρ} {done : Completion γ ρ}
    (hdone : done ∈ s.ledger.discarded) : ∃ c, .discarded c done.request.owner ∈ s.history := by
  revert hdone
  unfold ledger
  induction s.history using List.reverseRecOn with
  | nil => simp [Ledger.empty]
  | append_singleton h e ih =>
    rw [List.foldl_append]
    intro hdone
    cases e with
    | discarded c owner =>
      rcases List.mem_append.mp hdone with hold | hnew
      · obtain ⟨c', hc'⟩ := ih hold
        exact ⟨c', List.mem_append_left _ hc'⟩
      · have howner : done.request.owner = owner := of_decide_eq_true (List.mem_filter.mp hnew).2
        exact ⟨c, List.mem_append_right _ (howner ▸ List.mem_singleton_self _)⟩
    | _ =>
      obtain ⟨c, hc⟩ := ih hdone
      exact ⟨c, List.mem_append_left _ hc⟩

end Workshop

/-! ## The books -/

/-- What the worker and its thread hold agrees with the ledger. -/
structure Books {γ ρ : Type} (w : Worker (Numbered γ) ρ) (stage : Stage γ ρ) (issued : Nat)
    (l : Ledger γ ρ) : Prop where
  /-- Accepted requests are numbered in order. -/
  numbers : l.accepted.map (·.job.number) = List.range issued
  /-- Each accepted request is somewhere, and nothing is anywhere else. -/
  whole : (l.accepted : Multiset (Commission γ)) =
    w.queue + stage.inHand.toList + l.waiting.map (·.request) + l.polled.map (·.request) +
      l.replaced + (l.dropped + l.discarded.map (·.request))
  /-- Each published result waits, was polled or was discarded. -/
  parcels : (l.published : Multiset (Completion γ ρ)) = l.waiting + l.polled + l.discarded
  keys : (w.queue.map (·.key)).Nodup
  /-- An inbox holds what waits for its owner. -/
  inbox : ∀ owner, w.inbox owner = (l.waitingFor owner).map Completion.delivery
  /-- An owner received what was polled of its own. -/
  received : ∀ owner, l.received owner =
    (l.polled.filter fun done => done.request.owner = owner).map Completion.delivery
  /-- What an owner received and is yet to receive is in the order of publication. -/
  order : ∀ owner, ((l.polled ++ l.waiting).filter fun done => done.request.owner = owner).Sublist
    l.published
  /-- What was started was published, but for the request in hand. -/
  begun : l.started = l.published.map (·.request) ++ stage.begun.toList
  slot : w.inFlight = stage.busyWith

namespace Books

variable {γ ρ : Type} {w w' : Worker (Numbered γ) ρ} {stage stage' : Stage γ ρ} {issued : Nat}
  {l : Ledger γ ρ}

theorem empty : Books (γ := γ) (ρ := ρ) .empty .free 0 .empty where
  numbers := rfl
  whole := rfl
  parcels := rfl
  keys := List.nodup_nil
  inbox := fun _ => rfl
  received := fun _ => rfl
  order := fun _ => List.Sublist.refl _
  begun := rfl
  slot := rfl

/-- Nothing in the books is about the cache, and the thread can go on with the request that it has
in hand. -/
theorem aside (h : Books w stage issued l) (hq : w'.queue = w.queue)
    (hf : w'.inFlight = w.inFlight) (hi : w'.inboxes = w.inboxes)
    (hhand : stage'.inHand = stage.inHand) (hbegun : stage'.begun = stage.begun)
    (hbusy : stage'.busyWith = stage.busyWith) : Books w' stage' issued l where
  numbers := h.numbers
  whole := by rw [hq, hhand]; exact h.whole
  parcels := h.parcels
  keys := by rw [hq]; exact h.keys
  inbox := by
    intro owner
    rw [← h.inbox owner]
    unfold Worker.inbox
    rw [hi]
  received := h.received
  order := h.order
  begun := by rw [hbegun]; exact h.begun
  slot := by rw [hf, hbusy]; exact h.slot

/-- A request is queued in place of the queued ones for its key. -/
theorem accepts (h : Books w stage issued l) (owner key : String) (job : γ) :
    let r : Commission γ := ⟨owner, key, issued, job⟩
    Books (w.enqueue r) stage (issued + 1)
      (l.after (.accepted r (w.queue.filter fun q => q.key = key))) := by
  intro r
  exact { h with
    numbers := by
      show (l.accepted ++ [r]).map _ = _
      rw [List.map_append, h.numbers, List.range_succ]
      rfl
    whole := by
      have hsplit :=
        coe_filter_not_add_filter (fun q : Commission γ => decide (q.key = key)) w.queue
      simp only [Ledger.after, Worker.enqueue, ne_eq, decide_not, ← Multiset.coe_add]
      rw [h.whole, hsplit]
      abel
    keys := by
      show ((w.queue.filter (fun q => q.key ≠ key) ++ [r]).map _).Nodup
      rw [List.map_append, List.nodup_append]
      refine ⟨h.keys.sublist (List.filter_sublist.map _), List.nodup_singleton _, ?_⟩
      intro a ha b hb heq
      obtain ⟨q, hq, rfl⟩ := List.mem_map.mp ha
      have hne : q.key ≠ key := of_decide_eq_true (List.mem_filter.mp hq).2
      exact hne (heq.trans (List.mem_singleton.mp hb)) }

/-- The queued requests of an owner are dropped. -/
theorem drops (h : Books w stage issued l) (c : Nat) (owner : String) :
    Books (w.dropQueued owner).2 stage issued
      (l.after (.dropped c owner (w.queue.filter fun q => q.owner = owner))) :=
  { h with
    whole := by
      have hsplit :=
        coe_filter_not_add_filter (fun q : Commission γ => decide (q.owner = owner)) w.queue
      simp only [Ledger.after, Worker.dropQueued, ne_eq, decide_not, ← Multiset.coe_add]
      rw [h.whole, hsplit]
      abel
    keys := h.keys.sublist (List.filter_sublist.map _) }

/-- The oldest request is taken from the queue. -/
theorem takes {r : Commission γ} {rest : List (Commission γ)} (h : Books w .free issued l)
    (hqueue : w.queue = r :: rest) : Books w.pop (.taken r) issued l := by
  have hpop : w.pop = { w with queue := rest, inFlight := some r } := by
    unfold Worker.pop
    rw [hqueue]
  rw [hpop]
  exact { h with
    whole := by
      have hwhole := h.whole
      rw [hqueue, ← Multiset.cons_coe, ← Multiset.singleton_add] at hwhole
      rw [hwhole]
      simp only [Stage.inHand, Option.toList, Multiset.coe_singleton, Multiset.coe_nil]
      abel
    keys := by
      have hkeys := h.keys
      rw [hqueue] at hkeys
      exact (List.nodup_cons.mp hkeys).2
    slot := rfl }

/-- The job of the request in hand is started. -/
theorem starts {r : Commission γ} (h : Books w (.taken r) issued l) :
    Books w (.running r) issued (l.after (.started r)) :=
  { h with
    begun := by
      show l.started ++ [r] = _
      rw [h.begun]
      simp [Stage.begun, Stage.inHand, Ledger.after]
    slot := h.slot }

/-- The result of the request in hand is delivered. -/
theorem publishes {r : Commission γ} {result result' : JobResult ρ}
    (h : Books w (.stored r result) issued l) :
    Books (w.publish r result') (.delivered r) issued (l.after (.published r result')) :=
  { h with
    whole := by
      simp only [Ledger.after, Stage.inHand, Option.toList, List.map_append, List.map_cons,
        List.map_nil, ← Multiset.coe_add]
      rw [h.whole]
      simp only [Worker.publish, Stage.inHand, Option.toList, Multiset.coe_nil]
      abel
    parcels := by
      simp only [Ledger.after, ← Multiset.coe_add]
      rw [h.parcels]
      abel
    inbox := by
      intro owner
      rw [Worker.inbox_publish, h.inbox owner]
      unfold Ledger.waitingFor
      by_cases ho : r.owner = owner <;> simp [Ledger.after, ho, Completion.delivery]
    order := by
      intro owner
      show (((l.polled ++ (l.waiting ++ [_])).filter _).Sublist (l.published ++ [_]))
      rw [← List.append_assoc, List.filter_append]
      exact (h.order owner).append List.filter_sublist
    begun := by
      show l.started = (l.published ++ [_]).map _ ++ []
      rw [h.begun]
      simp [Stage.begun, Stage.inHand]
    slot := h.slot }

/-- An inbox is emptied. -/
theorem inbox_poll (h : Books w stage issued l) (owner other : String) :
    (w.poll owner).2.inbox other =
      ((l.waitingElse owner).filter fun done => done.request.owner = other).map
        Completion.delivery := by
  rw [Worker.inbox_poll, Ledger.filter_waitingElse, h.inbox]
  by_cases ho : owner = other
  · simp [ho]
  · simp [ho]

/-- A call to poll takes what waits for its owner. -/
theorem polls (h : Books w stage issued l) (owner : String) :
    Books (w.poll owner).2 stage issued (l.after (.polled owner (w.poll owner).1)) :=
  { h with
    whole := by
      simp only [Ledger.after, List.map_append, ← Multiset.coe_add]
      rw [h.whole, l.coe_requests_waiting owner]
      simp only [Worker.poll]
      abel
    parcels := by
      simp only [Ledger.after, ← Multiset.coe_add]
      rw [h.parcels, l.coe_waiting owner]
      abel
    inbox := h.inbox_poll owner
    received := by
      intro other
      show (if owner = other then l.received owner ++ w.inbox owner else l.received other) =
        ((l.polled ++ l.waitingFor owner).filter _).map _
      rw [List.filter_append, List.map_append, Ledger.filter_waitingFor, ← h.received other]
      by_cases ho : owner = other
      · rw [if_pos ho, if_pos ho, ho, h.inbox other]
      · rw [if_neg ho, if_neg ho, List.map_nil, List.append_nil]
    order := by
      intro other
      have horder := h.order other
      rw [List.filter_append] at horder
      show ((l.polled ++ l.waitingFor owner ++ l.waitingElse owner).filter _).Sublist l.published
      rw [List.filter_append, List.filter_append, List.append_assoc, Ledger.filter_waitingFor,
        Ledger.filter_waitingElse]
      by_cases ho : owner = other
      · rw [if_pos ho, if_pos ho, List.append_nil]
        exact horder
      · rw [if_neg ho, if_neg ho, List.nil_append]
        exact horder }

/-- A call to abort discards what waits for its owner. -/
theorem discards (h : Books w stage issued l) (c : Nat) (owner : String) :
    Books (w.dropFinished owner) stage issued (l.after (.discarded c owner)) :=
  { h with
    whole := by
      simp only [Ledger.after, List.map_append, ← Multiset.coe_add]
      rw [h.whole, l.coe_requests_waiting owner]
      simp only [Worker.dropFinished, Worker.poll]
      abel
    parcels := by
      simp only [Ledger.after, ← Multiset.coe_add]
      rw [h.parcels, l.coe_waiting owner]
      abel
    inbox := h.inbox_poll owner
    order := by
      intro other
      exact ((List.Sublist.append_left List.filter_sublist _).filter _).trans (h.order other) }

/-- The worker is free again. -/
theorem releases {r : Commission γ} (h : Books w (.delivered r) issued l) :
    Books w.release .free issued l :=
  { h with slot := rfl }

/-- A request that is queued was accepted. -/
theorem accepted_of_queued (h : Books w stage issued l) {r : Commission γ} (hr : r ∈ w.queue) :
    r ∈ l.accepted := by
  rw [← Multiset.mem_coe, h.whole]
  simp [hr]

/-- Numbers are given out in order. -/
theorem number_lt (h : Books w stage issued l) {r : Commission γ} (hr : r ∈ l.accepted) :
    r.job.number < issued := by
  have hmem := List.mem_map_of_mem (f := fun r : Commission γ => r.job.number) hr
  rw [h.numbers] at hmem
  exact List.mem_range.mp hmem

end Books

/-! ## Every section keeps the books -/

namespace Workshop

variable {γ ρ : Type} {s : Workshop γ ρ}

/-- The books are right, and so is every event that was noted. -/
def Balanced (s : Workshop γ ρ) : Prop :=
  Books s.worker s.stage s.issued s.ledger ∧ ∀ e ∈ s.history, e.Proper

theorem balanced_note {e : Event γ ρ} (hbooks : Books s.worker s.stage s.issued (s.ledger.after e))
    (hproper : ∀ e ∈ s.history, e.Proper) (he : e.Proper) : (s.note e).Balanced := by
  refine ⟨?_, ?_⟩
  · rw [ledger_note]
    exact hbooks
  · intro e' he'
    rcases List.mem_append.mp he' with hold | hnew
    · exact hproper e' hold
    · rw [List.mem_singleton.mp hnew]
      exact he

/-- A section of a client keeps the books. -/
theorem Balanced.goOn (h : s.Balanced) (c : Nat) (call : Call γ) : (s.goOn c call).Balanced := by
  obtain ⟨hbooks, hproper⟩ := h
  cases call with
  | idle => exact ⟨hbooks, hproper⟩
  | requesting owner key job => exact ⟨hbooks.aside rfl rfl rfl rfl rfl rfl, hproper⟩
  | entering owner key job =>
    simp only [Workshop.goOn]
    split
    · exact balanced_note (hbooks.aside rfl rfl rfl rfl rfl rfl) hproper trivial
    · exact ⟨hbooks, hproper⟩
  | queueing owner key job =>
    refine balanced_note (hbooks.accepts owner key job) hproper fun q hq => ?_
    obtain ⟨hqueued, hkey⟩ := List.mem_filter.mp hq
    exact ⟨of_decide_eq_true hkey, hbooks.number_lt (hbooks.accepted_of_queued hqueued)⟩
  | leaving key => exact ⟨hbooks, hproper⟩
  | polling owner => exact balanced_note (hbooks.polls owner) hproper trivial
  | aborting owner =>
    refine balanced_note (hbooks.drops c owner) hproper fun q hq => ?_
    exact of_decide_eq_true (List.mem_filter.mp hq).2
  | awaiting owner =>
    simp only [Workshop.goOn]
    split
    · exact ⟨hbooks, hproper⟩
    · exact ⟨hbooks, hproper⟩
  | discarding owner => exact balanced_note (hbooks.discards c owner) hproper trivial
  | invalidating key =>
    simp only [Workshop.goOn]
    split
    · exact ⟨hbooks, hproper⟩
    · exact balanced_note hbooks hproper trivial
  | outdating key =>
    simp only [Workshop.goOn]
    split
    · exact balanced_note (hbooks.aside (Worker.queue_invalidate _ _)
        (Worker.inFlight_invalidate _ _) (Worker.inboxes_invalidate _ _) rfl rfl rfl) hproper trivial
    · exact ⟨hbooks, hproper⟩
  | looking key =>
    simp only [Workshop.goOn]
    split
    · exact ⟨hbooks, hproper⟩
    · exact balanced_note hbooks hproper trivial
  | reading key =>
    simp only [Workshop.goOn]
    split
    · exact balanced_note hbooks hproper trivial
    · exact ⟨hbooks, hproper⟩

/-- A section of the worker's thread keeps the books. -/
theorem Balanced.workOn (h : s.Balanced) {stage : Stage γ ρ} (hstage : s.stage = stage) :
    (s.workOn stage).Balanced := by
  have hidle := h
  obtain ⟨hbooks, hproper⟩ := h
  rw [hstage] at hbooks
  cases stage with
  | free =>
    simp only [Workshop.workOn]
    split
    · exact hidle
    · next r rest hqueue => exact balanced_note (hbooks.takes hqueue) hproper trivial
  | taken r => exact balanced_note hbooks.starts hproper trivial
  | running r => exact hidle
  | ended r result =>
    cases result with
    | ok v =>
      simp only [Workshop.workOn]
      split
      · exact ⟨hbooks.aside rfl rfl rfl rfl rfl rfl, hproper⟩
      · exact hidle
    | error e => exact ⟨hbooks.aside rfl rfl rfl rfl rfl rfl, hproper⟩
  | storing r v => exact ⟨hbooks.aside rfl rfl rfl rfl rfl rfl, hproper⟩
  | checked r v requeued =>
    exact balanced_note (hbooks.aside rfl rfl rfl rfl rfl rfl) hproper trivial
  | stored r result => exact balanced_note hbooks.publishes hproper trivial
  | delivered r => exact balanced_note hbooks.releases hproper trivial

/-- The end of a job keeps the books. -/
theorem Balanced.finish (h : s.Balanced) (ending : Ending ρ) {stage : Stage γ ρ}
    (hstage : s.stage = stage) : (s.finish ending stage).Balanced := by
  cases stage with
  | running r =>
    obtain ⟨hbooks, hproper⟩ := h
    rw [hstage] at hbooks
    exact balanced_note (hbooks.aside rfl rfl rfl rfl rfl rfl) hproper trivial
  | _ => exact h

theorem balanced_act (s : Workshop γ ρ) (move : Move γ ρ) (h : s.Balanced) :
    (s.act move).Balanced := by
  cases move with
  | call c operation =>
    show (s.begin c operation (s.calls c)).Balanced
    cases s.calls c <;> exact h
  | goOn c => exact h.goOn c _
  | work => exact h.workOn rfl
  | finish ending => exact h.finish ending rfl

/-- The books are right after any run. -/
theorem balanced_run (moves : List (Move γ ρ)) : (run moves).Balanced :=
  run_induction ⟨Books.empty, fun _ he => absurd he List.not_mem_nil⟩ balanced_act moves

end Workshop

/-! ## Where a request is -/

/-- Where an accepted request can be. -/
inductive Place
  | queued
  | inFlight
  /-- In the inbox of its owner. -/
  | inbox
  | polled
  /-- Replaced while it was queued. -/
  | replaced
  /-- Removed by a call to abort. -/
  | aborted
  deriving DecidableEq, Repr

/-- Every place. -/
def Place.all : List Place := [queued, inFlight, inbox, polled, replaced, aborted]

theorem Place.mem_all (place : Place) : place ∈ all := by cases place <;> decide

namespace Workshop

variable {γ ρ : Type} {s : Workshop γ ρ}

/-- The requests that are at a place. -/
def requestsAt (s : Workshop γ ρ) : Place → List (Commission γ)
  | .queued => s.worker.queue
  | .inFlight => s.stage.inHand.toList
  | .inbox => s.ledger.waiting.map (·.request)
  | .polled => s.ledger.polled.map (·.request)
  | .replaced => s.ledger.replaced
  | .aborted => s.ledger.dropped ++ s.ledger.discarded.map (·.request)

/-- Every accepted request is accounted for. -/
structure Accounted (s : Workshop γ ρ) : Prop where
  /-- No two accepted requests are the same. -/
  numbers : s.ledger.accepted.map (·.job.number) = List.range s.issued
  /-- An accepted request is in exactly one place. -/
  placed : ∀ r ∈ s.ledger.accepted, ∃! place, r ∈ s.requestsAt place
  /-- It is there once. -/
  nodup : ∀ place, (s.requestsAt place).Nodup
  /-- Nothing is anywhere that was not accepted. -/
  accepted : ∀ place, ∀ r ∈ s.requestsAt place, r ∈ s.ledger.accepted
  /-- The worker is busy with the request in flight, and with none but the one that it has just
  delivered if none is in flight. -/
  slot : s.worker.inFlight = s.stage.busyWith
  /-- An inbox holds the completed requests of its owner, and no others. -/
  inbox : ∀ owner, s.worker.inbox owner = (s.ledger.waitingFor owner).map Completion.delivery
  /-- The calls to poll for an owner came back with the polled requests of that owner. -/
  received : ∀ owner, s.ledger.received owner =
    (s.ledger.polled.filter fun done => done.request.owner = owner).map Completion.delivery
  /-- A replaced request was in the queue when a later one for its key was accepted. -/
  replaced : ∀ q ∈ s.requestsAt .replaced, ∃ r replaced, .accepted r replaced ∈ s.history ∧
    q ∈ replaced ∧ q.key = r.key ∧ q.job.number < r.job.number
  /-- An aborted request was removed by a call to abort for its owner. -/
  aborted : ∀ q ∈ s.requestsAt .aborted,
    (∃ c removed, .dropped c q.owner removed ∈ s.history ∧ q ∈ removed) ∨
      ∃ c, .discarded c q.owner ∈ s.history
  /-- No job was started twice. -/
  once : s.ledger.started.Nodup
  /-- No two queued requests have the same key. -/
  keys : (s.worker.queue.map (·.key)).Nodup
  /-- What an owner received, and then what is in its inbox, is in the order in which the jobs were
  started. -/
  order : ∀ owner, ∃ done : List (Completion γ ρ),
    s.ledger.received owner ++ s.worker.inbox owner = done.map Completion.delivery ∧
      (done.map (·.request)).Sublist (s.ledger.started.filter fun r => r.owner = owner)

/-- All the places together hold what was accepted. -/
theorem Balanced.perm (h : s.Balanced) :
    s.ledger.accepted.Perm (Place.all.flatMap s.requestsAt) := by
  rw [← Multiset.coe_eq_coe, h.1.whole]
  simp only [Place.all, requestsAt, List.flatMap_cons, List.flatMap_nil, List.append_nil,
    ← Multiset.coe_add]
  abel

theorem Balanced.nodup_accepted (h : s.Balanced) : s.ledger.accepted.Nodup := by
  refine List.Nodup.of_map (fun r : Commission γ => r.job.number) ?_
  rw [h.1.numbers]
  exact List.nodup_range

/-- What is in one place is not in another. -/
theorem Balanced.nodup_flatMap (h : s.Balanced) : (Place.all.flatMap s.requestsAt).Nodup :=
  h.perm.nodup_iff.mp h.nodup_accepted

theorem Balanced.place_unique (h : s.Balanced) {r : Commission γ} {place other : Place}
    (hr : r ∈ s.requestsAt place) (hr' : r ∈ s.requestsAt other) : place = other := by
  by_contra hne
  have hdisjoint := (List.nodup_flatMap.mp h.nodup_flatMap).2
  have hsymm : Std.Symm (Function.onFun List.Disjoint s.requestsAt) := ⟨fun _ _ hd => hd.symm⟩
  exact hdisjoint.forall place.mem_all other.mem_all hne hr hr'

/-- What was started is in hand or was delivered, so it was accepted. -/
theorem Balanced.started_le (h : s.Balanced) :
    (s.ledger.started : Multiset (Commission γ)) ≤ s.ledger.accepted := by
  have hpublished : (s.ledger.published.map (·.request) : Multiset (Commission γ)) =
      s.ledger.waiting.map (·.request) + s.ledger.polled.map (·.request) +
        s.ledger.discarded.map (·.request) := by
    simp only [← Multiset.map_coe]
    rw [h.1.parcels, Multiset.map_add, Multiset.map_add]
  have hbegun : s.stage.begun.toList.Sublist s.stage.inHand.toList := by
    cases s.stage <;> simp [Stage.begun, Stage.inHand]
  have hhand : (s.stage.begun.toList : Multiset (Commission γ)) ≤ s.stage.inHand.toList :=
    Multiset.coe_le.mpr hbegun.subperm
  rw [h.1.begun, ← Multiset.coe_add, hpublished, h.1.whole]
  refine (add_le_add_right hhand _).trans ?_
  refine (Multiset.le_add_right _
    (↑s.worker.queue + ↑s.ledger.replaced + ↑s.ledger.dropped)).trans (le_of_eq ?_)
  abel

theorem Balanced.nodup_started (h : s.Balanced) : s.ledger.started.Nodup :=
  Multiset.coe_nodup.mp
    (Multiset.nodup_of_le h.started_le (Multiset.coe_nodup.mpr h.nodup_accepted))

/-- What an owner gets is in the order of publication, which is the order of the starts. -/
theorem Balanced.delivered_in_order (h : s.Balanced) (owner : String) :
    ∃ done : List (Completion γ ρ),
      s.ledger.received owner ++ s.worker.inbox owner = done.map Completion.delivery ∧
        (done.map (·.request)).Sublist (s.ledger.started.filter fun r => r.owner = owner) := by
  let mine := fun done : Completion γ ρ => decide (done.request.owner = owner)
  refine ⟨(s.ledger.polled ++ s.ledger.waiting).filter mine, ?_, ?_⟩
  · rw [h.1.received, h.1.inbox, List.filter_append, List.map_append]
    rfl
  · have hsub := ((h.1.order owner).filter mine).map (·.request)
    rw [List.filter_filter] at hsub
    simp only [mine, Bool.and_self] at hsub ⊢
    refine hsub.trans ?_
    rw [h.1.begun, List.filter_append, List.filter_map]
    exact List.sublist_append_left _ _

/-- Whatever the clients and the worker do, and in whatever order, no request is lost and none is
done twice. -/
theorem requests_accounted (moves : List (Move γ ρ)) : (run moves).Accounted := by
  have h : (run moves).Balanced := balanced_run moves
  exact {
    numbers := h.1.numbers
    placed := fun r hr => by
      obtain ⟨place, -, hplace⟩ := List.mem_flatMap.mp (h.perm.subset hr)
      exact ⟨place, hplace, fun other hother => h.place_unique hother hplace⟩
    nodup := fun place => (List.nodup_flatMap.mp h.nodup_flatMap).1 place place.mem_all
    accepted := fun place r hr =>
      h.perm.mem_iff.mpr (List.mem_flatMap.mpr ⟨place, place.mem_all, hr⟩)
    slot := h.1.slot
    inbox := h.1.inbox
    received := h.1.received
    replaced := fun q hq => by
      obtain ⟨r, replaced, hr, hmem⟩ := mem_replaced.mp hq
      exact ⟨r, replaced, hr, hmem, h.2 _ hr q hmem⟩
    aborted := fun q hq => by
      rcases List.mem_append.mp hq with hdropped | hdiscarded
      · obtain ⟨c, owner, removed, hmem, hq⟩ := mem_dropped.mp hdropped
        have howner : q.owner = owner := h.2 _ hmem q hq
        exact .inl ⟨c, removed, howner ▸ hmem, hq⟩
      · obtain ⟨done, hdone, rfl⟩ := List.mem_map.mp hdiscarded
        exact .inr (discarded_of_mem hdone)
    once := h.nodup_started
    keys := h.1.keys
    order := h.delivered_in_order }

end Workshop

end ReactiveScript
