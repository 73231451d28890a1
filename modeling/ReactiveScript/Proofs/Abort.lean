import ReactiveScript.Proofs.Conservation

/-
  What a call to abort leaves behind.

  A move puts into the queue only a request that was not accepted before, takes only queued requests
  in hand, and delivers only the request that is in hand (`Moved`). So a request that is neither
  queued nor in hand nor in an inbox is gone for good (`Gone.moved`). A call to abort brings every
  earlier request of its owner there, one section after the other (`Fading`): it empties the queue
  of them, waits until none is in hand, and empties the inbox. What it is not for, it leaves alone
  (`SparesOthers`).
-/

namespace ReactiveScript

/-- The call is one to abort for an owner. -/
def Call.Aborts {γ : Type} (owner : String) : Call γ → Prop
  | .aborting o => o = owner
  | .awaiting o => o = owner
  | .discarding o => o = owner
  | _ => False

/-- The event says nothing of what is started or completed. -/
def Event.Silent {γ ρ : Type} : Event γ ρ → Prop
  | .discarded _ _ | .polled _ _ | .started _ | .published _ _ => False
  | _ => True

namespace Workshop

variable {γ ρ : Type} {s t u : Workshop γ ρ} {r : Commission γ} {c : Nat} {owner : String}

/-! ## What a move can do -/

/-- How requests can get on from one state to another. -/
structure Moved (s t : Workshop γ ρ) : Prop where
  issued : s.issued ≤ t.issued
  /-- Only a new request is queued. -/
  queued : ∀ r ∈ t.worker.queue, r ∈ s.worker.queue ∨ s.issued ≤ r.job.number
  /-- Only a queued request is taken in hand. -/
  busy : ∀ r, t.stage.busyWith = some r → s.stage.busyWith = some r ∨ r ∈ s.worker.queue
  /-- Only the request in hand is delivered. -/
  waiting : ∀ done ∈ t.ledger.waiting,
    done ∈ s.ledger.waiting ∨ s.stage.busyWith = some done.request
  /-- Only the request in hand is started. -/
  started : ∃ since, t.ledger.started = s.ledger.started ++ since ∧
    ∀ r ∈ since, s.stage.busyWith = some r
  /-- Only what waits is polled. -/
  polled : ∃ since, t.ledger.polled = s.ledger.polled ++ since ∧
    ∀ done ∈ since, done ∈ s.ledger.waiting

/-- To a list that stayed the same nothing was added. -/
theorem nothing_since {α : Type} {P : α → Prop} {as bs : List α} (h : bs = as) :
    ∃ since, bs = as ++ since ∧ ∀ a ∈ since, P a :=
  ⟨[], by rw [h, List.append_nil], fun _ ha => absurd ha List.not_mem_nil⟩

theorem Moved.refl (s : Workshop γ ρ) : Moved s s where
  issued := Nat.le_refl _
  queued _ h := .inl h
  busy _ h := .inl h
  waiting _ h := .inl h
  started := nothing_since rfl
  polled := nothing_since rfl

/-- Requests can leave the queue. -/
theorem Moved.aside (hqueue : t.worker.queue ⊆ s.worker.queue) (hissued : t.issued = s.issued)
    (hbusy : t.stage.busyWith = s.stage.busyWith) (hhistory : t.history = s.history) :
    Moved s t := by
  have hledger : t.ledger = s.ledger := congrArg (List.foldl Ledger.after .empty) hhistory
  exact {
    issued := Nat.le_of_eq hissued.symm
    queued := fun _ h => .inl (hqueue h)
    busy := fun _ h => .inl (hbusy ▸ h)
    waiting := fun _ h => .inl (hledger ▸ h)
    started := nothing_since (congrArg Ledger.started hledger)
    polled := nothing_since (congrArg Ledger.polled hledger) }

/-- It can be noted what happened, if that says nothing of what is started or completed. -/
theorem Moved.note {e : Event γ ρ} (he : e.Silent) (h : Moved s t) : Moved s (t.note e) := by
  have hledger := ledger_note t e
  have hlists : (t.note e).ledger.waiting = t.ledger.waiting ∧
      (t.note e).ledger.started = t.ledger.started ∧
      (t.note e).ledger.polled = t.ledger.polled := by
    rw [hledger]
    cases e with
    | discarded | polled | started | published => exact he.elim
    | _ => exact ⟨rfl, rfl, rfl⟩
  obtain ⟨hwaiting, hstarted, hpolled⟩ := hlists
  exact { h with
    waiting := by rw [hwaiting]; exact h.waiting
    started := by rw [hstarted]; exact h.started
    polled := by rw [hpolled]; exact h.polled }

/-- A request is queued under a number of its own. -/
theorem moved_queueing (s : Workshop γ ρ) (c : Nat) (owner key : String) (job : γ) :
    Moved s (s.goOn c (.queueing owner key job)) := by
  refine Moved.note trivial ?_
  exact { Moved.refl s with
    issued := Nat.le_succ _
    queued := by
      intro r hr
      rcases List.mem_append.mp hr with hold | hnew
      · exact .inl (List.mem_filter.mp hold).1
      · rw [List.mem_singleton.mp hnew]
        exact .inr (Nat.le_refl _) }

/-- A call to poll takes what waits for its owner. -/
theorem moved_polling (s : Workshop γ ρ) (c : Nat) (owner : String) :
    Moved s (s.goOn c (.polling owner)) := by
  have hledger : (s.goOn c (.polling owner)).ledger =
    s.ledger.after (.polled owner (s.worker.poll owner).1) := ledger_note _ _
  exact { Moved.refl s with
    waiting := by
      rw [hledger]
      exact fun done h => .inl (List.mem_filter.mp h).1
    started := nothing_since (by rw [hledger]; rfl)
    polled := by
      rw [hledger]
      exact ⟨s.ledger.waitingFor owner, rfl, fun done h => (List.mem_filter.mp h).1⟩ }

/-- A call to abort discards what waits for its owner. -/
theorem moved_discarding (s : Workshop γ ρ) (c : Nat) (owner : String) :
    Moved s (s.goOn c (.discarding owner)) := by
  have hledger : (s.goOn c (.discarding owner)).ledger =
    s.ledger.after (.discarded c owner) := ledger_note _ _
  exact { Moved.refl s with
    waiting := by
      rw [hledger]
      exact fun done h => .inl (List.mem_filter.mp h).1
    started := nothing_since (by rw [hledger]; rfl)
    polled := nothing_since (by rw [hledger]; rfl) }

theorem moved_goOn (s : Workshop γ ρ) (c : Nat) (call : Call γ) : Moved s (s.goOn c call) := by
  have hself : s.worker.queue ⊆ s.worker.queue := List.Subset.refl _
  cases call with
  | idle => exact .refl s
  | requesting owner key job => exact .aside hself rfl rfl rfl
  | entering owner key job =>
    simp only [goOn]
    split
    · exact Moved.note trivial (.aside hself rfl rfl rfl)
    · exact .refl s
  | queueing owner key job => exact moved_queueing s c owner key job
  | leaving key => exact .aside hself rfl rfl rfl
  | polling owner => exact moved_polling s c owner
  | aborting owner =>
    exact Moved.note trivial (.aside List.filter_sublist.subset rfl rfl rfl)
  | awaiting owner =>
    simp only [goOn]
    split
    · exact .refl s
    · exact .aside hself rfl rfl rfl
  | discarding owner => exact moved_discarding s c owner
  | invalidating key =>
    simp only [goOn]
    split
    · exact .aside hself rfl rfl rfl
    · exact Moved.note trivial (.aside hself rfl rfl rfl)
  | outdating key =>
    have hqueue : (s.worker.invalidate key).queue ⊆ s.worker.queue := by
      rw [Worker.queue_invalidate]
      exact hself
    simp only [goOn]
    split
    · exact Moved.note trivial (.aside hqueue rfl rfl rfl)
    · exact .refl s
  | looking key =>
    simp only [goOn]
    split
    · exact .aside hself rfl rfl rfl
    · exact Moved.note trivial (.aside hself rfl rfl rfl)
  | reading key =>
    simp only [goOn]
    split
    · exact Moved.note trivial (.aside hself rfl rfl rfl)
    · exact .refl s

/-- The oldest request is taken in hand. -/
theorem moved_taking {rest : List (Commission γ)} (hqueue : s.worker.queue = r :: rest) :
    Moved s { s with worker := s.worker.pop, stage := .taken r } := by
  have hpop : s.worker.pop = { s.worker with queue := rest, inFlight := some r } := by
    unfold Worker.pop
    rw [hqueue]
  exact { Moved.refl s with
    queued := by
      intro q hq
      rw [hpop] at hq
      exact .inl (hqueue ▸ List.mem_cons_of_mem r hq)
    busy := by
      intro q hq
      obtain rfl : r = q := Option.some.inj hq
      exact .inr (hqueue ▸ List.mem_cons_self)
    waiting := fun _ h => .inl h
    started := nothing_since rfl
    polled := nothing_since rfl }

/-- The job of the request in hand is started. -/
theorem moved_starting (hstage : s.stage = .taken r) : Moved s (s.workOn (.taken r)) := by
  have hbusy : s.stage.busyWith = some r := by
    rw [hstage]
    rfl
  have hledger : (s.workOn (.taken r)).ledger = s.ledger.after (.started r) := ledger_note _ _
  exact { Moved.refl s with
    busy := fun q hq => .inl (hbusy.trans hq)
    waiting := by
      rw [hledger]
      exact (Moved.refl s).waiting
    started := by
      rw [hledger]
      refine ⟨[r], rfl, fun q hq => ?_⟩
      rw [List.mem_singleton.mp hq]
      exact hbusy
    polled := nothing_since (by rw [hledger]; rfl) }

/-- The result of the request in hand is delivered. -/
theorem moved_delivering {result : JobResult ρ} (hstage : s.stage = .stored r result) :
    Moved s (s.workOn (.stored r result)) := by
  have hbusy : s.stage.busyWith = some r := by
    rw [hstage]
    rfl
  have hledger : (s.workOn (.stored r result)).ledger = s.ledger.after (.published r result) :=
    ledger_note _ _
  exact { Moved.refl s with
    busy := fun q hq => .inl (hbusy.trans hq)
    waiting := by
      intro done hdone
      rw [hledger] at hdone
      rcases List.mem_append.mp hdone with hold | hnew
      · exact .inl hold
      · rw [List.mem_singleton.mp hnew]
        exact .inr hbusy
    started := nothing_since (by rw [hledger]; rfl)
    polled := nothing_since (by rw [hledger]; rfl) }

theorem moved_workOn {stage : Stage γ ρ} (hstage : s.stage = stage) :
    Moved s (s.workOn stage) := by
  have hself : s.worker.queue ⊆ s.worker.queue := List.Subset.refl _
  have hbusy : stage.busyWith = s.stage.busyWith := congrArg Stage.busyWith hstage.symm
  cases stage with
  | free =>
    simp only [workOn]
    split
    · exact .refl s
    · next r rest hqueue => exact Moved.note trivial (moved_taking hqueue)
  | taken r => exact moved_starting hstage
  | running r => exact .refl s
  | ended r result =>
    cases result with
    | ok v =>
      simp only [workOn]
      split
      · exact .aside hself rfl hbusy rfl
      · exact .refl s
    | error e => exact .aside hself rfl hbusy rfl
  | storing r v => exact .aside hself rfl hbusy rfl
  | checked r v requeued => exact Moved.note trivial (.aside hself rfl hbusy rfl)
  | stored r result => exact moved_delivering hstage
  | delivered r =>
    refine Moved.note trivial ?_
    exact { Moved.refl s with
      busy := by
        intro q hq
        cases hq }

theorem moved_act (s : Workshop γ ρ) (move : Move γ ρ) : Moved s (s.act move) := by
  have hself : s.worker.queue ⊆ s.worker.queue := List.Subset.refl _
  cases move with
  | call c operation =>
    show Moved s (s.begin c operation (s.calls c))
    cases s.calls c with
    | idle => exact .aside hself rfl rfl rfl
    | _ => exact .refl s
  | goOn c => exact moved_goOn s c _
  | work => exact moved_workOn rfl
  | finish ending =>
    show Moved s (s.finish ending s.stage)
    cases hstage : s.stage with
    | running r =>
      refine Moved.note trivial (.aside hself rfl ?_ rfl)
      rw [hstage]
      rfl
    | _ => exact .refl s

/-! ## Requests that are gone -/

/-- Nothing is left to do for a request that was accepted. -/
structure Gone (s : Workshop γ ρ) (r : Commission γ) : Prop where
  accepted : r.job.number < s.issued
  queued : r ∉ s.worker.queue
  busy : s.stage.busyWith ≠ some r
  waiting : ∀ done ∈ s.ledger.waiting, done.request ≠ r

/-- An accepted request does not come back into the queue. -/
theorem Moved.not_queued (h : Moved s t) (haccepted : r.job.number < s.issued)
    (hr : r ∉ s.worker.queue) : r ∉ t.worker.queue := fun hmem =>
  (h.queued r hmem).elim hr fun hnew => absurd haccepted (Nat.not_lt_of_le hnew)

/-- What is not queued is not taken in hand. -/
theorem Moved.not_busy (h : Moved s t) (hr : r ∉ s.worker.queue)
    (hbusy : s.stage.busyWith ≠ some r) : t.stage.busyWith ≠ some r := fun heq =>
  (h.busy r heq).elim hbusy hr

theorem Gone.moved (h : s.Gone r) (hmove : Moved s t) : t.Gone r where
  accepted := Nat.lt_of_lt_of_le h.accepted hmove.issued
  queued := hmove.not_queued h.accepted h.queued
  busy := hmove.not_busy h.queued h.busy
  waiting := by
    rintro done hdone rfl
    exact (hmove.waiting done hdone).elim (fun hold => h.waiting done hold rfl) h.busy

/-- From one state to another nothing was started or polled of requests that are gone. -/
structure Undisturbed (E : Commission γ → Prop) (s t : Workshop γ ρ) : Prop where
  gone : ∀ r, E r → t.Gone r
  started : ∃ since, t.ledger.started = s.ledger.started ++ since ∧ ∀ r ∈ since, ¬ E r
  polled : ∃ since, t.ledger.polled = s.ledger.polled ++ since ∧ ∀ done ∈ since, ¬ E done.request

theorem Undisturbed.moved {E : Commission γ → Prop} (h : Undisturbed E s t) (hmove : Moved t u) :
    Undisturbed E s u := by
  obtain ⟨started, hstarted, hold⟩ := h.started
  obtain ⟨started', hstarted', hnew⟩ := hmove.started
  obtain ⟨polled, hpolled, hold'⟩ := h.polled
  obtain ⟨polled', hpolled', hnew'⟩ := hmove.polled
  refine ⟨fun r hr => (h.gone r hr).moved hmove, ⟨started ++ started', ?_, fun r hr hE => ?_⟩,
    ⟨polled ++ polled', ?_, fun done hdone hE => ?_⟩⟩
  · rw [hstarted', hstarted, List.append_assoc]
  · exact (List.mem_append.mp hr).elim (fun hr => hold r hr hE)
      fun hr => (h.gone r hE).busy (hnew r hr)
  · rw [hpolled', hpolled, List.append_assoc]
  · exact (List.mem_append.mp hdone).elim (fun hdone => hold' done hdone hE)
      fun hdone => (h.gone _ hE).waiting done (hnew' done hdone) rfl

theorem undisturbed_foldl {E : Commission γ → Prop} (hgone : ∀ r, E r → s.Gone r)
    (moves : List (Move γ ρ)) : Undisturbed E s (moves.foldl act s) := by
  have hrun : ∀ t, Undisturbed E s t → Undisturbed E s (moves.foldl act t) := by
    induction moves with
    | nil => exact fun _ h => h
    | cons move rest ih => exact fun t h => ih _ (h.moved (moved_act t move))
  exact hrun s ⟨hgone, nothing_since rfl, nothing_since rfl⟩

/-! ## A call to abort -/

theorem calls_goOn_of_ne (s : Workshop γ ρ) {other : Nat} (h : c ≠ other) (call : Call γ) :
    (s.goOn other call).calls c = s.calls c := by
  cases call with
  | idle => rfl
  | requesting | queueing | leaving | polling | aborting | discarding => exact if_neg h
  | entering | outdating | reading =>
    simp only [goOn]
    split
    · exact if_neg h
    · rfl
  | awaiting =>
    simp only [goOn]
    split
    · rfl
    · exact if_neg h
  | invalidating | looking =>
    simp only [goOn]
    split
    · exact if_neg h
    · exact if_neg h

theorem calls_workOn (s : Workshop γ ρ) (stage : Stage γ ρ) : (s.workOn stage).calls = s.calls := by
  cases stage with
  | free =>
    simp only [workOn]
    split <;> rfl
  | ended r result =>
    cases result with
    | ok v =>
      simp only [workOn]
      split <;> rfl
    | error e => rfl
  | _ => rfl

/-- A call that is under way is gone on with by its client alone. -/
theorem calls_act_of_ne (s : Workshop γ ρ) {move : Move γ ρ} (hmove : move ≠ .goOn c)
    (hcall : s.calls c ≠ .idle) : (s.act move).calls c = s.calls c := by
  cases move with
  | call other operation =>
    show (s.begin other operation (s.calls other)).calls c = s.calls c
    cases hother : s.calls other with
    | idle =>
      refine if_neg ?_
      rintro rfl
      exact hcall hother
    | _ => rfl
  | goOn other =>
    refine calls_goOn_of_ne s ?_ _
    rintro rfl
    exact hmove rfl
  | work => exact congrFun (calls_workOn s s.stage) c
  | finish ending =>
    show (s.finish ending s.stage).calls c = s.calls c
    cases s.stage <;> rfl

/-- How far a call to abort has come for an earlier request of its owner. -/
inductive Fading (s : Workshop γ ρ) (c : Nat) (r : Commission γ) : Prop
  | called (hcall : s.calls c = .aborting r.owner)
  | waiting (hcall : s.calls c = .awaiting r.owner) (hqueued : r ∉ s.worker.queue)
  | discarding (hcall : s.calls c = .discarding r.owner) (hqueued : r ∉ s.worker.queue)
    (hbusy : s.stage.busyWith ≠ some r)
  | gone (h : s.Gone r)

/-- A worker that is not busy for an owner has no request of its own in hand. -/
theorem Balanced.not_busy (h : s.Balanced) (hbusy : s.worker.isBusyFor r.owner = false) :
    s.stage.busyWith ≠ some r := by
  intro heq
  have hflight : s.worker.inFlight = some r := h.1.slot.trans heq
  unfold Worker.isBusyFor at hbusy
  rw [hflight] at hbusy
  exact of_decide_eq_false hbusy rfl

/-- The owner's client goes on with its call to abort. -/
theorem Fading.goOn (h : s.Fading c r) (haccepted : r.job.number < s.issued) (hb : s.Balanced) :
    (s.goOn c (s.calls c)).Fading c r := by
  have hmove : Moved s (s.goOn c (s.calls c)) := moved_goOn s c _
  cases h with
  | called hcall =>
    rw [hcall]
    have hqueued : r ∉ (s.worker.dropQueued r.owner).2.queue := fun hr =>
      of_decide_eq_true (List.mem_filter.mp hr).2 rfl
    cases hbusy : s.worker.isBusyFor r.owner with
    | true =>
      refine .waiting ?_ hqueued
      show (if c = c then if s.worker.isBusyFor r.owner then Call.awaiting r.owner
        else Call.discarding r.owner else s.calls c) = _
      rw [if_pos rfl, hbusy]
      rfl
    | false =>
      refine .discarding ?_ hqueued (hb.not_busy hbusy)
      show (if c = c then if s.worker.isBusyFor r.owner then Call.awaiting r.owner
        else Call.discarding r.owner else s.calls c) = _
      rw [if_pos rfl, hbusy]
      rfl
  | waiting hcall hqueued =>
    rw [hcall]
    simp only [Workshop.goOn]
    cases hbusy : s.worker.isBusyFor r.owner with
    | true => exact .waiting hcall hqueued
    | false => exact .discarding (if_pos rfl) hqueued (hb.not_busy hbusy)
  | discarding hcall hqueued hbusy =>
    refine .gone ⟨Nat.lt_of_lt_of_le haccepted hmove.issued, hmove.not_queued haccepted hqueued,
      hmove.not_busy hqueued hbusy, ?_⟩
    rw [hcall]
    rintro done hdone rfl
    rw [show (s.goOn c (.discarding done.request.owner)).ledger = _ from ledger_note _ _] at hdone
    exact of_decide_eq_true (List.mem_filter.mp hdone).2 rfl
  | gone h => exact .gone (h.moved hmove)

/-- Whatever comes next, the call to abort is no further from its end. -/
theorem Fading.act (h : s.Fading c r) (haccepted : r.job.number < s.issued) (hb : s.Balanced)
    (move : Move γ ρ) : (s.act move).Fading c r := by
  have hmoved := moved_act s move
  by_cases hmove : move = .goOn c
  · subst hmove
    exact h.goOn haccepted hb
  · cases h with
    | called hcall =>
      exact .called ((calls_act_of_ne s hmove (by simp [hcall])).trans hcall)
    | waiting hcall hqueued =>
      exact .waiting ((calls_act_of_ne s hmove (by simp [hcall])).trans hcall)
        (hmoved.not_queued haccepted hqueued)
    | discarding hcall hqueued hbusy =>
      exact .discarding ((calls_act_of_ne s hmove (by simp [hcall])).trans hcall)
        (hmoved.not_queued haccepted hqueued) (hmoved.not_busy hqueued hbusy)
    | gone h => exact .gone (h.moved hmoved)

theorem Fading.foldl (h : s.Fading c r) (haccepted : r.job.number < s.issued) (hb : s.Balanced)
    (moves : List (Move γ ρ)) : (moves.foldl Workshop.act s).Fading c r := by
  induction moves generalizing s with
  | nil => exact h
  | cons move rest ih =>
    exact ih (h.act haccepted hb move) (Nat.lt_of_lt_of_le haccepted (moved_act s move).issued)
      (balanced_act s move hb)

/-- When its client is idle again, the request is gone. -/
theorem Fading.gone_of_idle (h : s.Fading c r) (hidle : s.calls c = .idle) : s.Gone r := by
  cases h with
  | called hcall => exact nomatch hidle.symm.trans hcall
  | waiting hcall _ => exact nomatch hidle.symm.trans hcall
  | discarding hcall _ _ => exact nomatch hidle.symm.trans hcall
  | gone h => exact h

/-! ## What an abort does not touch -/

/-- What concerns other owners is the same: which of their requests are queued, and in which order,
which request is in hand, and what waits for them. -/
structure SparesOthers (owner : String) (s t : Workshop γ ρ) : Prop where
  queue : (t.worker.queue.filter fun r => r.owner ≠ owner) =
    s.worker.queue.filter fun r => r.owner ≠ owner
  stage : t.stage = s.stage
  inFlight : t.worker.inFlight = s.worker.inFlight
  inboxes : ∀ other, owner ≠ other → t.worker.inbox other = s.worker.inbox other

theorem sparesOthers_goOn {call : Call γ} (hcall : call.Aborts owner) (s : Workshop γ ρ) (c : Nat) :
    SparesOthers owner s (s.goOn c call) := by
  cases call with
  | aborting o =>
    obtain rfl : o = owner := hcall
    refine ⟨?_, rfl, rfl, fun _ _ => rfl⟩
    show (List.filter _ (List.filter _ s.worker.queue)) = _
    rw [List.filter_filter]
    simp only [Bool.and_self]
  | awaiting o =>
    simp only [goOn]
    split
    · exact ⟨rfl, rfl, rfl, fun _ _ => rfl⟩
    · exact ⟨rfl, rfl, rfl, fun _ _ => rfl⟩
  | discarding o =>
    obtain rfl : o = owner := hcall
    refine ⟨rfl, rfl, rfl, fun other hother => ?_⟩
    exact (Worker.inbox_poll s.worker o other).trans (if_neg hother)
  | _ => exact hcall.elim

/-! ## Nothing comes of what was aborted -/

/-- The request is one of the owner's that was accepted before. -/
def Earlier (called : Workshop γ ρ) (owner : String) (r : Commission γ) : Prop :=
  r ∈ called.ledger.accepted ∧ r.owner = owner

/-- What is left, once a call to abort has come back, of the requests of its owner that were
accepted before the call was made. -/
structure Final (owner : String) (called returned s : Workshop γ ρ) : Prop where
  /-- None is queued, and none is with the worker. -/
  absent : ∀ r, called.Earlier owner r → r ∉ s.worker.queue ∧ s.stage.busyWith ≠ some r
  /-- None was started since. -/
  started : ∃ since, s.ledger.started = returned.ledger.started ++ since ∧
    ∀ r ∈ since, ¬ called.Earlier owner r
  /-- What the calls to poll gave the owner since are results of other requests. -/
  received : ∃ since : List (Completion γ ρ),
    s.ledger.received owner = returned.ledger.received owner ++ since.map Completion.delivery ∧
      ∀ done ∈ since, done ∈ s.ledger.published ∧ done.request.owner = owner ∧
        ¬ called.Earlier owner done.request

theorem Undisturbed.final {called : Workshop γ ρ} (h : Undisturbed (called.Earlier owner) s t)
    (hs : s.Balanced) (ht : t.Balanced) : Final owner called s t := by
  let mine := fun done : Completion γ ρ => decide (done.request.owner = owner)
  obtain ⟨polled, hpolled, hnone⟩ := h.polled
  refine ⟨fun r hr => ⟨(h.gone r hr).queued, (h.gone r hr).busy⟩, h.started,
    polled.filter mine, ?_, fun done hdone => ⟨?_, ?_, ?_⟩⟩
  · rw [ht.1.received, hs.1.received, hpolled, List.filter_append, List.map_append]
  · refine (ht.1.order owner).subset (List.mem_filter.mpr ⟨?_, (List.mem_filter.mp hdone).2⟩)
    rw [hpolled]
    exact List.mem_append_left _ (List.mem_append_right _ (List.mem_filter.mp hdone).1)
  · exact of_decide_eq_true (List.mem_filter.mp hdone).2
  · exact hnone done (List.mem_filter.mp hdone).1

/-- Once a call to abort has come back, nothing comes any more of the requests of its owner that
were accepted before the call was made, whatever clients and worker do at the same time and
afterwards. And no section of such a call touches what concerns other owners. -/
theorem abort_final (before during after : List (Move γ ρ)) (c : Nat) (owner : String)
    (hcalled : (run before).calls c = .idle)
    (hreturned : (run (before ++ .call c (.abort owner) :: during)).calls c = .idle) :
    Final owner (run before) (run (before ++ .call c (.abort owner) :: during))
        (run (before ++ .call c (.abort owner) :: during ++ after)) ∧
      ∀ s : Workshop γ ρ, (s.calls c).Aborts owner → SparesOthers owner s (s.act (.goOn c)) := by
  refine ⟨?_, fun s hs => sparesOthers_goOn hs s c⟩
  have hb : ∀ moves : List (Move γ ρ), (run moves).Balanced := balanced_run
  have hgone : ∀ r, (run before).Earlier owner r →
      (run (before ++ .call c (.abort owner) :: during)).Gone r := by
    rintro r ⟨haccepted, rfl⟩
    have hnumber : r.job.number < ((run before).act (.call c (.abort r.owner))).issued :=
      Nat.lt_of_lt_of_le ((hb before).1.number_lt haccepted) (moved_act _ _).issued
    have hcall : ((run before).act (.call c (.abort r.owner))).calls c = .aborting r.owner := by
      show ((run before).begin c (.abort r.owner) ((run before).calls c)).calls c = _
      rw [hcalled]
      exact if_pos rfl
    have hfading := Fading.foldl (.called hcall) hnumber (balanced_act _ _ (hb before)) during
    refine Fading.gone_of_idle (c := c) ?_ hreturned
    unfold run
    rw [List.foldl_append]
    exact hfading
  have hlater := undisturbed_foldl hgone after
  have hrun : run (before ++ .call c (.abort owner) :: during ++ after) =
      after.foldl act (run (before ++ .call c (.abort owner) :: during)) := List.foldl_append
  rw [hrun]
  exact hlater.final (hb _) (hrun ▸ hb _)

/-- A job of the owner runs. -/
def jobRunning : List (Move Unit Nat) :=
  [.call 0 (.request "list" "n" ()), .goOn 0, .goOn 0, .goOn 0, .goOn 0, .work, .work]

/-- While another client aborts, the owner makes another request and the job comes to its end. -/
def requestMeanwhile : List (Move Unit Nat) :=
  [.goOn 1, .call 0 (.request "list" "m" ()), .goOn 0, .goOn 0, .goOn 0, .goOn 0, .goOn 1,
    .finish (.returned (.ok 1)), .work, .work, .work, .work, .work, .goOn 1, .goOn 1]

/-- The job of the other request is done, and the owner asks for results. -/
def pollAfterwards : List (Move Unit Nat) :=
  [.work, .work, .finish (.returned (.ok 2)), .work, .work, .work, .work, .work,
    .call 0 (.poll "list"), .goOn 0]

theorem idle_requestMeanwhile :
    (run (jobRunning ++ .call 1 (.abort "list") :: requestMeanwhile)).calls 1 = .idle := by
  simp [run, jobRunning, requestMeanwhile, start, act, begin, Operation.begin, goOn, workOn, finish,
    Ending.result, setCall, setHolder, note, Worker.empty, Worker.touch, Worker.mark,
    Worker.enqueue, Worker.pop, Worker.isQueued, Worker.entry, Worker.dropQueued,
    Worker.isBusyFor, Worker.publish, Worker.release, Worker.write, Assoc.insert]

/-- The owner gets the result of the other request alone. -/
theorem received_pollAfterwards :
    (run (jobRunning ++ .call 1 (.abort "list") :: requestMeanwhile ++
      pollAfterwards)).ledger.received "list" = [⟨"m", .ok 2⟩] := by
  simp [run, jobRunning, requestMeanwhile, pollAfterwards, start, act, begin, Operation.begin, goOn,
    workOn, finish, Ending.result, setCall, setHolder, note, Worker.empty, Worker.touch,
    Worker.mark, Worker.enqueue, Worker.pop, Worker.isQueued, Worker.entry, Worker.dropQueued,
    Worker.dropFinished, Worker.isBusyFor, Worker.publish, Worker.release, Worker.write, Worker.poll,
    Assoc.insert, Assoc.find?, Assoc.erase, ledger, Ledger.empty, Ledger.after, Ledger.waitingFor,
    Ledger.waitingElse]

theorem abort_final_meanwhile :
    let called := run jobRunning
    let returned := run (jobRunning ++ .call 1 (.abort "list") :: requestMeanwhile)
    let s := run (jobRunning ++ .call 1 (.abort "list") :: requestMeanwhile ++ pollAfterwards)
    called.calls 1 = .idle ∧ returned.calls 1 = .idle ∧ Final "list" called returned s ∧
      s.ledger.received "list" = [⟨"m", .ok 2⟩] := by
  have hcalled : (run jobRunning).calls 1 = .idle := rfl
  exact ⟨hcalled, idle_requestMeanwhile,
    (abort_final _ _ pollAfterwards 1 "list" hcalled idle_requestMeanwhile).1,
    received_pollAfterwards⟩

end Workshop

end ReactiveScript
