import Mathlib.Data.List.Induction
import ReactiveScript.Proofs.Abort

/-
  A workshop whose threads sleep.

  A thread that has to wait sleeps until it is notified: the worker's thread while the queue is empty,
  a client that aborts while a request of its owner is in flight, and a client that waits until the
  worker is idle. A client that queued a request notifies the worker's thread, and the worker's thread
  notifies all clients when it is free again; both do so in a section of their own, after the one in
  which they changed what is waited for. Apart from that everybody moves as in a workshop
  (`exists_run`).

  Nobody notifies a client of a queue that is empty because its requests were dropped. So a client
  sleeps on in an idle workshop if, while it slept, the last requests were dropped before the worker
  took one of them, and in no other case (`sleepsPast_iff`).
-/

namespace ReactiveScript

/-- What a client is at, apart from its call. -/
inductive Posture
  /-- It goes on with its call, if there is one. -/
  | awake
  /-- It waits until the worker is idle, and has to look at the queue. -/
  | looking
  /-- It waits until the worker is idle, and sleeps. -/
  | waiting
  /-- It sleeps in a call to abort. -/
  | halted
  /-- It queued a request and is about to notify the worker's thread. -/
  | ringing
  deriving DecidableEq

/-- A client that is notified of a request that is done. -/
def Posture.notified : Posture → Posture
  | waiting => looking
  | halted => awake
  | posture => posture

/-- A workshop with the condition variables of its queue. -/
structure Monitor (γ ρ : Type) where
  shop : Workshop γ ρ
  postures : Nat → Posture
  /-- The worker's thread sleeps until a request is queued. -/
  asleep : Bool
  /-- The worker's thread is about to notify all clients that a request is done. -/
  announcing : Bool

/-- The worker's thread looks for a request and finds none. -/
def Workshop.rests {γ ρ : Type} (s : Workshop γ ρ) : Bool :=
  match s.stage with
  | .free => s.worker.queue.isEmpty
  | _ => false

/-- The worker's thread is to be free again next. -/
def Workshop.releases {γ ρ : Type} (s : Workshop γ ρ) : Bool :=
  match s.stage with
  | .delivered _ => true
  | _ => false

namespace Monitor

variable {γ ρ : Type}

/-- What can come next. -/
inductive Action (γ ρ : Type)
  /-- A client that is idle makes a call. -/
  | call (client : Nat) (operation : Operation γ)
  /-- A client that is idle begins to wait until the worker is idle. -/
  | waitIdle (client : Nat)
  /-- A client goes on. -/
  | goOn (client : Nat)
  /-- The worker's thread goes on. -/
  | work
  /-- The job that runs comes to its end. -/
  | finish (ending : Ending ρ)

/-- Before anything happened. -/
def start : Monitor γ ρ := ⟨.start, fun _ => .awake, false, false⟩

/-- A client comes to another posture. -/
def setPosture (m : Monitor γ ρ) (c : Nat) (posture : Posture) : Monitor γ ρ :=
  { m with postures := fun other => if other = c then posture else m.postures other }

/-- The posture of a client after a section of its call. -/
def after (m : Monitor γ ρ) : Call γ → Posture
  | .leaving _ => .ringing
  | .aborting owner | .awaiting owner =>
    if m.shop.worker.isBusyFor owner then .halted else .awake
  | _ => .awake

/-- A client begins to wait. -/
def beginWait (m : Monitor γ ρ) (c : Nat) : Posture → Call γ → Monitor γ ρ
  | .awake, .idle => m.setPosture c .looking
  | _, _ => m

/-- The next section of a client. -/
def goOn (m : Monitor γ ρ) (c : Nat) : Posture → Monitor γ ρ
  | .awake => { m with shop := m.shop.act (.goOn c) }.setPosture c (m.after (m.shop.calls c))
  | .looking => m.setPosture c (if m.shop.worker.isIdle then .awake else .waiting)
  | .waiting | .halted => m
  | .ringing => { m with asleep := false }.setPosture c .awake

/-- All clients are notified that a request is done. -/
def announce (m : Monitor γ ρ) : Monitor γ ρ :=
  { m with postures := fun c => (m.postures c).notified, announcing := false }

/-- The next section of the worker's thread. -/
def work (m : Monitor γ ρ) : Monitor γ ρ :=
  { m with shop := m.shop.act .work, asleep := m.shop.rests, announcing := m.shop.releases }

/-- What an action does. -/
def act (m : Monitor γ ρ) : Action γ ρ → Monitor γ ρ
  | .call c operation =>
    if m.postures c = .awake then { m with shop := m.shop.act (.call c operation) } else m
  | .waitIdle c => m.beginWait c (m.postures c) (m.shop.calls c)
  | .goOn c => m.goOn c (m.postures c)
  | .work => if m.announcing then m.announce else if m.asleep then m else m.work
  | .finish ending => { m with shop := m.shop.act (.finish ending) }

/-- What a list of actions leads to. -/
def run (actions : List (Action γ ρ)) : Monitor γ ρ := actions.foldl act start

theorem run_append (actions later : List (Action γ ρ)) :
    run (actions ++ later) = later.foldl act (run actions) := List.foldl_append

/-- What holds at the start and is kept by every action always holds. -/
theorem run_induction {P : Monitor γ ρ → Prop} (hstart : P start)
    (hact : ∀ m action, P m → P (act m action)) (actions : List (Action γ ρ)) : P (run actions) := by
  induction actions using List.reverseRecOn with
  | nil => exact hstart
  | append_singleton actions action ih =>
    rw [run_append]
    exact hact _ action ih

variable {m m' : Monitor γ ρ} {c : Nat} {action : Action γ ρ}

/-- What an action can do, and when it does it. -/
inductive Acted (m : Monitor γ ρ) : Action γ ρ → Monitor γ ρ → Prop
  | nothing (action : Action γ ρ) : Acted m action m
  | calls (c : Nat) (operation : Operation γ) (awake : m.postures c = .awake) :
    Acted m (.call c operation) { m with shop := m.shop.act (.call c operation) }
  | begins (c : Nat) (awake : m.postures c = .awake) (idle : m.shop.calls c = .idle) :
    Acted m (.waitIdle c) (m.setPosture c .looking)
  | goesOn (c : Nat) (awake : m.postures c = .awake) :
    Acted m (.goOn c)
      ({ m with shop := m.shop.act (.goOn c) }.setPosture c (m.after (m.shop.calls c)))
  | looks (c : Nat) (looking : m.postures c = .looking) :
    Acted m (.goOn c) (m.setPosture c (if m.shop.worker.isIdle then .awake else .waiting))
  | rings (c : Nat) (ringing : m.postures c = .ringing) :
    Acted m (.goOn c) ({ m with asleep := false }.setPosture c .awake)
  | announces (announcing : m.announcing = true) : Acted m .work m.announce
  | works (silent : m.announcing = false) (awake : m.asleep = false) : Acted m .work m.work
  | finishes (ending : Ending ρ) :
    Acted m (.finish ending) { m with shop := m.shop.act (.finish ending) }

theorem acted_act (m : Monitor γ ρ) (action : Action γ ρ) : Acted m action (m.act action) := by
  cases action with
  | call c operation =>
    unfold act
    by_cases hawake : m.postures c = .awake
    · simp only [if_pos hawake]
      exact .calls c operation hawake
    · simp only [if_neg hawake]
      exact .nothing _
  | waitIdle c =>
    unfold act beginWait
    dsimp only
    split
    · next hawake hidle => exact .begins c hawake hidle
    · exact .nothing _
  | goOn c =>
    unfold act
    dsimp only
    cases hposture : m.postures c with
    | awake => exact .goesOn c hposture
    | looking => exact .looks c hposture
    | waiting => exact .nothing _
    | halted => exact .nothing _
    | ringing => exact .rings c hposture
  | work =>
    unfold act
    cases hannouncing : m.announcing with
    | true => exact .announces hannouncing
    | false =>
      cases hasleep : m.asleep with
      | true => exact .nothing _
      | false => exact .works hannouncing hasleep
  | finish ending => exact .finishes ending

/-! ## The workshop behind it -/

/-- An action leaves the workshop as it is, or makes one move in it. -/
theorem Acted.shop (h : Acted m action m') :
    m'.shop = m.shop ∨ ∃ move, m'.shop = m.shop.act move := by
  cases h with
  | calls c operation => exact .inr ⟨.call c operation, rfl⟩
  | goesOn c => exact .inr ⟨.goOn c, rfl⟩
  | works => exact .inr ⟨.work, rfl⟩
  | finishes ending => exact .inr ⟨.finish ending, rfl⟩
  | _ => exact .inl rfl

theorem Acted.issued (h : Acted m action m') : m.shop.issued ≤ m'.shop.issued := by
  rcases h.shop with hsame | ⟨move, hmove⟩
  · rw [hsame]
  · rw [hmove]
    exact (Workshop.moved_act m.shop move).issued

theorem Acted.balanced (h : Acted m action m') (hb : m.shop.Balanced) : m'.shop.Balanced := by
  rcases h.shop with hsame | ⟨move, hmove⟩
  · rwa [hsame]
  · rw [hmove]
    exact Workshop.balanced_act _ move hb

/-- Whatever is done, the workshop comes to a state to which a list of moves leads it. -/
theorem exists_run (actions : List (Action γ ρ)) :
    ∃ moves, (run actions).shop = Workshop.run moves := by
  refine run_induction (P := fun m => ∃ moves, m.shop = Workshop.run moves) ⟨[], rfl⟩ ?_ actions
  rintro m action ⟨moves, hmoves⟩
  rcases (m.acted_act action).shop with hsame | ⟨move, hmove⟩
  · exact ⟨moves, hsame.trans hmoves⟩
  · refine ⟨moves ++ [move], ?_⟩
    rw [hmove, hmoves]
    unfold Workshop.run
    rw [List.foldl_append]
    rfl

theorem balanced_run (actions : List (Action γ ρ)) : (run actions).shop.Balanced := by
  obtain ⟨moves, hmoves⟩ := exists_run actions
  rw [hmoves]
  exact Workshop.balanced_run moves

end Monitor

/-! ## How a workshop becomes idle -/

theorem Worker.isIdle_iff {γ ρ : Type} {w : Worker γ ρ} :
    w.isIdle = true ↔ w.queue = [] ∧ w.inFlight = none := by
  unfold isIdle
  rw [Bool.and_eq_true, List.isEmpty_iff, Option.isNone_iff_eq_none]

namespace Workshop

variable {γ ρ : Type} {s t : Workshop γ ρ} {c : Nat}

/-- While no request is queued, an idle worker stays idle. -/
theorem Moved.idle (h : Moved s t) (hs : s.Balanced) (ht : t.Balanced)
    (hissued : t.issued = s.issued) (hidle : s.worker.isIdle = true) : t.worker.isIdle = true := by
  rw [Worker.isIdle_iff] at hidle ⊢
  obtain ⟨hqueue, hflight⟩ := hidle
  constructor
  · refine List.eq_nil_iff_forall_not_mem.2 fun r hr => ?_
    rcases h.queued r hr with hold | hnew
    · rw [hqueue] at hold
      exact List.not_mem_nil hold
    · have hnumber : r.job.number < t.issued := ht.1.number_lt (ht.1.accepted_of_queued hr)
      omega
  · rw [ht.1.slot]
    refine Option.eq_none_iff_forall_not_mem.2 fun r hr => ?_
    rcases h.busy r hr with hbusy | hold
    · rw [← hs.1.slot, hflight] at hbusy
      cases hbusy
    · rw [hqueue] at hold
      exact List.not_mem_nil hold

/-- What a move does to the queue and the request in flight: a request is queued, requests are dropped,
one is taken, one is done, or everything is left as it is. -/
inductive Slots (s t : Workshop γ ρ) : Move γ ρ → Prop
  | queues (c : Nat) (owner key : String) (job : γ) (call : s.calls c = .queueing owner key job)
    (queue : t.worker.queue ≠ []) (inFlight : t.worker.inFlight = s.worker.inFlight) :
    Slots s t (.goOn c)
  | drops (c : Nat) (owner : String) (call : s.calls c = .aborting owner)
    (queue : t.worker.queue = s.worker.queue.filter fun r => r.owner ≠ owner)
    (inFlight : t.worker.inFlight = s.worker.inFlight) (issued : t.issued = s.issued) :
    Slots s t (.goOn c)
  | takes (r : Commission γ) (stage : s.stage = .free) (inFlight : t.worker.inFlight = some r)
    (issued : t.issued = s.issued) : Slots s t .work
  | releases (releases : s.releases = true) (issued : t.issued = s.issued) : Slots s t .work
  | keeps (move : Move γ ρ) (queue : t.worker.queue = s.worker.queue)
    (inFlight : t.worker.inFlight = s.worker.inFlight) (issued : t.issued = s.issued) :
    Slots s t move

theorem slots_goOn (s : Workshop γ ρ) (c : Nat) : Slots s (s.goOn c (s.calls c)) (.goOn c) := by
  cases hcall : s.calls c with
  | queueing owner key job =>
    have hqueue : s.worker.queue.filter (fun q => q.key ≠ key) ++ [⟨owner, key, s.issued, job⟩] ≠ [] :=
      List.append_ne_nil_of_right_ne_nil _ (List.cons_ne_nil _ _)
    exact .queues c owner key job hcall hqueue rfl
  | aborting owner => exact .drops c owner hcall rfl rfl rfl
  | entering | awaiting | invalidating | looking | reading =>
    unfold goOn
    dsimp only
    split <;> exact .keeps _ rfl rfl rfl
  | outdating key =>
    unfold goOn
    dsimp only
    split
    · exact .keeps _ (s.worker.queue_invalidate key) (s.worker.inFlight_invalidate key) rfl
    · exact .keeps _ rfl rfl rfl
  | _ => exact .keeps _ rfl rfl rfl

theorem slots_workOn (s : Workshop γ ρ) : Slots s (s.workOn s.stage) .work := by
  cases hstage : s.stage with
  | free =>
    unfold workOn
    dsimp only
    split
    · exact .keeps _ rfl rfl rfl
    · next r rest hqueue =>
      have htaken : s.worker.pop.inFlight = some r := by
        unfold Worker.pop
        rw [hqueue]
      exact .takes r hstage htaken rfl
  | delivered r =>
    refine .releases ?_ rfl
    unfold releases
    rw [hstage]
  | ended r result =>
    cases result with
    | ok v =>
      unfold workOn
      dsimp only
      split <;> exact .keeps _ rfl rfl rfl
    | error e => exact .keeps _ rfl rfl rfl
  | _ => exact .keeps _ rfl rfl rfl

theorem slots_act (s : Workshop γ ρ) (move : Move γ ρ) : Slots s (s.act move) move := by
  cases move with
  | call c operation =>
    unfold act
    dsimp only
    cases s.calls c <;> exact .keeps _ rfl rfl rfl
  | goOn c => exact s.slots_goOn c
  | work => exact s.slots_workOn
  | finish ending =>
    unfold act
    dsimp only
    cases s.stage <;> exact .keeps _ rfl rfl rfl

/-- The worker becomes idle by being done with a request, or because a client drops all requests there
are; meanwhile no request is queued. -/
theorem Slots.idle {move : Move γ ρ} (h : Slots s t move) (hidle : t.worker.isIdle = true) :
    t.issued = s.issued ∧ (s.worker.isIdle = true ∨ move = .work ∧ s.releases = true ∨
      ∃ c owner, move = .goOn c ∧ s.calls c = .aborting owner ∧ s.worker.inFlight = none ∧
        ∀ r ∈ s.worker.queue, r.owner = owner) := by
  obtain ⟨hempty, huntaken⟩ := Worker.isIdle_iff.1 hidle
  cases h with
  | queues c owner key job hcall hqueue => exact absurd hempty hqueue
  | drops c owner hcall hqueue hflight hissued =>
    have howned : ∀ r ∈ s.worker.queue, r.owner = owner := by
      intro r hr
      have hdropped := List.filter_eq_nil_iff.1 (hqueue.symm.trans hempty) r hr
      simpa using hdropped
    exact ⟨hissued, .inr (.inr ⟨c, owner, rfl, hcall, hflight.symm.trans huntaken, howned⟩)⟩
  | takes r hstage hflight => cases hflight.symm.trans huntaken
  | releases hreleases hissued => exact ⟨hissued, .inr (.inl ⟨rfl, hreleases⟩)⟩
  | keeps move hqueue hflight hissued =>
    have hbefore := Worker.isIdle_iff.2 ⟨hqueue.symm.trans hempty, hflight.symm.trans huntaken⟩
    exact ⟨hissued, .inl hbefore⟩

end Workshop

namespace Monitor

variable {γ ρ : Type} {m m' : Monitor γ ρ} {c : Nat} {action : Action γ ρ}

/-! ## Clients that sleep in an idle workshop -/

/-- A client sleeps until the worker is idle, which it is, and nobody is about to say so. -/
structure SleepsPast (m : Monitor γ ρ) (c : Nat) : Prop where
  waiting : m.postures c = .waiting
  idle : m.shop.worker.isIdle = true
  silent : m.announcing = false

/-- Next, a client drops all requests there are: they are queued on behalf of one owner, and none was
taken. -/
structure Empties (m : Monitor γ ρ) (b : Nat) (owner : String) : Prop where
  awake : m.postures b = .awake
  call : m.shop.calls b = .aborting owner
  queued : m.shop.worker.queue ≠ []
  owned : ∀ r ∈ m.shop.worker.queue, r.owner = owner
  untaken : m.shop.worker.inFlight = none

theorem notified_ne_waiting (posture : Posture) : posture.notified ≠ .waiting := by
  cases posture <;> decide

theorem after_ne_waiting (m : Monitor γ ρ) (call : Call γ) : m.after call ≠ .waiting := by
  unfold after
  split
  · decide
  · split <;> decide
  · split <;> decide
  · decide

theorem of_setPosture_of_ne {b : Nat} {posture p : Posture} (hne : posture ≠ p)
    (h : (m.setPosture b posture).postures c = p) : m.postures c = p := by
  by_cases hbc : c = b
  · exact absurd ((if_pos hbc).symm.trans h) hne
  · exact (if_neg hbc).symm.trans h

theorem postures_setPosture {b : Nat} {p : Posture} (h : m.postures c = p) (hne : m.postures b ≠ p)
    (posture : Posture) : (m.setPosture b posture).postures c = p := by
  refine (if_neg ?_).trans h
  rintro rfl
  exact hne h

/-- A client comes to wait when it looks and finds the worker busy; when a request is done nobody is left
waiting. -/
theorem Acted.waiting_before (h : Acted m action m') (hwaiting : m'.postures c = .waiting) :
    m.postures c = .waiting ∧ (m.announcing = true → m'.announcing = true) ∨
      m.shop.worker.isIdle = false ∧ m'.shop = m.shop := by
  cases h with
  | nothing | calls | finishes => exact .inl ⟨hwaiting, id⟩
  | begins b => exact .inl ⟨of_setPosture_of_ne (by decide) hwaiting, id⟩
  | goesOn b => exact .inl ⟨of_setPosture_of_ne (after_ne_waiting _ _) hwaiting, id⟩
  | looks b =>
    cases hidle : m.shop.worker.isIdle with
    | true =>
      rw [hidle] at hwaiting
      exact .inl ⟨of_setPosture_of_ne (by decide) hwaiting, id⟩
    | false => exact .inr ⟨rfl, rfl⟩
  | rings b => exact .inl ⟨of_setPosture_of_ne (by decide) hwaiting, id⟩
  | announces => exact absurd hwaiting (notified_ne_waiting _)
  | works silent => exact .inl ⟨hwaiting, fun h => absurd h (Bool.eq_false_iff.1 silent)⟩

/-- A client that waits is woken only when a request is done. -/
theorem Acted.waiting_after (h : Acted m action m') (hwaiting : m.postures c = .waiting)
    (hsilent : m.announcing = false) : m'.postures c = .waiting := by
  cases h with
  | nothing | calls | finishes | works => exact hwaiting
  | begins b hawake | goesOn b hawake => exact postures_setPosture hwaiting (by rw [hawake]; decide) _
  | looks b hlooking => exact postures_setPosture hwaiting (by rw [hlooking]; decide) _
  | rings b hringing => exact postures_setPosture hwaiting (by rw [hringing]; decide) _
  | announces hannouncing => exact absurd hannouncing (Bool.eq_false_iff.1 hsilent)

/-- The worker's thread is about to notify all clients only after it was done with a request. -/
theorem Acted.silent (h : Acted m action m') (hsilent : m.announcing = false)
    (hbusy : m.shop.stage.busyWith = none) : m'.announcing = false := by
  cases h with
  | announces => rfl
  | works =>
    show m.shop.releases = false
    unfold Workshop.releases
    split
    · next r hstage =>
      rw [hstage] at hbusy
      cases hbusy
    · rfl
  | _ => exact hsilent

/-- The worker becomes idle by being done with a request, or because a client drops all requests there
are; meanwhile no request is queued. -/
theorem Acted.idle_before (h : Acted m action m') (hidle : m'.shop.worker.isIdle = true)
    (hsilent : m'.announcing = false) : m'.shop.issued = m.shop.issued ∧
      (m.shop.worker.isIdle = true ∨ ∃ b owner, action = .goOn b ∧ m.Empties b owner) := by
  cases h with
  | calls | finishes =>
    obtain ⟨hissued, hbefore | ⟨hwork, -⟩ | ⟨_, _, hgoOn, -⟩⟩ := (m.shop.slots_act _).idle hidle
    · exact ⟨hissued, .inl hbefore⟩
    · cases hwork
    · cases hgoOn
  | goesOn b hawake =>
    obtain ⟨hissued, hbefore | ⟨hwork, -⟩ | ⟨c, owner, hgoOn, hcall, huntaken, howned⟩⟩ :=
      (m.shop.slots_act _).idle hidle
    · exact ⟨hissued, .inl hbefore⟩
    · cases hwork
    · cases hgoOn
      by_cases hqueue : m.shop.worker.queue = []
      · exact ⟨hissued, .inl (Worker.isIdle_iff.2 ⟨hqueue, huntaken⟩)⟩
      · exact ⟨hissued, .inr ⟨b, owner, rfl, hawake, hcall, hqueue, howned, huntaken⟩⟩
  | works =>
    obtain ⟨hissued, hbefore | ⟨-, hreleases⟩ | ⟨_, _, hgoOn, -⟩⟩ := (m.shop.slots_act _).idle hidle
    · exact ⟨hissued, .inl hbefore⟩
    · exact absurd hreleases (Bool.eq_false_iff.1 hsilent)
    · cases hgoOn
  | _ => exact ⟨rfl, .inl hidle⟩

/-- A client comes to sleep in an idle workshop because another one drops all requests there are. -/
theorem Acted.begin_sleep (h : Acted m action m') (hsleeps : m'.SleepsPast c) :
    m'.shop.issued = m.shop.issued ∧ (m.SleepsPast c ∨ ∃ b owner, action = .goOn b ∧
      m.Empties b owner ∧ m.postures c = .waiting ∧ m.announcing = false) := by
  obtain ⟨hissued, hbefore⟩ := h.idle_before hsleeps.idle hsleeps.silent
  refine ⟨hissued, ?_⟩
  rcases h.waiting_before hsleeps.waiting with ⟨hwaiting, hannounces⟩ | ⟨hbusy, hshop⟩
  · have hsilent : m.announcing = false := by
      refine Bool.eq_false_iff.2 fun hannouncing => ?_
      exact Bool.eq_false_iff.1 hsleeps.silent (hannounces hannouncing)
    rcases hbefore with hidle | ⟨b, owner, haction, hempties⟩
    · exact .inl ⟨hwaiting, hidle, hsilent⟩
    · exact .inr ⟨b, owner, haction, hempties, hwaiting, hsilent⟩
  · have hidle := hsleeps.idle
    rw [hshop, hbusy] at hidle
    cases hidle

/-- While no request is queued, a client that sleeps in an idle workshop sleeps on. -/
theorem SleepsPast.acted (hsleeps : m.SleepsPast c) (hb : m.shop.Balanced) (h : Acted m action m')
    (hissued : m'.shop.issued = m.shop.issued) : m'.SleepsPast c := by
  have hbusy : m.shop.stage.busyWith = none := by
    rw [← hb.1.slot]
    exact (Worker.isIdle_iff.1 hsleeps.idle).2
  -- Nothing is in flight, so the worker's thread has nothing to be done with and tells nobody.
  refine ⟨h.waiting_after hsleeps.waiting hsleeps.silent, ?_, h.silent hsleeps.silent hbusy⟩
  rcases h.shop with hsame | ⟨move, hmove⟩
  · rw [hsame]
    exact hsleeps.idle
  · rw [hmove] at hissued ⊢
    exact (Workshop.moved_act m.shop move).idle hb (Workshop.balanced_act _ move hb) hissued
      hsleeps.idle

theorem issued_foldl (m : Monitor γ ρ) (actions : List (Action γ ρ)) :
    m.shop.issued ≤ (actions.foldl act m).shop.issued := by
  induction actions generalizing m with
  | nil => exact Nat.le_refl _
  | cons action rest ih => exact Nat.le_trans (m.acted_act action).issued (ih _)

theorem SleepsPast.foldl (h : m.SleepsPast c) (hb : m.shop.Balanced) {actions : List (Action γ ρ)}
    (hissued : (actions.foldl act m).shop.issued = m.shop.issued) :
    (actions.foldl act m).SleepsPast c := by
  induction actions generalizing m with
  | nil => exact h
  | cons action rest ih =>
    have hacted := m.acted_act action
    have hfirst := hacted.issued
    have hrest := (m.act action).issued_foldl rest
    rw [List.foldl_cons] at hissued ⊢
    exact ih (h.acted hb hacted (by omega)) (hacted.balanced hb) (by omega)

/-- A client that waits when all requests are dropped sleeps in an idle workshop. -/
theorem Empties.sleepsPast {b : Nat} {owner : String} (h : m.Empties b owner)
    (hwaiting : m.postures c = .waiting) (hsilent : m.announcing = false) :
    (m.act (.goOn b)).SleepsPast c ∧ (m.act (.goOn b)).shop.issued = m.shop.issued := by
  have hacted := m.acted_act (.goOn b)
  have hidle : m.shop.worker.isBusyFor owner = false := by
    unfold Worker.isBusyFor
    rw [h.untaken]
    rfl
  have hact : m.act (.goOn b) =
      { m with shop := m.shop.goOn b (.aborting owner) }.setPosture b .awake := by
    show m.goOn b (m.postures b) = _
    rw [h.awake]
    show Monitor.setPosture { m with shop := m.shop.goOn b (m.shop.calls b) } b
      (m.after (m.shop.calls b)) = _
    rw [h.call]
    unfold after
    dsimp only
    rw [hidle]
    rfl
  have hqueue : (m.shop.worker.dropQueued owner).2.queue = [] :=
    List.filter_eq_nil_iff.2 fun r hr => by simp [h.owned r hr]
  refine ⟨⟨hacted.waiting_after hwaiting hsilent, ?_, ?_⟩, ?_⟩
  · rw [hact]
    exact Worker.isIdle_iff.2 ⟨hqueue, h.untaken⟩
  · rw [hact]
    exact hsilent
  · rw [hact]
    rfl

/-- **A client sleeps in an idle workshop only if requests were dropped before they were taken.** It does
so just if, while it waited and no request was in flight or had just been done, a call to abort dropped
all requests there were, and none was queued since. -/
theorem sleepsPast_iff (actions : List (Action γ ρ)) (c : Nat) :
    (run actions).SleepsPast c ↔ ∃ earlier b owner later, actions = earlier ++ .goOn b :: later ∧
      (run earlier).Empties b owner ∧ (run earlier).postures c = .waiting ∧
      (run earlier).announcing = false ∧ (run actions).shop.issued = (run earlier).shop.issued := by
  constructor
  · intro h
    -- The last action put the client to sleep in an idle workshop, or left it there: then it queued
    -- nothing, or the workshop would not be idle.
    induction actions using List.reverseRecOn with
    | nil => cases h.waiting
    | append_singleton actions action ih =>
      have hacted := (run actions).acted_act action
      rw [run_append] at h ⊢
      obtain ⟨hissued, hbefore | ⟨b, owner, rfl, hempties, hwaiting, hsilent⟩⟩ :=
        hacted.begin_sleep h
      · obtain ⟨earlier, b, owner, later, hsplit, hempties, hwaiting, hsilent, hsame⟩ := ih hbefore
        refine ⟨earlier, b, owner, later ++ [action], ?_, hempties, hwaiting, hsilent, ?_⟩
        · rw [hsplit, List.append_assoc]
          rfl
        · exact hissued.trans hsame
      · exact ⟨actions, b, owner, [], rfl, hempties, hwaiting, hsilent, hissued⟩
  · rintro ⟨earlier, b, owner, later, rfl, hempties, hwaiting, hsilent, hissued⟩
    obtain ⟨hsleeps, hsame⟩ := hempties.sleepsPast hwaiting hsilent
    have hacted := (run earlier).acted_act (.goOn b)
    rw [run_append, List.foldl_cons] at hissued ⊢
    exact hsleeps.foldl (hacted.balanced (balanced_run earlier)) (hissued.trans hsame.symm)

/-- A job is requested, a client waits until it is done, and a third one is to drop it. -/
def waitedFor : List (Action Unit Nat) :=
  [.call 0 (.request "list" "n" ()), .goOn 0, .goOn 0, .goOn 0, .goOn 0, .goOn 0, .waitIdle 1,
    .goOn 1, .call 2 (.abort "list")]

/-- It is dropped, and only then the worker's thread looks at the queue. -/
def droppedUntaken : List (Action Unit Nat) := waitedFor ++ [.goOn 2, .goOn 2, .work]

theorem empties_waitedFor :
    (run waitedFor).Empties 2 "list" ∧ (run waitedFor).postures 1 = .waiting ∧
      (run waitedFor).announcing = false ∧ (run waitedFor).shop.issued = 1 := by
  refine ⟨⟨?_, ?_, ?_, ?_, ?_⟩, ?_, ?_, ?_⟩ <;>
  simp [run, waitedFor, start, act, goOn, setPosture, after, beginWait, Workshop.start, Workshop.act,
    Workshop.begin, Workshop.goOn, Workshop.setCall, Workshop.setHolder, Workshop.note,
    Operation.begin, Worker.empty, Worker.touch, Worker.mark, Worker.enqueue, Worker.entry,
    Worker.isIdle, Assoc.insert]

/-- Nobody has anything left to do, and nobody tells the client that waits. -/
theorem sleepsPast_droppedUntaken :
    (run droppedUntaken).SleepsPast 1 ∧ (run droppedUntaken).asleep = true ∧
      ∀ c, (run droppedUntaken).shop.calls c = .idle ∧
        (c = 1 ∨ (run droppedUntaken).postures c = .awake) := by
  have hend : ∀ c, (run droppedUntaken).shop.issued = 1 ∧ (run droppedUntaken).asleep = true ∧
      (run droppedUntaken).shop.calls c = .idle ∧
        (c = 1 ∨ (run droppedUntaken).postures c = .awake) := by
    intro c
    have hc : c = 0 ∨ c = 1 ∨ c = 2 ∨ c ≠ 0 ∧ c ≠ 1 ∧ c ≠ 2 := by omega
    rcases hc with rfl | rfl | rfl | hother
    all_goals simp [droppedUntaken, run, waitedFor, start, act, goOn, setPosture, after, beginWait,
      work, Workshop.start, Workshop.act, Workshop.begin, Workshop.goOn, Workshop.setCall,
      Workshop.setHolder, Workshop.note, Workshop.workOn, Workshop.rests, Operation.begin,
      Worker.empty, Worker.touch, Worker.mark, Worker.enqueue, Worker.entry, Worker.isIdle,
      Worker.isBusyFor, Worker.dropQueued, Worker.dropFinished, Worker.poll, Assoc.insert,
      Assoc.erase, *]
  obtain ⟨hempties, hwaiting, hsilent, hbefore⟩ := empties_waitedFor
  exact ⟨(sleepsPast_iff droppedUntaken 1).2 ⟨waitedFor, 2, "list", [.goOn 2, .work], rfl, hempties,
    hwaiting, hsilent, (hend 1).1.trans hbefore.symm⟩, (hend 1).2.1, fun c => (hend c).2.2⟩

end Monitor

end ReactiveScript
