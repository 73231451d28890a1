import Mathlib.Data.List.Induction
import ReactiveScript.Proofs.Interleaving

/-
  When a cached result can be trusted.

  Entries change under their locks only (`Guarded`), and an entry is what the marks, invalidations
  and stores of its key made of it, in their order (`Recorded`). Neither a request that waits nor one
  whose result is not stored yet has a current entry (`Outdated`); a client that queues a request
  and a worker that asks the queue whether to call an entry current exclude each other, since each
  holds the entry meanwhile. From these it follows when an entry is current.
-/

namespace ReactiveScript

namespace Cached

variable {ρ : Type}

theorem status_invalidate_ne (e : Cached ρ) : e.invalidate.status ≠ .current := by
  unfold invalidate
  split
  · simp
  · assumption

theorem status_invalidate_eq_notMade (e : Cached ρ) :
    e.invalidate.status = .notMade ↔ e.status = .notMade := by
  unfold invalidate
  split
  · next h => simp [h]
  · rfl

/-- What an event makes of the entry of a key. -/
def after {γ : Type} (key : String) (e : Cached ρ) : Event γ ρ → Cached ρ
  | .marked other | .invalidated other => if other = key then e.invalidate else e
  | .written r v requeued =>
    if r.key = key then ⟨if requeued then .stale else .current, some v⟩ else e
  | _ => e

end Cached

/-- Whether an event can have changed the entry of a key. -/
def Event.Concerns {γ ρ : Type} (key : String) : Event γ ρ → Prop
  | .marked other | .invalidated other => other = key
  | .written r _ _ => r.key = key
  | _ => False

/-! ## What a history makes of an entry -/

section History

variable {γ ρ : Type} {key : String}

/-- An event stores a value, or it outdates the entry, or it does nothing to it. -/
theorem Cached.after_cases (key : String) (e : Cached ρ) (event : Event γ ρ) :
    (∃ r v requeued, event = .written r v requeued ∧ r.key = key ∧
      e.after key event = ⟨if requeued then .stale else .current, some v⟩) ∨
    (event.Concerns key ∧ (∀ r v requeued, event ≠ .written r v requeued) ∧
      e.after key event = e.invalidate) ∨
    (¬ event.Concerns key ∧ e.after key event = e) := by
  cases event with
  | written r v requeued =>
    by_cases h : r.key = key
    · exact .inl ⟨r, v, requeued, rfl, h, if_pos h⟩
    · exact .inr (.inr ⟨h, if_neg h⟩)
  | marked other | invalidated other =>
    by_cases h : other = key
    · exact .inr (.inl ⟨h, by simp, if_pos h⟩)
    · exact .inr (.inr ⟨h, if_neg h⟩)
  | _ => exact .inr (.inr ⟨id, rfl⟩)

theorem Cached.after_of_not_concerns {e : Cached ρ} {event : Event γ ρ}
    (h : ¬ event.Concerns key) : e.after key event = e := by
  rcases e.after_cases key event with ⟨r, v, requeued, rfl, hkey, -⟩ | ⟨hconcerns, -⟩ | ⟨-, hafter⟩
  · exact absurd hkey h
  · exact absurd hconcerns h
  · exact hafter

/-- The entry that a history leaves under a key. -/
def leaves (key : String) (history : List (Event γ ρ)) : Cached ρ :=
  history.foldl (Cached.after key) .notMade

theorem leaves_append (history : List (Event γ ρ)) (event : Event γ ρ) :
    leaves key (history ++ [event]) = (leaves key history).after key event := by
  unfold leaves
  rw [List.foldl_append]
  rfl

/-- Nothing was ever stored in an entry that is not made, and in no other. -/
theorem leaves_notMade_iff (history : List (Event γ ρ)) :
    (leaves key history).status = .notMade ↔
      ∀ r v requeued, .written r v requeued ∈ history → r.key ≠ key := by
  induction history using List.reverseRecOn with
  | nil => simp [leaves, Cached.notMade]
  | append_singleton history event ih =>
    rw [leaves_append]
    rcases (leaves key history).after_cases key event with
      ⟨r, v, requeued, rfl, hkey, hafter⟩ | ⟨-, hwritten, hafter⟩ | ⟨hconcerns, hafter⟩
    · rw [hafter]
      constructor
      · cases requeued <;> simp
      · exact fun h => absurd hkey (h r v requeued (by simp))
    · rw [hafter, Cached.status_invalidate_eq_notMade, ih]
      simp [Ne.symm (hwritten _ _ _)]
    · rw [hafter, ih]
      constructor
      · intro h r v requeued hmem hkey
        rcases List.mem_append.mp hmem with hold | hnew
        · exact h r v requeued hold hkey
        · rw [← List.mem_singleton.mp hnew] at hconcerns
          exact hconcerns hkey
      · exact fun h r v requeued hmem => h r v requeued (List.mem_append_left _ hmem)

/-- An entry is current if a value was stored in it and nothing has concerned it since. -/
theorem leaves_current_iff (history : List (Event γ ρ)) :
    (leaves key history).status = .current ↔
      ∃ earlier r v later, history = earlier ++ .written r v false :: later ∧ r.key = key ∧
        (leaves key history).value = some v ∧ ∀ event ∈ later, ¬ event.Concerns key := by
  induction history using List.reverseRecOn with
  | nil => simp [leaves, Cached.notMade]
  | append_singleton history event ih =>
    rw [leaves_append]
    constructor
    · intro hcurrent
      rcases (leaves key history).after_cases key event with
        ⟨r, v, requeued, rfl, hkey, hafter⟩ | ⟨-, -, hafter⟩ | ⟨hconcerns, hafter⟩
      · rw [hafter] at hcurrent ⊢
        cases requeued with
        | true => simp at hcurrent
        | false => exact ⟨history, r, v, [], rfl, hkey, rfl, by simp⟩
      · rw [hafter] at hcurrent
        exact absurd hcurrent (Cached.status_invalidate_ne _)
      · rw [hafter] at hcurrent ⊢
        obtain ⟨earlier, r, v, later, rfl, hkey, hvalue, hlater⟩ := ih.mp hcurrent
        refine ⟨earlier, r, v, later ++ [event], by simp, hkey, hvalue, fun e he => ?_⟩
        rcases List.mem_append.mp he with hold | hnew
        · exact hlater e hold
        · rwa [List.mem_singleton.mp hnew]
    · rintro ⟨earlier, r, v, later, hhistory, hkey, hvalue, hlater⟩
      rcases List.eq_nil_or_concat later with rfl | ⟨later, last, rfl⟩
      · obtain ⟨-, hevent⟩ := List.append_inj' hhistory rfl
        rw [List.singleton_inj.mp hevent]
        simp [Cached.after, hkey]
      · have hsplit : history ++ [event] = (earlier ++ .written r v false :: later) ++ [last] := by
          rw [hhistory]
          simp
        obtain ⟨hinit, hevent⟩ := List.append_inj' hsplit rfl
        obtain rfl := List.singleton_inj.mp hevent
        rw [Cached.after_of_not_concerns (hlater event (by simp))] at hvalue ⊢
        exact ih.mpr ⟨earlier, r, v, later, hinit, hkey, hvalue, fun e he => hlater e (by simp [he])⟩

end History

namespace Workshop

variable {γ ρ : Type} {s : Workshop γ ρ}

/-! ## Who holds an entry -/

/-- The entry that a party has come to hold. -/
def heldBy? (s : Workshop γ ρ) : Party → Option String
  | .worker => s.stage.held?
  | .client c => (s.calls c).held?

/-- An entry is held by the party that has come to a point of its work where it holds it. -/
def Guarded (s : Workshop γ ρ) : Prop :=
  ∀ key party, s.holder key = some party ↔ s.heldBy? party = some key

section Moved

variable {t : Workshop γ ρ} {c : Nat} {call : Call γ} {stage : Stage γ ρ} {held : Option String}

theorem heldBy?_client (hcalls : t.calls = fun other => if other = c then call else s.calls other)
    (hstage : t.stage = s.stage) (hheld : call.held? = held) (party : Party) :
    t.heldBy? party = if party = .client c then held else s.heldBy? party := by
  subst hheld
  cases party with
  | worker =>
    show t.stage.held? = _
    rw [hstage]
    rfl
  | client other =>
    show (t.calls other).held? = _
    rw [hcalls]
    by_cases h : other = c
    · simp [h]
    · simp [h, heldBy?]

theorem heldBy?_worker (hcalls : t.calls = s.calls) (hstage : t.stage = stage)
    (hheld : stage.held? = held) (party : Party) :
    t.heldBy? party = if party = .worker then held else s.heldBy? party := by
  subst hheld
  cases party with
  | worker => rw [if_pos rfl, ← hstage]; rfl
  | client other =>
    show (t.calls other).held? = _
    rw [hcalls]
    rfl

end Moved

namespace Guarded

variable {t : Workshop γ ρ} {key : String} {party : Party}

/-- A party comes to another point of its work, where it holds what it held. -/
theorem keep {held : Option String} (h : s.Guarded) (hsame : held = s.heldBy? party)
    (hholder : t.holder = s.holder)
    (hheld : ∀ other, t.heldBy? other = if other = party then held else s.heldBy? other) :
    t.Guarded := by
  intro key other
  rw [hholder, h key other, hheld, hsame]
  by_cases ho : other = party
  · rw [if_pos ho, ho]
  · rw [if_neg ho]

/-- A party takes hold of a free entry. -/
theorem grab (h : s.Guarded) (hfree : s.holder key = none) (hnone : none = s.heldBy? party)
    (hholder : t.holder = fun other => if other = key then some party else s.holder other)
    (hheld : ∀ other, t.heldBy? other = if other = party then some key else s.heldBy? other) :
    t.Guarded := by
  intro key' other
  rw [hholder, hheld]
  have hp : s.holder key' ≠ some party := by simp [h key' party, ← hnone]
  have hk : s.heldBy? other ≠ some key := by simp [← h key other, hfree]
  by_cases h1 : key' = key <;> by_cases h2 : other = party
  · simp [h1, h2]
  · simp [h1, h2, hk, Ne.symm h2]
  · simp [h1, h2, hp, Ne.symm h1]
  · simp [h1, h2, h key' other]

/-- A party lets go of what it holds. -/
theorem release (h : s.Guarded) (hholds : some key = s.heldBy? party)
    (hholder : t.holder = fun other => if other = key then none else s.holder other)
    (hheld : ∀ other, t.heldBy? other = if other = party then none else s.heldBy? other) :
    t.Guarded := by
  intro key' other
  rw [hholder, hheld]
  have hmine := (h key party).mpr hholds.symm
  by_cases h1 : key' = key <;> by_cases h2 : other = party
  · simp [h1, h2]
  · have hk : s.heldBy? other ≠ some key := by
      simp [← h key other, hmine, Ne.symm h2]
    simp [h1, h2, hk]
  · have hp : s.holder key' ≠ some party := by
      simp [h key' party, ← hholds, Ne.symm h1]
    simp [h1, h2, hp]
  · simp [h1, h2, h key' other]

/-- A section of a client keeps the entries guarded. -/
theorem goOn (h : s.Guarded) {c : Nat} {call : Call γ} (hcall : s.calls c = call) :
    (s.goOn c call).Guarded := by
  have hheld : call.held? = s.heldBy? (.client c) := by rw [← hcall]; rfl
  cases call with
  | idle => exact h
  | requesting owner key job => exact h.keep hheld rfl (heldBy?_client rfl rfl rfl)
  | entering owner key job =>
    simp only [Workshop.goOn]
    split
    · next hfree => exact h.grab hfree hheld rfl (heldBy?_client rfl rfl rfl)
    · exact h
  | queueing owner key job => exact h.keep hheld rfl (heldBy?_client rfl rfl rfl)
  | leaving key => exact h.release hheld rfl (heldBy?_client rfl rfl rfl)
  | polling owner => exact h.keep hheld rfl (heldBy?_client rfl rfl rfl)
  | aborting owner =>
    have hnext : (if s.worker.isBusyFor owner then Call.awaiting owner
        else Call.discarding owner : Call γ).held? = none := by
      split <;> rfl
    exact h.keep hheld rfl (heldBy?_client rfl rfl hnext)
  | awaiting owner =>
    simp only [Workshop.goOn]
    split
    · exact h
    · exact h.keep hheld rfl (heldBy?_client rfl rfl rfl)
  | discarding owner => exact h.keep hheld rfl (heldBy?_client rfl rfl rfl)
  | invalidating key =>
    simp only [Workshop.goOn]
    split
    · exact h.keep hheld rfl (heldBy?_client rfl rfl rfl)
    · exact h.keep hheld rfl (heldBy?_client rfl rfl rfl)
  | outdating key =>
    simp only [Workshop.goOn]
    split
    · exact h.keep hheld rfl (heldBy?_client rfl rfl rfl)
    · exact h
  | looking key =>
    simp only [Workshop.goOn]
    split
    · exact h.keep hheld rfl (heldBy?_client rfl rfl rfl)
    · exact h.keep hheld rfl (heldBy?_client rfl rfl rfl)
  | reading key =>
    simp only [Workshop.goOn]
    split
    · exact h.keep hheld rfl (heldBy?_client rfl rfl rfl)
    · exact h

/-- A section of the worker's thread keeps the entries guarded. -/
theorem workOn (h : s.Guarded) {stage : Stage γ ρ} (hstage : s.stage = stage) :
    (s.workOn stage).Guarded := by
  have hheld : stage.held? = s.heldBy? .worker := by rw [← hstage]; rfl
  cases stage with
  | free =>
    simp only [Workshop.workOn]
    split
    · exact h
    · exact h.keep hheld rfl (heldBy?_worker rfl rfl rfl)
  | taken r => exact h.keep hheld rfl (heldBy?_worker rfl rfl rfl)
  | running r => exact h
  | ended r result =>
    cases result with
    | ok v =>
      simp only [Workshop.workOn]
      split
      · next hfree => exact h.grab hfree hheld rfl (heldBy?_worker rfl rfl rfl)
      · exact h
    | error e => exact h.keep hheld rfl (heldBy?_worker rfl rfl rfl)
  | storing r v => exact h.keep hheld rfl (heldBy?_worker rfl rfl rfl)
  | checked r v requeued => exact h.release hheld rfl (heldBy?_worker rfl rfl rfl)
  | stored r result => exact h.keep hheld rfl (heldBy?_worker rfl rfl rfl)
  | delivered r => exact h.keep hheld rfl (heldBy?_worker rfl rfl rfl)

/-- A client and the worker do not hold the same entry. -/
theorem exclusive (h : s.Guarded) {c : Nat} (hclient : (s.calls c).held? = some key)
    (hworker : s.stage.held? = some key) : False := by
  have hc := (h key (.client c)).mpr hclient
  have hw := (h key .worker).mpr hworker
  rw [hc] at hw
  cases hw

end Guarded

theorem guarded_act (s : Workshop γ ρ) (move : Move γ ρ) (h : s.Guarded) : (s.act move).Guarded := by
  cases move with
  | call c operation =>
    show (s.begin c operation (s.calls c)).Guarded
    cases hcall : s.calls c with
    | idle =>
      have hheld : none = s.heldBy? (.client c) := by
        show none = (s.calls c).held?
        rw [hcall]
        rfl
      have hnext : operation.begin.held? = none := by cases operation <;> rfl
      exact h.keep hheld rfl (heldBy?_client rfl rfl hnext)
    | _ => exact h
  | goOn c => exact h.goOn rfl
  | work => exact h.workOn rfl
  | finish ending =>
    show (s.finish ending s.stage).Guarded
    cases hstage : s.stage with
    | running r =>
      have hheld : none = s.heldBy? .worker := by
        show none = s.stage.held?
        rw [hstage]
        rfl
      exact h.keep hheld rfl (heldBy?_worker rfl rfl rfl)
    | _ => exact h

theorem guarded_start : (start : Workshop γ ρ).Guarded := by
  intro key party
  cases party <;> simp [start, heldBy?, Stage.held?, Call.held?]

/-! ## What an entry was made by -/

/-- An entry is what the events of its key made of it. -/
def Recorded (s : Workshop γ ρ) : Prop :=
  ∀ key, s.worker.entry key = leaves key s.history

namespace Recorded

variable {t : Workshop γ ρ}

theorem same (h : s.Recorded) (hhistory : t.history = s.history)
    (hentry : ∀ key, t.worker.entry key = s.worker.entry key) : t.Recorded := by
  intro key
  rw [hentry, hhistory]
  exact h key

theorem more {e : Event γ ρ} (h : s.Recorded) (hhistory : t.history = s.history ++ [e])
    (hentry : ∀ key, t.worker.entry key = (s.worker.entry key).after key e) : t.Recorded := by
  intro key
  rw [hentry, hhistory, leaves_append, h key]

theorem goOn (h : s.Recorded) (c : Nat) (call : Call γ) : (s.goOn c call).Recorded := by
  cases call with
  | idle => exact h
  | requesting owner key job => exact h.same rfl (s.worker.entry_touch key)
  | entering owner key job =>
    simp only [Workshop.goOn]
    split
    · exact h.more rfl (s.worker.entry_mark key)
    · exact h
  | queueing owner key job => exact h.more rfl fun _ => rfl
  | leaving key => exact h
  | polling owner => exact h.more rfl fun _ => rfl
  | aborting owner => exact h.more rfl fun _ => rfl
  | awaiting owner =>
    simp only [Workshop.goOn]
    split
    · exact h
    · exact h
  | discarding owner => exact h.more rfl fun _ => rfl
  | invalidating key =>
    simp only [Workshop.goOn]
    split
    · exact h
    · next hnone =>
      refine h.more rfl fun other => ?_
      show s.worker.entry other = if key = other then (s.worker.entry other).invalidate else _
      by_cases hkey : key = other
      · have hentry : s.worker.entry other = .notMade := by
          rw [Option.not_isSome_iff_eq_none] at hnone
          unfold Worker.entry
          rw [← hkey, show Assoc.find? key s.worker.cache = none from hnone]
          rfl
        rw [if_pos hkey, hentry]
        rfl
      · rw [if_neg hkey]
  | outdating key =>
    simp only [Workshop.goOn]
    split
    · exact h.more rfl (s.worker.entry_invalidate key)
    · exact h
  | looking key =>
    simp only [Workshop.goOn]
    split
    · exact h
    · exact h.more rfl fun _ => rfl
  | reading key =>
    simp only [Workshop.goOn]
    split
    · exact h.more rfl fun _ => rfl
    · exact h

theorem workOn (h : s.Recorded) (stage : Stage γ ρ) : (s.workOn stage).Recorded := by
  cases stage with
  | free =>
    simp only [Workshop.workOn]
    split
    · exact h
    · next hqueue =>
      refine h.more rfl fun key => ?_
      show s.worker.pop.entry key = s.worker.entry key
      unfold Worker.pop
      rw [hqueue]
      rfl
  | taken r => exact h.more rfl fun _ => rfl
  | running r => exact h
  | ended r result =>
    cases result with
    | ok v =>
      simp only [Workshop.workOn]
      split
      · exact h.same rfl (s.worker.entry_touch r.key)
      · exact h
    | error e => exact h
  | storing r v => exact h
  | checked r v requeued => exact h.more rfl (s.worker.entry_write r.key v requeued)
  | stored r result => exact h.more rfl fun _ => rfl
  | delivered r => exact h.more rfl fun _ => rfl

end Recorded

theorem recorded_act (s : Workshop γ ρ) (move : Move γ ρ) (h : s.Recorded) :
    (s.act move).Recorded := by
  cases move with
  | call c operation =>
    show (s.begin c operation (s.calls c)).Recorded
    cases s.calls c <;> exact h
  | goOn c => exact h.goOn c _
  | work => exact h.workOn _
  | finish ending =>
    show (s.finish ending s.stage).Recorded
    cases s.stage with
    | running r => exact h.more rfl fun _ => rfl
    | _ => exact h

theorem recorded_run (moves : List (Move γ ρ)) : (run moves).Recorded :=
  run_induction (fun _ => rfl) recorded_act moves

/-! ## Entries for which a result is wanted -/

/-- A request for a key waits, or is being queued, or its result is still to be stored. -/
def Wanted (s : Workshop γ ρ) (key : String) : Prop :=
  s.worker.isQueued key = true ∨ (∃ r, s.stage.unstored = some r ∧ r.key = key) ∨
    ∃ c owner job, s.calls c = .queueing owner key job

/-- No entry is current for which a result is wanted. -/
structure Outdated (s : Workshop γ ρ) : Prop where
  wanted : ∀ key, s.Wanted key → (s.worker.entry key).status ≠ .current
  /-- What the worker found out about the queue stays so while it holds the entry. -/
  checked : ∀ r v, s.stage = .checked r v false → s.worker.isQueued r.key = false

theorem status_of_ite_invalidate {p : Prop} [Decidable p] {e : Cached ρ}
    (h : (if p then e.invalidate else e).status = .current) : e.status = .current := by
  split at h
  · exact absurd h e.status_invalidate_ne
  · exact h

theorem current_of_mark {w : Worker (Numbered γ) ρ} {key other : String}
    (h : ((w.mark key).entry other).status = .current) : (w.entry other).status = .current := by
  rw [Worker.entry_mark] at h
  exact status_of_ite_invalidate h

theorem current_of_invalidate {w : Worker (Numbered γ) ρ} {key other : String}
    (h : ((w.invalidate key).entry other).status = .current) :
    (w.entry other).status = .current := by
  rw [Worker.entry_invalidate] at h
  exact status_of_ite_invalidate h

theorem current_of_touch {w : Worker (Numbered γ) ρ} {key other : String}
    (h : ((w.touch key).entry other).status = .current) : (w.entry other).status = .current := by
  rwa [Worker.entry_touch] at h

theorem isQueued_of_subset {w w' : Worker (Numbered γ) ρ}
    (h : w'.queue ⊆ w.queue) (key : String) (hqueued : w'.isQueued key = true) :
    w.isQueued key = true := by
  obtain ⟨r, hr, hkey⟩ := List.any_eq_true.mp hqueued
  exact List.any_eq_true.mpr ⟨r, h hr, hkey⟩

namespace Outdated

variable {t : Workshop γ ρ}

/-- A client goes on with anything but a request that it is to queue. -/
theorem client {c : Nat} {call : Call γ} (h : s.Outdated) (hstage : t.stage = s.stage)
    (hcalls : t.calls = fun other => if other = c then call else s.calls other)
    (hcall : ∀ owner key job, call ≠ .queueing owner key job)
    (hqueue : t.worker.queue ⊆ s.worker.queue)
    (hentry : ∀ key, (t.worker.entry key).status = .current →
      (s.worker.entry key).status = .current) : t.Outdated where
  wanted := by
    intro key hwanted hcurrent
    refine h.wanted key ?_ (hentry key hcurrent)
    rcases hwanted with hqueued | ⟨r, hr, hkey⟩ | ⟨other, owner, job, hother⟩
    · exact .inl (isQueued_of_subset hqueue key hqueued)
    · exact .inr (.inl ⟨r, hstage ▸ hr, hkey⟩)
    · rw [hcalls] at hother
      dsimp only at hother
      split at hother
      · exact absurd hother (hcall owner key job)
      · exact .inr (.inr ⟨other, owner, job, hother⟩)
  checked := by
    intro r v hchecked
    have hnone := h.checked r v (hstage ▸ hchecked)
    rw [Bool.eq_false_iff] at hnone ⊢
    exact fun hqueued => hnone (isQueued_of_subset hqueue _ hqueued)

/-- The worker goes on without asking the queue. -/
theorem worker (h : s.Outdated) (stage : Stage γ ρ) (hcalls : t.calls = s.calls)
    (hstage : t.stage = stage) (hqueue : t.worker.queue ⊆ s.worker.queue)
    (hunstored : ∀ r, stage.unstored = some r → s.Wanted r.key)
    (hchecked : ∀ r v, stage ≠ .checked r v false)
    (hentry : ∀ key, (t.worker.entry key).status = .current →
      (s.worker.entry key).status = .current) : t.Outdated where
  wanted := by
    intro key hwanted hcurrent
    refine h.wanted key ?_ (hentry key hcurrent)
    rcases hwanted with hqueued | ⟨r, hr, rfl⟩ | ⟨c, owner, job, hcall⟩
    · exact .inl (isQueued_of_subset hqueue key hqueued)
    · exact hunstored r (hstage ▸ hr)
    · exact .inr (.inr ⟨c, owner, job, hcalls ▸ hcall⟩)
  checked := fun r v hr => absurd (hstage ▸ hr) (hchecked r v)

/-- A client that holds an entry and is to queue a request has marked the entry. -/
theorem enters {c : Nat} {owner key : String} {job : γ} (h : s.Outdated) :
    (s.goOn c (.entering owner key job)).Outdated := by
  simp only [Workshop.goOn]
  split
  · refine ⟨fun other hwanted hcurrent => ?_, h.checked⟩
    rcases hwanted with hqueued | hunstored | ⟨client, owner', job', hclient⟩
    · exact h.wanted other (.inl hqueued) (current_of_mark hcurrent)
    · exact h.wanted other (.inr (.inl hunstored)) (current_of_mark hcurrent)
    · change (if client = c then Call.queueing owner key job else s.calls client) = _ at hclient
      split at hclient
      · obtain ⟨-, rfl, -⟩ := Call.queueing.inj hclient
        change ((s.worker.mark key).entry key).status = _ at hcurrent
        rw [Worker.entry_mark, if_pos rfl] at hcurrent
        exact Cached.status_invalidate_ne _ hcurrent
      · exact h.wanted other (.inr (.inr ⟨client, owner', job', hclient⟩)) (current_of_mark hcurrent)
  · exact h

/-- The entry of a request that is being queued is held, so the worker is not about to call it
current. -/
theorem queues {c : Nat} {owner key : String} {job : γ} (h : s.Outdated) (hguarded : s.Guarded)
    (hcall : s.calls c = .queueing owner key job) :
    (s.goOn c (.queueing owner key job)).Outdated := by
  have hqueued : ∀ other, (s.worker.enqueue ⟨owner, key, s.issued, job⟩).isQueued other = true →
      other = key ∨ s.worker.isQueued other = true := by
    intro other hother
    obtain ⟨r, hr, hkey⟩ := List.any_eq_true.mp hother
    rcases List.mem_append.mp hr with hold | hnew
    · exact .inr (List.any_eq_true.mpr ⟨r, (List.mem_filter.mp hold).1, hkey⟩)
    · rw [List.mem_singleton.mp hnew] at hkey
      exact .inl (of_decide_eq_true hkey).symm
  refine ⟨fun other hwanted => h.wanted other ?_, fun r v hchecked => ?_⟩
  · rcases hwanted with hother | hunstored | ⟨client, owner', job', hclient⟩
    · rcases hqueued other hother with rfl | hold
      · exact .inr (.inr ⟨c, owner, job, hcall⟩)
      · exact .inl hold
    · exact .inr (.inl hunstored)
    · change (if client = c then Call.leaving key else s.calls client) = _ at hclient
      split at hclient
      · exact absurd hclient (by simp)
      · exact .inr (.inr ⟨client, owner', job', hclient⟩)
  · rw [Bool.eq_false_iff]
    intro hother
    rcases hqueued r.key hother with hkey | hold
    · exact hguarded.exclusive (c := c) (by rw [hcall]; rfl)
        (by rw [show s.stage = _ from hchecked, ← hkey]; rfl)
    · exact absurd hold (Bool.eq_false_iff.mp (h.checked r v hchecked))

theorem goOn (h : s.Outdated) (hguarded : s.Guarded) {c : Nat} {call : Call γ}
    (hcall : s.calls c = call) : (s.goOn c call).Outdated := by
  have hself : s.worker.queue ⊆ s.worker.queue := List.Subset.refl _
  cases call with
  | idle => exact h
  | requesting owner key job =>
    exact h.client rfl rfl (by simp) hself fun _ => current_of_touch
  | entering owner key job => exact h.enters
  | queueing owner key job => exact h.queues hguarded hcall
  | leaving key => exact h.client rfl rfl (by simp) hself fun _ => id
  | polling owner => exact h.client rfl rfl (by simp) hself fun _ => id
  | aborting owner =>
    have hnext : ∀ o k j, (if s.worker.isBusyFor owner then Call.awaiting owner
        else Call.discarding owner : Call γ) ≠ .queueing o k j := by
      intro o k j
      split <;> simp
    exact h.client rfl rfl hnext List.filter_sublist.subset fun _ => id
  | awaiting owner =>
    simp only [Workshop.goOn]
    split
    · exact h
    · exact h.client rfl rfl (by simp) hself fun _ => id
  | discarding owner => exact h.client rfl rfl (by simp) hself fun _ => id
  | invalidating key =>
    simp only [Workshop.goOn]
    split
    · exact h.client rfl rfl (by simp) hself fun _ => id
    · exact h.client rfl rfl (by simp) hself fun _ => id
  | outdating key =>
    simp only [Workshop.goOn]
    split
    · have hqueue : (s.worker.invalidate key).queue ⊆ s.worker.queue := by
        rw [Worker.queue_invalidate]
        exact hself
      exact h.client rfl rfl (by simp) hqueue fun _ => current_of_invalidate
    · exact h
  | looking key =>
    simp only [Workshop.goOn]
    split
    · exact h.client rfl rfl (by simp) hself fun _ => id
    · exact h.client rfl rfl (by simp) hself fun _ => id
  | reading key =>
    simp only [Workshop.goOn]
    split
    · exact h.client rfl rfl (by simp) hself fun _ => id
    · exact h

/-- The worker calls an entry current while it holds it, after it found nobody waiting for it. -/
theorem stores {r : Commission γ} {v : ρ} {requeued : Bool} (h : s.Outdated) (hguarded : s.Guarded)
    (hstage : s.stage = .checked r v requeued) :
    (s.workOn (.checked r v requeued)).Outdated := by
  have hstored : ∀ r' v', (s.workOn (.checked r v requeued)).stage ≠ .checked r' v' false := by
    simp [Workshop.workOn, note, setHolder]
  refine ⟨fun key hwanted hcurrent => ?_, fun r' v' hr => absurd hr (hstored r' v')⟩
  change ((s.worker.write r.key v requeued).entry key).status = _ at hcurrent
  rw [Worker.entry_write] at hcurrent
  have hheld : s.stage.held? = some r.key := by
    rw [hstage]
    rfl
  have hbefore : s.worker.isQueued key = true ∨
      ∃ c owner job, s.calls c = .queueing owner key job := by
    rcases hwanted with hqueued | ⟨r', hr', -⟩ | hcalls
    · exact .inl hqueued
    · exact absurd hr' (by simp [Workshop.workOn, note, setHolder, Stage.unstored])
    · exact .inr hcalls
  by_cases hkey : r.key = key
  · subst hkey
    rw [if_pos rfl] at hcurrent
    cases requeued with
    | true => simp at hcurrent
    | false =>
      rcases hbefore with hqueued | ⟨c, owner, job, hcall⟩
      · exact Bool.eq_false_iff.mp (h.checked r v hstage) hqueued
      · exact hguarded.exclusive (c := c) (by rw [hcall]; rfl) hheld
  · rw [if_neg hkey] at hcurrent
    exact h.wanted key (hbefore.imp_right .inr) hcurrent

theorem workOn (h : s.Outdated) (hguarded : s.Guarded) {stage : Stage γ ρ}
    (hstage : s.stage = stage) : (s.workOn stage).Outdated := by
  have hself : s.worker.queue ⊆ s.worker.queue := List.Subset.refl _
  have hhand : ∀ r, stage.unstored = some r → s.Wanted r.key := fun r hr =>
    .inr (.inl ⟨r, hstage ▸ hr, rfl⟩)
  cases stage with
  | free =>
    simp only [Workshop.workOn]
    split
    · exact h
    · next r rest hqueue =>
      have hpop : s.worker.pop = { s.worker with queue := rest, inFlight := some r } := by
        unfold Worker.pop
        rw [hqueue]
      have hwanted : s.Wanted r.key :=
        .inl (List.any_eq_true.mpr ⟨r, by simp [hqueue], decide_eq_true rfl⟩)
      rw [hpop]
      refine h.worker (.taken r) rfl rfl ?_ (fun r' hr' => ?_) (by simp) fun _ => id
      · rw [hqueue]
        exact List.subset_cons_self r rest
      · obtain rfl := Option.some.inj hr'
        exact hwanted
  | taken r => exact h.worker (.running r) rfl rfl hself hhand (by simp) fun _ => id
  | running r => exact h
  | ended r result =>
    cases result with
    | ok v =>
      simp only [Workshop.workOn]
      split
      · exact h.worker (.storing r v) rfl rfl hself hhand (by simp) fun _ => current_of_touch
      · exact h
    | error e =>
      exact h.worker (.stored r (.error e)) rfl rfl hself (by simp [Stage.unstored]) (by simp)
        fun _ => id
  | storing r v =>
    refine ⟨fun key hwanted => h.wanted key ?_, fun r' v' hr' => ?_⟩
    · rcases hwanted with hqueued | ⟨r', hr', rfl⟩ | hcalls
      · exact .inl hqueued
      · exact hhand r' hr'
      · exact .inr (.inr hcalls)
    · obtain ⟨rfl, -, hnone⟩ := Stage.checked.inj hr'
      exact hnone
  | checked r v requeued => exact h.stores hguarded hstage
  | stored r result =>
    exact h.worker (.delivered r) rfl rfl hself (by simp [Stage.unstored, Stage.inHand]) (by simp)
      fun _ => id
  | delivered r =>
    exact h.worker .free rfl rfl hself (by simp [Stage.unstored, Stage.inHand]) (by simp)
      fun _ => id

end Outdated

theorem outdated_act (s : Workshop γ ρ) (move : Move γ ρ) (hguarded : s.Guarded)
    (h : s.Outdated) : (s.act move).Outdated := by
  cases move with
  | call c operation =>
    show (s.begin c operation (s.calls c)).Outdated
    cases s.calls c with
    | idle =>
      have hnext : ∀ owner key job, operation.begin ≠ .queueing owner key job := by
        cases operation <;> simp [Operation.begin]
      exact h.client rfl rfl hnext (List.Subset.refl _) fun _ => id
    | _ => exact h
  | goOn c => exact h.goOn hguarded rfl
  | work => exact h.workOn hguarded rfl
  | finish ending =>
    show (s.finish ending s.stage).Outdated
    cases hstage : s.stage with
    | running r =>
      refine h.worker (.ended r ending.result) rfl rfl (List.Subset.refl _) (fun r' hr' => ?_)
        (by simp) fun _ => id
      exact .inr (.inl ⟨r', by rw [hstage]; exact hr', rfl⟩)
    | _ => exact h

theorem outdated_start : (start : Workshop γ ρ).Outdated where
  wanted := by
    rintro key (hqueued | ⟨r, hr, -⟩ | ⟨c, owner, job, hcall⟩)
    · cases hqueued
    · cases hr
    · cases hcall
  checked := fun r v hr => by cases hr

theorem outdated_run (moves : List (Move γ ρ)) : (run moves).Outdated :=
  (run_induction (P := fun s => s.Guarded ∧ s.Outdated) ⟨guarded_start, outdated_start⟩
    (fun s move h => ⟨guarded_act s move h.1, outdated_act s move h.1 h.2⟩) moves).2

/-! ## When an entry can be trusted -/

/-- An entry that is current has a value, and no other is on its way: no request for its key is
queued, and the worker has none in its hands whose result is still to be stored. An entry is made
when a result is stored in it for the first time. -/
theorem current_trustworthy (moves : List (Move γ ρ)) (key : String) :
    let s := run moves
    ((s.worker.entry key).status = .current →
      (s.worker.entry key).value.isSome = true ∧ s.worker.isQueued key = false ∧
        ∀ r, s.stage.unstored = some r → r.key ≠ key) ∧
    ((s.worker.entry key).status = .notMade ↔
      ∀ r v requeued, .written r v requeued ∈ s.history → r.key ≠ key) := by
  intro s
  have hentry : s.worker.entry key = leaves key s.history := recorded_run moves key
  have houtdated : s.Outdated := outdated_run moves
  refine ⟨fun hcurrent => ⟨?_, ?_, ?_⟩, ?_⟩
  · rw [hentry] at hcurrent ⊢
    obtain ⟨-, -, v, -, -, -, hvalue, -⟩ := (leaves_current_iff _).mp hcurrent
    rw [hvalue]
    rfl
  · rw [Bool.eq_false_iff]
    exact fun hqueued => houtdated.wanted key (.inl hqueued) hcurrent
  · exact fun r hr hkey => houtdated.wanted key (.inr (.inl ⟨r, hr, hkey⟩)) hcurrent
  · rw [hentry]
    exact leaves_notMade_iff _

/-- An entry is current from when a value is stored in it while no request for its key is queued,
until the next request or invalidation of its key. An invalidation that comes before the value is
stored does not count, not even against the job that was under way by then. -/
theorem current_iff_untouched (moves : List (Move γ ρ)) (key : String) :
    let s := run moves
    (s.worker.entry key).status = .current ↔
      ∃ earlier r v later, s.history = earlier ++ .written r v false :: later ∧ r.key = key ∧
        (s.worker.entry key).value = some v ∧ ∀ event ∈ later, ¬ event.Concerns key := by
  intro s
  rw [recorded_run moves key]
  exact leaves_current_iff _

/-- A client declares a key stale while the worker runs a job for it. -/
def staleWhileRunning (γ ρ : Type) (job : γ) (v : ρ) : List (Move γ ρ) :=
  [.call 0 (.request "list" "n" job), .goOn 0, .goOn 0, .goOn 0, .goOn 0, .work, .work,
    .call 1 (.invalidate "n"), .goOn 1, .goOn 1, .finish (.returned (.ok v)), .work, .work, .work]

theorem history_staleWhileRunning (job : γ) (v : ρ) :
    (run (staleWhileRunning γ ρ job v)).history =
      let r : Commission γ := ⟨"list", "n", 0, job⟩
      [.marked "n", .accepted r [], .taken r, .started r, .invalidated "n", .ended r (.ok v),
        .written r v false] := by
  simp [run, staleWhileRunning, start, act, begin, Operation.begin, goOn, workOn, finish,
    Ending.result, setCall, setHolder, note, Worker.empty, Worker.touch, Worker.mark,
    Worker.enqueue, Worker.pop, Worker.cached?, Worker.invalidate, Worker.isQueued, Worker.entry,
    Assoc.find?, Assoc.insert]

/-- What it makes is called current all the same. -/
theorem entry_staleWhileRunning (job : γ) (v : ρ) :
    (run (staleWhileRunning γ ρ job v)).worker.entry "n" = ⟨.current, some v⟩ := by
  rw [recorded_run, history_staleWhileRunning]
  simp [leaves, Cached.after]

end Workshop

end ReactiveScript
