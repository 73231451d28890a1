import ReactiveScript.Proofs.Calm
import ReactiveScript.Proofs.Entries
import ReactiveScript.Proofs.TermRun
import Mathlib.Data.List.Induction
import Mathlib.Logic.Function.Basic

/-
  A loop is a left fold.

  A loop goes over a value that can be iterated or over a range: each turn binds the next entry, and
  adds the value of the body to an accumulator. `fold` says what this means, without an iterator. On
  the machine the accumulator stands above the iterator before every turn; a turn draws one entry
  (`goes_turn`), so earlier turns leave an iterator that gives the later entries (`goes_turns`), and
  when none is left the iterator is taken out below the accumulator (`goes_exit`). The values are
  those of the fold because no term looks at an iterator.
-/

namespace ReactiveScript

/-! ## Variables -/

/-- The values of variables, of which these are bound anew. -/
def bindVars (vars : Variable → Option Value) (bindings : Bindings) : Variable → Option Value :=
  bindings.foldl (fun vars b => Function.update vars b.1 (some b.2)) vars

theorem Environment.get?_setAll (env : Environment) (bindings : Bindings) :
    (env.setAll bindings).get? = bindVars env.get? bindings := by
  induction bindings generalizing env with
  | nil => rfl
  | cons b rest ih =>
    have hset : (env.set b.1 b.2).get? = Function.update env.get? b.1 (some b.2) := by
      funext x
      rw [env.get?_set, Function.update_apply]
      simp only [eq_comm]
    show ((env.set b.1 b.2).setAll rest).get? = bindVars (Function.update env.get? b.1 _) rest
    rw [ih, hset]

section

variable {vars vars' : Variable → Option Value} {bindings bindings' : Bindings}

theorem bindVars_of_not_mem {x : Variable} (h : x ∉ bindings.map Prod.fst) :
    bindVars vars bindings x = vars x := by
  induction bindings generalizing vars with
  | nil => rfl
  | cons b rest ih =>
    obtain ⟨hne, hrest⟩ := List.ne_and_not_mem_of_not_mem_cons h
    exact (ih hrest).trans (Function.update_of_ne hne _ _)

/-- The variables that are bound anew do not count. -/
theorem bindVars_congr (h : ∀ x ∉ bindings.map Prod.fst, vars x = vars' x) :
    bindVars vars bindings = bindVars vars' bindings := by
  induction bindings generalizing vars vars' with
  | nil => exact funext fun x => h x List.not_mem_nil
  | cons b rest ih =>
    refine ih fun x hx => ?_
    show Function.update vars b.1 (some b.2) x = Function.update vars' b.1 (some b.2) x
    by_cases hb : x = b.1
    · rw [hb, Function.update_self, Function.update_self]
    · rw [Function.update_of_ne hb, Function.update_of_ne hb]
      exact h x (List.not_mem_cons_of_ne_of_not_mem hb hx)

/-- Of two bindings of a variable the later one counts. -/
theorem bindVars_again (h : ∀ b ∈ bindings, b.1 ∈ bindings'.map Prod.fst) :
    bindVars vars (bindings ++ bindings') = bindVars vars bindings' := by
  have happend : bindVars vars (bindings ++ bindings') =
      bindVars (bindVars vars bindings) bindings' := List.foldl_append
  rw [happend]
  refine bindVars_congr fun x hx => bindVars_of_not_mem fun hmem => hx ?_
  obtain ⟨b, hb, rfl⟩ := List.mem_map.mp hmem
  exact h b hb

end

/-! ## What is iterated -/

/-- What a loop goes over: the entries of a value, or the integers between two. -/
inductive Iterable
  | each (value : Term)
  | between (first last : Term)

/-- The term for the iterator. -/
def Iterable.term : Iterable → Term
  | .each value => .unary .iteratorC value
  | .between first last => .binary .iteratorR first last

/-- The entries, if it can be iterated. -/
def Iterable.entries? (vars : Variable → Option Value) :
    Iterable → Calculation (Option (List Entry))
  | .each value => do
    let v ← value.evaluate vars
    return v.entries?
  | .between first last => do
    let a ← first.evaluate vars
    let b ← last.evaluate vars
    match a, b with
    | .int a, .int b => return some (rangeEntries a b)
    | _, _ => return none

theorem Value.toIterator_gives {v : Value} {entries : List Entry} (h : v.entries? = some entries) :
    ∃ it last, v.toIterator = Store.newIterator it ∧ it.Gives entries last := by
  unfold Value.entries? at h
  split at h
  · cases h
    exact ⟨_, _, rfl, Iteration.gives_empty⟩
  · cases h
    obtain ⟨last, hgives⟩ := Iteration.gives_ofCollection _
    exact ⟨_, last, rfl, hgives⟩
  · cases h
    obtain ⟨last, hgives⟩ := Iteration.gives_ofEntries entries
    exact ⟨_, last, rfl, hgives⟩
  · cases h

/-- The term gives a new iterator, which gives the entries. -/
theorem Iterable.evaluate_term {source : Iterable} {vars : Variable → Option Value}
    {entries : List Entry} {st st' : Store}
    (h : source.entries? vars st = (.ok (some entries), st')) :
    ∃ it last, it.Gives entries last ∧ source.term.evaluate vars st =
      (.ok (.iterator st'.iterations.size), (Store.newIterator it st').2) := by
  cases source with
  | each value =>
    obtain ⟨v, st₁, hvalue, h⟩ := Run.bind_eq_ok h
    obtain ⟨hentries, rfl⟩ := Prod.ext_iff.mp h
    obtain ⟨it, last, hnew, hgives⟩ := Value.toIterator_gives (Except.ok.inj hentries)
    have hunary : Operator.unary .iteratorC v = v.toIterator := by
      cases v with
      | error e => cases hentries
      | _ => rfl
    refine ⟨it, last, hgives, ?_⟩
    show (value.evaluate vars >>= fun v => liftM (Operator.unary .iteratorC v)) st = _
    rw [Calculation.run_bind, hvalue]
    show (liftM (Operator.unary .iteratorC v) : Calculation Value) st₁ = _
    rw [hunary, hnew]
    rfl
  | between first last =>
    obtain ⟨a, st₁, hfirst, h⟩ := Run.bind_eq_ok h
    obtain ⟨b, st₂, hlast, h⟩ := Run.bind_eq_ok h
    obtain ⟨x, y, rfl, rfl, rfl, rfl⟩ : ∃ x y, a = .int x ∧ b = .int y ∧
        rangeEntries x y = entries ∧ st₂ = st' := by
      split at h
      · cases h
        exact ⟨_, _, rfl, rfl, rfl, rfl⟩
      · cases h
    obtain ⟨rest, hgives⟩ := Iteration.gives_between x y
    refine ⟨_, rest, hgives, ?_⟩
    show (first.evaluate vars >>= fun a => last.evaluate vars >>= fun b =>
      liftM (Operator.binary .iteratorR a b)) st = _
    rw [Calculation.run_bind, hfirst]
    show (last.evaluate vars >>= fun b => liftM (Operator.binary .iteratorR (.int x) b)) st₁ = _
    rw [Calculation.run_bind, hlast]
    rfl

/-! ## Loops -/

/-- A loop over the entries of its source, or over entries with their keys. -/
structure FoldLoop where
  source : Iterable
  /-- What is first in the accumulator. -/
  start : Term
  /-- Bound to the value of every entry. -/
  element : Variable
  /-- Bound to the key of every entry, if the loop has keys. -/
  key : Option Variable
  body : Term

/-- The instructions that bind variables to what stands on the stack. -/
def bindCode : List Variable → List (Opcode × Nat)
  | [] => []
  | x :: rest => (.setVar, x.id) :: (.pop, 0) :: bindCode rest

theorem length_bindCode (xs : List Variable) : (bindCode xs).length = 2 * xs.length := by
  induction xs with
  | nil => rfl
  | cons x rest ih =>
    show (bindCode rest).length + 2 = _
    rw [ih]
    rfl

namespace FoldLoop

variable (l : FoldLoop)

/-- What an entry binds, in the order of the code. -/
def bindings (entry : Entry) : Bindings :=
  (l.element, entry.2) :: l.key.toList.map fun k => (k, entry.1)

/-- The variables bound in every turn. -/
def binders : List Variable := l.element :: l.key.toList

theorem map_bindings (entry : Entry) : (l.bindings entry).map Prod.fst = l.binders := by
  unfold bindings binders
  cases l.key <;> rfl

/-! ### Meaning -/

/-- The values of variables in the turn of an entry. -/
def varsAt (vars : Variable → Option Value) (entry : Entry) : Variable → Option Value :=
  bindVars vars (l.bindings entry)

/-- A turn adds the value of the body to the accumulator. -/
def turn (vars : Variable → Option Value) (acc : Value) (entry : Entry) : Calculation Value := do
  let v ← l.body.evaluate (l.varsAt vars entry)
  Operator.binary .add acc v

/-- The left fold of the addition over the values of the body at the entries. -/
def fold (vars : Variable → Option Value) (start : Value) (entries : List Entry) :
    Calculation Value :=
  entries.foldlM (l.turn vars) start

/-! ### Code -/

/-- The instruction at the head. -/
def headOpcode : Opcode := if l.key.isSome then .loopWithKey else .loop

/-- The position of the head, for code from `pos` on. -/
def head (pos : Nat) : Nat := pos + l.source.term.size + l.start.size

/-- Where the body starts, after the variables are bound. -/
def bodyStart (pos : Nat) : Nat := l.head pos + 1 + 2 * l.binders.length

/-- The position of the addition. -/
def addition (pos : Nat) : Nat := l.bodyStart pos + l.body.size

/-- The position after the code. -/
def exit (pos : Nat) : Nat := l.addition pos + 2

/-- The constants in the order of their use. -/
def constants : List Value := l.source.term.constants ++ l.start.constants ++ l.body.constants

/-- The instructions from position `pos` on, when there are `n` constants before. -/
def code (pos n : Nat) : List (Opcode × Nat) :=
  l.source.term.code pos n ++
    l.start.code (pos + l.source.term.size) (n + l.source.term.constants.length) ++
    (l.headOpcode, l.exit pos) :: (bindCode l.binders ++
      l.body.code (l.bodyStart pos)
        (n + l.source.term.constants.length + l.start.constants.length) ++
      [(.binary, Family.code BinaryOp.add), (.jump, l.head pos)])

/-- How many instructions a turn takes at most. -/
def turnSize : Nat := 1 + 2 * l.binders.length + l.body.size + 2

/-- How many instructions a loop over these entries takes at most. -/
def steps (entries : List Entry) : Nat :=
  l.source.term.size + l.start.size + entries.length * l.turnSize + 1

end FoldLoop

/-- The code of a term from a position on, with its constants. -/
def Script.HasTerm (s : Script Value) (pos : Nat) (t : Term) : Prop :=
  ∃ n, s.HasCode pos (t.code pos n) ∧ s.HasConstants n t.constants

/-- Where the parts of a loop are. -/
structure FoldLoop.Laid (l : FoldLoop) (s : Script Value) (pos : Nat) : Prop where
  source : s.HasTerm pos l.source.term
  start : s.HasTerm (pos + l.source.term.size) l.start
  head : s.HasInstr (l.head pos) (l.headOpcode, l.exit pos)
  binding : s.HasCode (l.head pos + 1) (bindCode l.binders)
  body : s.HasTerm (l.bodyStart pos) l.body
  addition : s.HasInstr (l.addition pos) (.binary, Family.code BinaryOp.add)
  back : s.HasInstr (l.addition pos + 1) (.jump, l.head pos)

theorem FoldLoop.laid_of_code {l : FoldLoop} {s : Script Value} {pos n : Nat}
    (hcode : s.HasCode pos (l.code pos n)) (hconst : s.HasConstants n l.constants) :
    l.Laid s pos := by
  obtain ⟨hprelude, hhead, hinside⟩ := eachAt_append.1 hcode
  obtain ⟨hsource, hstart⟩ := eachAt_append.1 hprelude
  obtain ⟨hinside, hadd, hback, -⟩ := eachAt_append.1 hinside
  obtain ⟨hbinding, hbody⟩ := eachAt_append.1 hinside
  obtain ⟨hconst, hkb⟩ := eachAt_append.1 hconst
  obtain ⟨hks, hka⟩ := eachAt_append.1 hconst
  simp only [List.length_append, Term.length_code, length_bindCode, ← Nat.add_assoc]
    at hhead hstart hbinding hbody hadd hback hkb
  exact ⟨⟨n, hsource, hks⟩, ⟨_, hstart, hka⟩, hhead, hbinding, ⟨_, hbody, hkb⟩, hadd, hback⟩

theorem FoldLoop.Laid.exit_le {l : FoldLoop} {s : Script Value} {pos : Nat} (h : l.Laid s pos) :
    l.exit pos ≤ s.length := h.back.lt

theorem FoldLoop.head_lt (l : FoldLoop) (pos : Nat) : l.head pos < l.addition pos := by
  unfold addition bodyStart
  omega

/-! ## Machines in a loop -/

namespace Machine

variable {m : Machine} {handle : Nat} {st st' : Store}

/-- The iterator stands on the stack, and turns have bound variables. -/
def looping (m : Machine) (handle : Nat) (bound : Bindings) : Machine :=
  ⟨{ m.context with
      env := m.context.env.setAll bound
      stack := .iterator handle :: m.context.stack }, m.store⟩

/-- With this store the iterator exists and nothing is interrupted. -/
structure Turning (m : Machine) (handle : Nat) (st : Store) : Prop where
  room : handle < st.iterations.size
  clear : ¬ Interrupted ⟨m.context, st⟩

theorem interrupted_congr (h : st'.interrupts = st.interrupts) {c : Context} :
    Interrupted ⟨c, st'⟩ ↔ Interrupted ⟨c, st⟩ := by
  unfold Interrupted Store.isInterrupted
  dsimp only
  rw [h]

theorem Turning.withIteration (h : m.Turning handle st) (it : Iteration) :
    m.Turning handle (st.withIteration handle it) := by
  refine ⟨?_, h.clear⟩
  show handle < (st.iterations.setIfInBounds handle it).size
  rw [Array.size_setIfInBounds]
  exact h.room

/-- So it stays when something is done that does not look at iterators. -/
theorem Turning.after {α : Type} {x : StateM Store α} {r : α} (h : m.Turning handle st)
    (hx : Store.Blind x) (hr : x st = (r, st')) : m.Turning handle st' := by
  obtain ⟨hsize, hkept, -⟩ := hx.of_eq hr
  exact ⟨Nat.lt_of_lt_of_le h.room hsize, mt (interrupted_congr hkept).mp h.clear⟩

theorem above_above (m : Machine) (f g : List Value) (st st' : Store) :
    (m.above f st).above g st' = m.above (g ++ f) st' := by
  unfold above
  rw [List.append_assoc]

end Machine

namespace Run

variable {call : Caller} {s : Script Value} {base pos n k handle : Nat} {m : Machine} {l : FoldLoop}
  {acc : Value} {st st' : Store} {bound : Bindings} {it rest last : Iteration} {entry : Entry}

/-! ## Steps -/

variable (call base) in
theorem computes_hasTerm {t : Term} (h : s.HasTerm pos t) (vars : Variable → Option Value) :
    Computes call s base vars t.size pos (pos + t.size) (t.evaluate vars) ([·]) := by
  obtain ⟨n, hcode, hconst⟩ := h
  exact computes_term t hcode hconst

theorem step_head (hi : s.HasInstr pos (l.headOpcode, k)) :
    step call s base pos = stepLoop s base pos k l.key.isSome := by
  obtain ⟨_, hstep⟩ := step_instr call base hi
  rw [hstep]
  unfold FoldLoop.headOpcode
  cases l.key <;> rfl

/-- At the head the iterator below the accumulator is drawn from. -/
theorem stepLoop_draws (hbase : base ≤ m.context.stack.length) (hturning : m.Turning handle st)
    {drawn : Option Entry} (hnext : it.next = (drawn, rest)) (withKey : Bool) :
    stepLoop s base pos k withKey
        ((m.looping handle bound).above [acc] (st.withIteration handle it)) =
      (match drawn with
        | some (key, v) => do
          if withKey then push key
          push v
          return .goto (pos + 1)
        | none => do
          setOperands (acc :: m.context.stack)
          takeJump s pos k : Run Next)
        ((m.looping handle bound).above [acc] (st.withIteration handle rest)) := by
  have hheed : heedInterrupt ((m.looping handle bound).above [acc] (st.withIteration handle it)) =
      (.ok (), (m.looping handle bound).above [acc] (st.withIteration handle it)) :=
    heedInterrupt_clear hturning.clear
  have hdrawn : store (Store.drawEntry handle)
      ((m.looping handle bound).above [acc] (st.withIteration handle it)) =
        (.ok drawn, (m.looping handle bound).above [acc] (st.withIteration handle rest)) := by
    show (Except.ok (Store.drawEntry handle (st.withIteration handle it)).1,
      (⟨_, (Store.drawEntry handle (st.withIteration handle it)).2⟩ : Machine)) = _
    rw [Store.drawEntry_withIteration hturning.room hnext]
    rfl
  refine (run_bind_ok hheed).trans ((run_bind_ok (run_operands _)).trans ?_)
  show (if m.context.stack.length < base then _ else _ : Run Next) _ = _
  rw [if_neg (Nat.not_lt_of_le hbase)]
  refine (run_bind_ok hdrawn).trans ?_
  cases drawn <;> rfl

/-- An entry that is drawn is pushed, its value on top. -/
theorem goes_enter (hi : s.HasInstr pos (l.headOpcode, k)) (hbase : base ≤ m.context.stack.length)
    (hturning : m.Turning handle st) (hnext : it.next = (some entry, rest)) :
    Goes call s base 1 pos ((m.looping handle bound).above [acc] (st.withIteration handle it))
      (pos + 1) ((m.looping handle bound).above ((l.bindings entry).map Prod.snd ++ [acc])
        (st.withIteration handle rest)) := by
  refine goes_of_step ?_
  rw [step_head hi, stepLoop_draws hbase hturning hnext]
  unfold FoldLoop.bindings
  cases l.key <;> rfl

/-- When there is no entry left, the iterator is taken out below the accumulator. -/
theorem goes_exit (hl : l.Laid s pos) (hbase : base ≤ m.context.stack.length)
    (hturning : m.Turning handle st) (hnext : it.next = (none, rest)) :
    Goes call s base 1 (l.head pos)
      ((m.looping handle bound).above [acc] (st.withIteration handle it)) (l.exit pos)
      ⟨{ m.context with env := m.context.env.setAll bound, stack := acc :: m.context.stack },
        st.withIteration handle rest⟩ := by
  have hlt : l.head pos < l.exit pos := Nat.lt_of_lt_of_le (l.head_lt pos) (Nat.le_add_right _ 2)
  refine goes_of_step ?_
  rw [step_head hl.head, stepLoop_draws hbase hturning hnext]
  exact takeJump_ahead hlt hl.exit_le _

variable (call) in
/-- Variables are bound to what stands on the stack. -/
theorem goes_bind {bindings : Bindings} (hcode : s.HasCode pos (bindCode (bindings.map Prod.fst)))
    (hbase : base ≤ m.context.stack.length) (st : Store) :
    Goes call s base (2 * bindings.length) pos (m.above (bindings.map Prod.snd) st)
      (pos + 2 * bindings.length)
      ⟨{ m.context with env := m.context.env.setAll bindings }, st⟩ := by
  induction bindings generalizing pos m with
  | nil => exact ⟨0, Nat.le_refl 0, fun budget => rfl⟩
  | cons b later ih =>
    obtain ⟨hset, hpop, hlater⟩ := hcode
    let bound : Machine := ⟨{ m.context with env := m.context.env.set b.1 b.2 }, m.store⟩
    have hsets : step call s base pos (m.above (b.2 :: later.map Prod.snd) st) =
        (.ok (.goto (pos + 1)), bound.above (b.2 :: later.map Prod.snd) st) := by
      obtain ⟨_, hstep⟩ := step_instr call base hset
      rw [hstep]
      exact run_bind_ok (top_above hbase pos)
    have hpops : step call s base (pos + 1) (bound.above (b.2 :: later.map Prod.snd) st) =
        (.ok (.goto (pos + 1 + 1)), bound.above (later.map Prod.snd) st) := by
      obtain ⟨_, hstep⟩ := step_instr call base hpop
      rw [hstep]
      exact run_bind_ok (pop_above (m := bound) hbase (pos + 1))
    have h := (goes_of_step hsets).trans ((goes_of_step hpops).trans (ih (m := bound) hlater hbase))
    have hsize : 1 + (1 + 2 * later.length) = 2 * (b :: later).length := by
      rw [List.length_cons]
      omega
    have hnext : pos + 1 + 1 + 2 * later.length = pos + 2 * (b :: later).length := by
      rw [List.length_cons]
      omega
    rw [hsize, hnext] at h
    exact h

theorem step_jumpBack {next : Nat} (hi : s.HasInstr pos (.jump, next)) (hle : next ≤ pos)
    (hclear : ¬ m.Interrupted) : step call s base pos m = (.ok (.goto next), m) := by
  obtain ⟨_, hstep⟩ := step_instr call base hi
  rw [hstep]
  show takeJump s pos next m = _
  unfold takeJump
  rw [if_neg (Nat.not_lt_of_le (Nat.le_trans hle (Nat.le_of_lt hi.lt))), if_pos hle]
  exact run_bind_ok (heedInterrupt_clear hclear)

/-! ## Turns -/

theorem blind_turn (l : FoldLoop) (vars : Variable → Option Value) (acc : Value) (entry : Entry) :
    Store.Blind (l.turn vars acc entry) :=
  Store.closed_blind.andThen (l.body.closed Store.closed_blind _) fun v =>
    Store.closed_blind.lifted (Store.closed_blind.binary .add acc v)

theorem blind_fold (l : FoldLoop) (vars : Variable → Option Value) (acc : Value)
    (entries : List Entry) : Store.Blind (l.fold vars acc entries) := by
  induction entries generalizing acc with
  | nil => exact Store.closed_blind.pure _
  | cons entry later ih => exact Store.closed_blind.andThen (blind_turn l vars acc entry) ih

variable (call) in
/-- After an entry has been drawn its variables are bound, and the body starts. -/
theorem goes_body (hl : l.Laid s pos) (hbase : base ≤ m.context.stack.length)
    (hturning : m.Turning handle st) (hnext : it.next = (some entry, rest)) :
    Goes call s base (1 + 2 * l.binders.length) (l.head pos)
      ((m.looping handle bound).above [acc] (st.withIteration handle it)) (l.bodyStart pos)
      ((m.looping handle (bound ++ l.bindings entry)).above [acc]
        (st.withIteration handle rest)) := by
  have hcode := hl.binding
  rw [← l.map_bindings entry] at hcode
  have hbase' : base ≤ ((m.looping handle bound).above [acc] st).context.stack.length :=
    le_length_above (Nat.le_trans hbase (Nat.le_succ _)) [acc] st
  have hbinds := goes_bind call hcode hbase' (st.withIteration handle rest)
  have henv : (m.context.env.setAll bound).setAll (l.bindings entry) =
      m.context.env.setAll (bound ++ l.bindings entry) := List.foldl_append.symm
  have hlength : (l.bindings entry).length = l.binders.length := by
    rw [← l.map_bindings entry, List.length_map]
  rw [Machine.above_above, hlength] at hbinds
  dsimp only [Machine.above, Machine.looping] at hbinds
  rw [henv] at hbinds
  exact (goes_enter hl.head hbase hturning hnext).trans hbinds

/-- In a turn the variables have the values of its entry, whatever earlier turns have bound. -/
theorem get?_looping (hbound : ∀ b ∈ bound, b.1 ∈ l.binders) :
    (m.looping handle (bound ++ l.bindings entry)).context.env.get? =
      l.varsAt m.context.env.get? entry := by
  refine (Environment.get?_setAll _ _).trans (bindVars_again fun b hb => ?_)
  rw [l.map_bindings]
  exact hbound b hb

variable (call acc) in
/-- A turn binds the next entry and leaves what the body adds to the accumulator. -/
theorem goes_turn (hl : l.Laid s pos) (hbase : base ≤ m.context.stack.length)
    (hturning : m.Turning handle st) (hbound : ∀ b ∈ bound, b.1 ∈ l.binders)
    (hnext : it.next = (some entry, rest)) :
    Produces call s base l.turnSize (l.head pos)
      ((m.looping handle bound).above [acc] (st.withIteration handle it))
      (m.looping handle (bound ++ l.bindings entry)) (l.head pos) ([·])
      (l.turn m.context.env.get? acc entry (st.withIteration handle rest)) := by
  let inside := m.looping handle (bound ++ l.bindings entry)
  have hvars : inside.context.env.get? = l.varsAt m.context.env.get? entry := get?_looping hbound
  have hbase' : base ≤ inside.context.stack.length := Nat.le_trans hbase (Nat.le_succ _)
  have hstart : Goes call s base (1 + 2 * l.binders.length) _
      ((m.looping handle bound).above [acc] _) _ (inside.above [acc] _) :=
    goes_body call hl hbase hturning hnext
  have hbody := computes_hasTerm call base hl.body _
    (inside.above [acc] (st.withIteration handle rest)) hvars (le_length_above hbase' [acc] _)
  have hblind := l.body.closed Store.closed_blind (l.varsAt m.context.env.get? entry)
  change Produces _ _ _ _ _ _ _ _ _ (l.body.evaluate _ (st.withIteration handle rest)) at hbody
  unfold FoldLoop.turn
  rw [Calculation.run_bind]
  rcases hout : l.body.evaluate (l.varsAt m.context.env.get? entry) (st.withIteration handle rest)
    with ⟨e | v, st₁⟩
  · rw [hout] at hbody
    obtain ⟨f, hraises⟩ := hbody
    rw [Machine.above_above] at hraises
    refine ⟨f ++ [acc], (hstart.raises hraises).mono ?_⟩
    unfold FoldLoop.turnSize
    omega
  · rw [hout] at hbody
    change Goes call s base _ _ _ _ ((inside.above [acc] _).above [v] st₁) at hbody
    rw [Machine.above_above] at hbody
    have hadd : Goes call s base 1 _ (inside.above [v, acc] st₁) _ _ :=
      goes_of_step (step_binary (m := ⟨inside.context, st₁⟩) hl.addition hbase')
    have hturning₁ : m.Turning handle st₁ := (hturning.withIteration rest).after hblind hout
    have hadded : m.Turning handle (Operator.binary .add acc v st₁).2 :=
      hturning₁.after (Store.closed_blind.binary .add acc v) rfl
    have hclear : ¬ (inside.above [(Operator.binary .add acc v st₁).1]
        (Operator.binary .add acc v st₁).2).Interrupted := hadded.clear
    have hle : l.head pos ≤ l.addition pos + 1 := Nat.le_succ_of_le (Nat.le_of_lt (l.head_lt pos))
    have hback : Goes call s base 1 _ _ _ _ := goes_of_step (step_jumpBack hl.back hle hclear)
    refine (hstart.trans (hbody.trans (hadd.trans hback))).mono ?_
    unfold FoldLoop.turnSize
    omega

/-- What turns bind are variables of the loop. -/
theorem binds_of_turns (entries : List Entry) :
    ∀ b ∈ entries.flatMap l.bindings, b.1 ∈ l.binders := by
  intro b hb
  obtain ⟨entry, -, hb⟩ := List.mem_flatMap.mp hb
  rw [← l.map_bindings entry]
  exact List.mem_map_of_mem hb

variable (call) in
/-- Turns that fold earlier entries leave an iterator that gives the later ones. -/
theorem goes_turns {earlier later : List Entry} {a₀ : Value} (hl : l.Laid s pos)
    (hbase : base ≤ m.context.stack.length) (hturning : m.Turning handle st)
    (hgives : it.Gives (earlier ++ later) last)
    (hfold : l.fold m.context.env.get? a₀ earlier st = (.ok acc, st')) :
    ∃ rest : Iteration, rest.Gives later last ∧ Goes call s base (earlier.length * l.turnSize)
      (l.head pos) ((m.looping handle []).above [a₀] (st.withIteration handle it)) (l.head pos)
      ((m.looping handle (earlier.flatMap l.bindings)).above [acc]
        (st'.withIteration handle rest)) := by
  -- The last turn starts with what the turns before it have bound.
  induction earlier using List.reverseRecOn generalizing later acc st' with
  | nil =>
    cases hfold
    exact ⟨it, hgives, 0, Nat.zero_le _, fun budget => rfl⟩
  | append_singleton earlier entry ih =>
    have hsplit : l.fold m.context.env.get? a₀ (earlier ++ [entry]) =
        (do
          let acc ← l.fold m.context.env.get? a₀ earlier
          l.turn m.context.env.get? acc entry) := by
      unfold FoldLoop.fold
      rw [List.foldlM_append]
      simp only [List.foldlM_cons, List.foldlM_nil, bind_pure]
    rw [hsplit] at hfold
    obtain ⟨acc₁, st₁, hbefore, hturn⟩ := bind_eq_ok hfold
    rw [List.append_assoc] at hgives
    obtain ⟨rest, hrest, hturns⟩ := ih hgives hbefore
    cases hrest with
    | @entry _ rest' _ _ _ hnext hlater =>
      have hturning₁ := hturning.after (blind_fold l _ a₀ earlier) hbefore
      have hlast := goes_turn call acc₁ hl hbase hturning₁ (binds_of_turns earlier) hnext
      obtain ⟨-, -, hmoved⟩ := (blind_turn l _ acc₁ entry).of_eq hturn
      rw [hmoved rest' hturning₁.room] at hlast
      rw [List.flatMap_append, List.flatMap_singleton, List.length_append, Nat.add_mul,
        List.length_singleton, Nat.one_mul]
      exact ⟨rest', hlater, hturns.trans hlast⟩


/-- A fold that fails does so at one of the entries, when it has folded those before. -/
theorem fold_error {vars : Variable → Option Value} {entries : List Entry} {a₀ : Value}
    {e : EvalError} (h : l.fold vars a₀ entries st = (.error e, st')) :
    ∃ earlier entry later acc st₁, entries = earlier ++ entry :: later ∧
      l.fold vars a₀ earlier st = (.ok acc, st₁) ∧
      l.body.evaluate (l.varsAt vars entry) st₁ = (.error e, st') := by
  induction entries generalizing a₀ st with
  | nil => cases h
  | cons entry later ih =>
    change (l.turn vars a₀ entry >>= fun acc => l.fold vars acc later) st = _ at h
    rw [Calculation.run_bind] at h
    rcases hturn : l.turn vars a₀ entry st with ⟨e' | acc₁, st₁⟩
    · rw [hturn] at h
      cases h
      refine ⟨[], entry, later, a₀, st, rfl, rfl, ?_⟩
      unfold FoldLoop.turn at hturn
      rw [Calculation.run_bind] at hturn
      rcases hbody : l.body.evaluate (l.varsAt vars entry) st with ⟨e' | v, st₂⟩
      · rw [hbody] at hturn
        exact hturn
      · rw [hbody] at hturn
        cases hturn
    · rw [hturn] at h
      obtain ⟨earlier, entry', later', acc, st₂, rfl, hfold, hbody⟩ := ih h
      refine ⟨entry :: earlier, entry', later', acc, st₂, rfl, ?_, hbody⟩
      show (l.turn vars a₀ entry >>= fun acc => l.fold vars acc earlier) st = _
      rw [Calculation.run_bind, hturn]
      exact hfold

/-! ## The loop -/

section

variable {entries : List Entry} {a₀ : Value} {st₀ st₁ : Store}

variable (call) in
/-- The code before the head leaves the first accumulator above a new iterator. -/
theorem goes_start (hl : l.Laid s pos) (hbase : base ≤ m.context.stack.length)
    (hclear : ¬ m.Interrupted)
    (hentries : l.source.entries? m.context.env.get? m.store = (.ok (some entries), st₀))
    (hstart : l.start.evaluate m.context.env.get? (Store.newIterator .empty st₀).2 =
      (.ok a₀, st₁)) :
    m.Turning st₀.iterations.size st₁ ∧ ∃ it last : Iteration, it.Gives entries last ∧
      Goes call s base (l.source.term.size + l.start.size) pos m (l.head pos)
        ((m.looping st₀.iterations.size []).above [a₀]
          (st₁.withIteration st₀.iterations.size it)) := by
  obtain ⟨it, last, hgives, hterm⟩ := l.source.evaluate_term hentries
  have hsource := l.source.term.closed Store.closed_blind m.context.env.get?
  have hblind := l.start.closed Store.closed_blind m.context.env.get?
  obtain ⟨-, hkept, -⟩ := hsource.of_eq hterm
  obtain ⟨-, -, hmoved⟩ := hblind.of_eq hstart
  have hreserved : m.Turning st₀.iterations.size (Store.newIterator .empty st₀).2 := by
    refine ⟨?_, mt (Machine.interrupted_congr hkept).mp hclear⟩
    show _ < (st₀.iterations.push .empty).size
    rw [Array.size_push]
    exact Nat.lt_succ_self _
  have hfirst := computes_hasTerm call base hl.source m.context.env.get? m rfl hbase
  rw [hterm, Store.newIterator_eq] at hfirst
  have hsecond := computes_hasTerm call base hl.start m.context.env.get?
    (m.above [.iterator st₀.iterations.size]
      ((Store.newIterator .empty st₀).2.withIteration st₀.iterations.size it))
    rfl (le_length_above hbase _ _)
  change Produces _ _ _ _ _ _ _ _ _ (l.start.evaluate _ (Store.withIteration _ _ _)) at hsecond
  rw [hmoved it hreserved.room] at hsecond
  exact ⟨hreserved.after hblind hstart, it, last, hgives, hfirst.trans hsecond⟩

variable (call) in
/-- **A loop is a left fold.** It leaves the fold of the addition over the values of the body at the
entries above what stood on the stack before, and the iterator is gone. If the body raises an error
at an entry, the loop raises it when exactly the earlier entries have been folded, and the iterator
would still give the later ones. -/
theorem loop_folds (hcode : s.HasCode pos (l.code pos n)) (hconst : s.HasConstants n l.constants)
    (hbase : base ≤ m.context.stack.length) (hclear : ¬ m.Interrupted)
    (hentries : l.source.entries? m.context.env.get? m.store = (.ok (some entries), st₀))
    (hstart : l.start.evaluate m.context.env.get? (Store.newIterator .empty st₀).2 =
      (.ok a₀, st₁)) :
    match l.fold m.context.env.get? a₀ entries st₁ with
    | (.ok acc, st) => ∃ it, Goes call s base (l.steps entries) pos m (l.exit pos)
        ⟨{ m.context with
            env := m.context.env.setAll (entries.flatMap l.bindings)
            stack := acc :: m.context.stack },
          st.withIteration st₀.iterations.size it⟩
    | (.error e, st) => ∃ earlier entry later acc st₂, entries = earlier ++ entry :: later ∧
        l.fold m.context.env.get? a₀ earlier st₁ = (.ok acc, st₂) ∧
        l.body.evaluate (l.varsAt m.context.env.get? entry) st₂ = (.error e, st) ∧
        ∃ (it last : Iteration) (f : List Value), it.Gives later last ∧
          Raises call s base (l.steps entries) pos m e
            ((m.looping st₀.iterations.size ((earlier ++ [entry]).flatMap l.bindings)).above f
              (st.withIteration st₀.iterations.size it)) := by
  have hl := FoldLoop.laid_of_code hcode hconst
  obtain ⟨hturning, it, last, hgives, hbegin⟩ := goes_start call hl hbase hclear hentries hstart
  rcases hfold : l.fold m.context.env.get? a₀ entries st₁ with ⟨e | acc, st⟩
  · obtain ⟨earlier, entry, later, acc, st₂, rfl, hbefore, hbody⟩ := fold_error hfold
    refine ⟨earlier, entry, later, acc, st₂, rfl, hbefore, hbody, ?_⟩
    obtain ⟨rest, hrest, hturns⟩ := goes_turns call hl hbase hturning hgives hbefore
    cases hrest with
    | @entry _ rest' _ _ _ hnext hlater =>
      have hturning₂ := hturning.after (blind_fold l _ a₀ earlier) hbefore
      have hfailing := goes_turn call acc hl hbase hturning₂ (binds_of_turns earlier) hnext
      have hturn : l.turn m.context.env.get? acc entry st₂ = (.error e, st) := by
        unfold FoldLoop.turn
        rw [Calculation.run_bind, hbody]
      obtain ⟨-, -, hmoved⟩ := (blind_turn l _ acc entry).of_eq hturn
      rw [hmoved rest' hturning₂.room] at hfailing
      obtain ⟨f, hraises⟩ := hfailing
      rw [List.flatMap_append, List.flatMap_singleton]
      refine ⟨rest', last, f, hlater, ((hbegin.trans hturns).raises hraises).mono ?_⟩
      unfold FoldLoop.steps
      rw [List.length_append, List.length_cons, Nat.add_mul, Nat.succ_mul]
      omega
  · rw [← List.append_nil entries] at hgives
    obtain ⟨rest, hrest, hturns⟩ := goes_turns call hl hbase hturning hgives hfold
    cases hrest with
    | done hnext =>
      have hturning₂ := hturning.after (blind_fold l _ a₀ entries) hfold
      exact ⟨last, (hbegin.trans hturns).trans (goes_exit hl hbase hturning₂ hnext)⟩

end

/-- The sum of the elements of a list, each times its position. -/
def weightedSum : FoldLoop where
  source := .each (.const (.collection 0 (.ofList [.int 5, .int 7, .int 9])))
  start := .const (.int 0)
  element := ⟨0⟩
  key := some ⟨1⟩
  body := .binary .mul (.var ⟨0⟩) (.var ⟨1⟩)

/-- The script of the loop, which ends where the loop does. -/
def weightedSumScript : Script Value :=
  ⟨0, #[.of .pushConst 0, .of .unary (Family.code UnaryOp.iteratorC), .of .pushConst 1,
    .of .loopWithKey 13, .of .setVar 0, .of .pop 0, .of .setVar 1, .of .pop 0, .of .getVar 0,
    .of .getVar 1, .of .binary (Family.code BinaryOp.mul), .of .binary (Family.code BinaryOp.add),
    .of .jump 3], #[.collection 0 (.ofList [.int 5, .int 7, .int 9]), .int 0]⟩

/-- A machine whose stack is in use. -/
def busyMachine : Machine :=
  ⟨{ Context.ofSettings ⟨10, false, 0⟩ with stack := [.bool true] }, .empty⟩

theorem loop_folds_weightedSum : ∃ m', m'.context.stack = [.int 25, .bool true] ∧
    Goes (callFor 1) weightedSumScript 1 34 0 busyMachine 13 m' := by
  have hcode : weightedSumScript.HasCode 0 (weightedSum.code 0 0) :=
    Script.hasCode_of_ops (by decide)
  have hconst : weightedSumScript.HasConstants 0 weightedSum.constants :=
    Script.hasConstants_of_toList rfl
  have hclear : ¬ busyMachine.Interrupted := Bool.false_ne_true
  have hentries : weightedSum.source.entries? busyMachine.context.env.get? busyMachine.store =
      (.ok (some [(.int 0, .int 5), (.int 1, .int 7), (.int 2, .int 9)]), .empty) := rfl
  have hstart : weightedSum.start.evaluate busyMachine.context.env.get?
      (Store.newIterator .empty .empty).2 =
        (.ok (.int 0), (Store.newIterator .empty .empty).2) := rfl
  have hfold : weightedSum.fold busyMachine.context.env.get? (.int 0)
      [(.int 0, .int 5), (.int 1, .int 7), (.int 2, .int 9)] (Store.newIterator .empty .empty).2 =
        (.ok (.int 25), (Store.newIterator .empty .empty).2) := rfl
  have h := loop_folds (callFor 1) hcode hconst (Nat.le_refl 1) hclear hentries hstart
  rw [hfold] at h
  obtain ⟨it, hgoes⟩ := h
  exact ⟨_, rfl, hgoes⟩

end Run

end ReactiveScript
