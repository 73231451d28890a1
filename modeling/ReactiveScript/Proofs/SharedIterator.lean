import ReactiveScript.Proofs.Entries

/-
  Iterators that are shared.

  Whoever draws from an iteration moves it on, and an iteration that has come to its end stays there
  (`answer_of_states`). A handle is a number, so its copies are the holders of one number, and what
  else happens to iterators in between leaves the iteration behind it alone. So the draws of all
  copies, in the order in which they come, get the entries one after the other, and nothing once
  these are gone (`answers_of_copies`): those of a collection in order, or the integers of a range
  with both its ends (`entries_handed_out_once`).
-/

namespace ReactiveScript

/-! ## Draw by draw -/

namespace Iteration

/-- The iteration after a number of draws. -/
def after (it : Iteration) : Nat → Iteration
  | 0 => it
  | draws + 1 => it.next.2.after draws

/-- What the draw with this number gets; the first one has the number 0. -/
def answer (it : Iteration) (index : Nat) : Option Entry := (it.after index).next.1

theorem answer_succ (it : Iteration) (index : Nat) :
    it.answer (index + 1) = it.next.2.answer index := rfl

/-- States that give the entries of a list by their positions, of which the last one stays, answer
with these entries one by one and then with nothing for ever. -/
theorem answer_of_states (state : Nat → Iteration) {entries : List Entry}
    (hnext : ∀ pos < entries.length, (state pos).next = (entries[pos]?, state (pos + 1)))
    (hend : (state entries.length).next = (none, state entries.length)) (index : Nat) :
    (state 0).answer index = entries[index]? := by
  have hanswer : ∀ pos ≤ entries.length, (state pos).answer index = entries[pos + index]? := by
    induction index with
    | zero =>
      intro pos hpos
      rcases Nat.lt_or_eq_of_le hpos with hlt | rfl
      · exact congrArg Prod.fst (hnext pos hlt)
      · rw [List.getElem?_eq_none (by omega)]
        exact congrArg Prod.fst hend
    | succ index ih =>
      intro pos hpos
      rw [answer_succ]
      rcases Nat.lt_or_eq_of_le hpos with hlt | rfl
      · rw [hnext pos hlt, ih (pos + 1) hlt, Nat.add_right_comm, Nat.add_assoc]
      · rw [hend, ih entries.length (Nat.le_refl _), List.getElem?_eq_none (by omega),
          List.getElem?_eq_none (by omega)]
  rw [hanswer 0 (by omega), Nat.zero_add]

theorem answer_ofCollection (items : Collection Value) (index : Nat) :
    (ofCollection items).answer index =
      (items.nth? index).map fun v => (items.scriptKey index, v) := by
  have hlength : items.scriptEntries.length = items.values.length := by
    rw [Collection.scriptEntries, List.length_map, List.length_zipIdx]
  have hentry : ∀ pos : Nat, items.scriptEntries[pos]? =
      items.values[pos]?.map fun v => (items.scriptKey pos, v) := by
    intro pos
    rw [Collection.scriptEntries, List.getElem?_map, List.getElem?_zipIdx, Option.map_map]
    simp only [Function.comp_def, Nat.zero_add]
  have hnth : items.nth? index = items.values[index]? := (List.getElem?_map ..).symm
  rw [hnth, ← hentry]
  refine answer_of_states (.collection items) ?_ ?_ index
  · intro pos hpos
    rw [hlength] at hpos
    rw [next_collection, hentry, List.getElem?_eq_getElem hpos]
    rfl
  · rw [next_collection, hlength, List.getElem?_eq_none (Nat.le_refl _)]

theorem answer_between (first last : Int64) (index : Nat) :
    (between first last).answer index = (rangeEntries first last)[index]? := by
  rw [between_eq_rangeAt]
  exact answer_of_states (rangeAt first last) (fun pos h => next_rangeAt h)
    (next_rangeAt_length first last) index

end Iteration

/-- The answer to the draw number `index` from the range: the integer that many after `first`, with
the number of the draw as its key, or with the largest integer if that number is larger; behind the
last integer of the range, nothing. -/
def RangeAnswer (first last : Int64) (index : Nat) (answer : Option Entry) : Prop :=
  if first.toInt + index ≤ last.toInt then
    ∃ key value : Int64, key.toInt = min (index : Int) Int64.maxValue.toInt ∧
      value.toInt = first.toInt + index ∧ answer = some (.int key, .int value)
  else answer = none

theorem toInt_rangeKey (index : Nat) :
    (rangeKey index).toInt = min (index : Int) Int64.maxValue.toInt := by
  have hlargest : Int64.maxValue.toInt = 9223372036854775807 := rfl
  unfold rangeKey
  rcases Iteration.int64?_cases index (by omega) with ⟨hfits, v, hv, hvalue⟩ | ⟨hlarge, hv⟩
  · rw [hv, Option.getD_some, hvalue]
    omega
  · rw [hv, Option.getD_none]
    omega

theorem rangeAnswer_rangeEntries (first last : Int64) (index : Nat) :
    RangeAnswer first last index (rangeEntries first last)[index]? := by
  have hfirst := first.le_toInt
  have hlast := last.toInt_lt
  unfold RangeAnswer
  by_cases hin : first.toInt + index ≤ last.toInt
  · have hlt : index < (last.toInt + 1 - first.toInt).toNat := by omega
    have hvalue : (Int64.ofInt (first.toInt + index)).toInt = first.toInt + index :=
      Int64.toInt_ofInt_of_le (by omega) (by omega)
    rw [if_pos hin]
    refine ⟨rangeKey index, Int64.ofInt (first.toInt + index), toInt_rangeKey index, hvalue, ?_⟩
    rw [rangeEntries, List.getElem?_map, List.getElem?_range hlt]
    rfl
  · rw [if_neg hin]
    apply List.getElem?_eq_none
    rw [Iteration.length_rangeEntries]
    omega

/-! ## The holders of handles -/

/-- What happens to the iterators of a store: one of those who hold a handle draws, or a further
iterator is started. -/
inductive IteratorEvent (κ : Type)
  | draw (holder : κ)
  | start (it : Iteration)

/-- Who draws. -/
def IteratorEvent.drawer? {κ : Type} : IteratorEvent κ → Option κ
  | .draw holder => some holder
  | .start _ => none

namespace Store

variable {κ : Type}

/-- Let the holders draw and iterators start, in a given order. Each draw is told with its answer. -/
def drawAll (holds : κ → Nat) : List (IteratorEvent κ) → StateM Store (List (κ × Option Entry))
  | [] => return []
  | .draw holder :: rest => do
    let answer ← drawEntry (holds holder)
    return (holder, answer) :: (← drawAll holds rest)
  | .start it :: rest => do
    let _ ← newIterator it
    drawAll holds rest

/-- The draws of those who hold copies of one handle. -/
def drawsOf (holds : κ → Nat) (handle : Nat) (told : List (κ × Option Entry)) :
    List (κ × Option Entry) :=
  told.filter fun draw => holds draw.1 = handle

/-- A draw moves its own iteration and no other. -/
theorem iterations_drawEntry (handle other : Nat) {st : Store} {it : Iteration}
    (h : st.iterations[handle]? = some it) :
    (drawEntry other st).2.iterations[handle]? =
      some (if other = handle then it.next.2 else it) := by
  show (st.iterations.setIfInBounds other _)[handle]? = _
  obtain ⟨hlt, -⟩ := Array.getElem?_eq_some_iff.1 h
  by_cases hsame : other = handle
  · subst hsame
    rw [if_pos rfl, Array.getElem?_setIfInBounds_self_of_lt hlt, h]
    rfl
  · rw [if_neg hsame, Array.getElem?_setIfInBounds_ne hsame, h]

theorem answer_drawEntry {handle : Nat} {st : Store} {it : Iteration}
    (h : st.iterations[handle]? = some it) : (drawEntry handle st).1 = it.answer 0 := by
  unfold drawEntry
  rw [h]
  rfl

theorem iterations_newIterator (handle : Nat) (started : Iteration) {st : Store} {it : Iteration}
    (h : st.iterations[handle]? = some it) :
    (newIterator started st).2.iterations[handle]? = some it := by
  obtain ⟨hlt, -⟩ := Array.getElem?_eq_some_iff.1 h
  show (st.iterations.push started)[handle]? = _
  rw [Array.getElem?_push_lt hlt, ← h, Array.getElem?_eq_getElem hlt]

/-- Each draw is told once, in order. -/
theorem drawers_drawAll (holds : κ → Nat) (events : List (IteratorEvent κ)) (st : Store) :
    (drawAll holds events st).1.map Prod.fst = events.filterMap IteratorEvent.drawer? := by
  induction events generalizing st with
  | nil => rfl
  | cons event rest ih =>
    match event with
    | .draw holder => exact congrArg (holder :: ·) (ih (drawEntry (holds holder) st).2)
    | .start it => exact ih (newIterator it st).2

/-- The draws of all copies of a handle, in the order in which they come, get the answers of the
iteration behind it one after the other. -/
theorem answers_of_copies (holds : κ → Nat) (events : List (IteratorEvent κ)) {handle : Nat}
    {st : Store} {it : Iteration} (h : st.iterations[handle]? = some it) {index : Nat} {holder : κ}
    {answer : Option Entry}
    (hdraw : (drawsOf holds handle (drawAll holds events st).1)[index]? = some (holder, answer)) :
    answer = it.answer index := by
  -- over the events, for any iteration that the handle has come to
  induction events generalizing st it index with
  | nil => cases hdraw
  | cons event rest ih =>
    match event with
    | .start started => exact ih (iterations_newIterator handle started h) hdraw
    | .draw drawer =>
      have hafter := iterations_drawEntry handle (holds drawer) h
      change ((((drawer, (drawEntry (holds drawer) st).1) ::
        (drawAll holds rest (drawEntry (holds drawer) st).2).1).filter _))[index]? = _ at hdraw
      rw [List.filter_cons] at hdraw
      by_cases hcopy : holds drawer = handle
      · rw [if_pos (by simpa using hcopy)] at hdraw
        rw [if_pos hcopy] at hafter
        match index with
        | 0 =>
          cases hdraw
          rw [hcopy]
          exact answer_drawEntry h
        | index + 1 =>
          rw [it.answer_succ]
          exact ih hafter hdraw
      · rw [if_neg (by simpa using hcopy)] at hdraw
        rw [if_neg hcopy] at hafter
        exact ih hafter hdraw

/-- What is handed out by a range and by a collection, to any number of copies of its handle that
draw in any order, while other iterators are drawn from and started: the draws of the copies are told
one by one as they come, and the draw number `index` among them gets the integer that many after
`first`, or the entry at that position; when there is no such integer or entry, it gets nothing. -/
theorem entries_handed_out_once (holds : κ → Nat) (events : List (IteratorEvent κ)) (st : Store)
    (it : Iteration) :
    let handle := st.iterations.size
    let draws := drawsOf holds handle (drawAll holds events (newIterator it st).2).1
    (newIterator it st).1 = .iterator handle ∧
    draws.map Prod.fst =
      (events.filterMap IteratorEvent.drawer?).filter (fun holder => holds holder = handle) ∧
    (∀ first last, it = .between first last → ∀ (index : Nat) holder answer,
      draws[index]? = some (holder, answer) → RangeAnswer first last index answer) ∧
    (∀ items, it = .ofCollection items → ∀ (index : Nat) holder answer,
      draws[index]? = some (holder, answer) →
      answer = (items.nth? index).map fun v => (items.scriptKey index, v)) := by
  intro handle draws
  have hstarted : (newIterator it st).2.iterations[handle]? = some it := Array.getElem?_push_size
  refine ⟨rfl, ?drawers, ?range, ?collection⟩
  case drawers =>
    rw [← drawers_drawAll holds events (newIterator it st).2, List.filter_map]
    rfl
  case range =>
    rintro first last rfl index holder answer hdraw
    rw [answers_of_copies holds events hstarted hdraw, Iteration.answer_between]
    exact rangeAnswer_rangeEntries first last index
  case collection =>
    rintro items rfl index holder answer hdraw
    rw [answers_of_copies holds events hstarted hdraw, Iteration.answer_ofCollection]

/-- Two copies draw in turn from the range of the two largest integers: the second draw gets the
largest one, and the next draw of the first copy gets nothing. -/
theorem entries_handed_out_once_largest :
    let draws := drawsOf (fun _ : Bool => 0) 0 (drawAll (fun _ => 0)
      [.draw false, .draw true, .start .empty, .draw false]
      (newIterator (.between (Int64.maxValue - 1) Int64.maxValue) .empty).2).1
    draws[1]? = some (true, some (.int 1, .int Int64.maxValue)) ∧
    RangeAnswer (Int64.maxValue - 1) Int64.maxValue 1 (some (.int 1, .int Int64.maxValue)) ∧
    draws[2]? = some (false, none) ∧ RangeAnswer (Int64.maxValue - 1) Int64.maxValue 2 none := by
  intro draws
  obtain ⟨-, -, hanswers, -⟩ := entries_handed_out_once (fun _ : Bool => 0)
    [.draw false, .draw true, .start .empty, .draw false] .empty
    (.between (Int64.maxValue - 1) Int64.maxValue)
  specialize hanswers (Int64.maxValue - 1) Int64.maxValue rfl
  have hsecond : draws[1]? = some (true, some (.int 1, .int Int64.maxValue)) := rfl
  have hthird : draws[2]? = some (false, none) := rfl
  exact ⟨hsecond, hanswers 1 true _ hsecond, hthird, hanswers 2 false _ hthird⟩

end Store

end ReactiveScript
