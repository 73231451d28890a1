import ReactiveScript.Proofs.Later
import ReactiveScript.Proofs.Term

/-
  What iterators give, and calculations that do not look at them.

  An iteration gives its entries one by one and then ends (`Iteration.Gives`): those of a collection
  in order (`gives_ofCollection`), the integers of a range with both its ends (`gives_between`),
  none for nil. Iterators are shared, but the meaning of a term does not depend on how far one has
  come, nor does evaluating a term move one: that is so of what is composed from basic operations
  (`closed_blind`), and terms are (`Term.closed`).
-/

namespace ReactiveScript

/-! ## Entries -/

/-- The draws from an iteration give these entries, then nothing, and leave it at `last`. -/
inductive Iteration.Gives : Iteration → List Entry → Iteration → Prop
  | done {it last : Iteration} : it.next = (none, last) → Gives it [] last
  | entry {it rest last : Iteration} {entry : Entry} {entries : List Entry} :
    it.next = (some entry, rest) → Gives rest entries last → Gives it (entry :: entries) last

/-- The entries of a collection with their keys as scripts see them. -/
def Collection.scriptEntries (items : Collection Value) : List Entry :=
  items.values.zipIdx.map fun numbered => (items.scriptKey numbered.2, numbered.1)

/-- The key of an entry of a range: its position, or the largest integer if that does not fit. -/
def rangeKey (index : Nat) : Int64 := (Decimal.int64? index).getD Int64.maxValue

/-- The integers from `first` to `last`, with their positions as keys. -/
def rangeEntries (first last : Int64) : List Entry :=
  (List.range (last.toInt + 1 - first.toInt).toNat).map fun index =>
    (.int (rangeKey index), .int (Int64.ofInt (first.toInt + index)))

/-- The entries that a value is iterated over, if it can be. -/
def Value.entries? : Value → Option (List Entry)
  | .nil => some []
  | .collection _ items => some items.scriptEntries
  | .object _ (.host ⟨_, _, some entries, _⟩) => some entries
  | _ => none

namespace Iteration

theorem gives_empty : Gives .empty [] .empty := .done rfl

/-- States that give the entries of a list by their positions give all of them. -/
theorem gives_of_next (state : Nat → Iteration) {entries : List Entry}
    (hnext : ∀ pos < entries.length, (state pos).next = (entries[pos]?, state (pos + 1)))
    (hend : ((state entries.length).next).1 = none) :
    ∃ last, Gives (state 0) entries last := by
  suffices h : ∀ rest pos, entries.drop pos = rest → pos ≤ entries.length →
      ∃ last, Gives (state pos) rest last from h entries 0 rfl (Nat.zero_le _)
  intro rest
  induction rest with
  | nil =>
    intro pos hdrop hle
    obtain rfl := Nat.le_antisymm hle (List.drop_eq_nil_iff.mp hdrop)
    exact ⟨_, .done (Prod.ext hend rfl)⟩
  | cons entry rest ih =>
    intro pos hdrop hle
    have hlt : pos < entries.length := by
      refine Nat.lt_of_not_le fun hge => ?_
      rw [List.drop_eq_nil_iff.mpr hge] at hdrop
      cases hdrop
    have hhere : entries[pos]? = some entry := by
      rw [← List.head?_drop, hdrop]
      rfl
    have hdrop' : entries.drop (pos + 1) = rest := by
      rw [← List.drop_drop, hdrop]
      rfl
    obtain ⟨last, hgives⟩ := ih (pos + 1) hdrop' hlt
    exact ⟨last, .entry ((hnext pos hlt).trans (by rw [hhere])) hgives⟩

theorem next_collection (items : Collection Value) (pos : Nat) :
    (collection items pos).next = match items.values[pos]? with
      | some v => (some (items.scriptKey pos, v), .collection items (pos + 1))
      | none => (none, .collection items pos) := by
  have hnth : items.nth? pos = items.values[pos]? := (List.getElem?_map ..).symm
  rw [← hnth]
  rfl

theorem gives_ofCollection (items : Collection Value) :
    ∃ last, Gives (.ofCollection items) items.scriptEntries last := by
  have hlength : items.scriptEntries.length = items.values.length := by
    rw [Collection.scriptEntries, List.length_map, List.length_zipIdx]
  refine gives_of_next (.collection items) (fun pos hpos => ?_) ?_
  · rw [hlength] at hpos
    rw [next_collection, List.getElem?_eq_getElem hpos, Collection.scriptEntries,
      List.getElem?_map, List.getElem?_zipIdx, List.getElem?_eq_getElem hpos, Nat.zero_add]
    rfl
  · rw [next_collection, hlength, List.getElem?_eq_none (Nat.le_refl _)]

theorem gives_ofEntries (entries : List Entry) : ∃ last, Gives (.ofEntries entries) entries last :=
  gives_of_next (.host fun i => entries[i]?) (fun _ _ => rfl)
    (List.getElem?_eq_none (Nat.le_refl _))

/-! ### Ranges -/

/-- An integer fits up to the largest one, and is then its own value. -/
theorem int64?_cases (n : Int) (h : -9223372036854775808 ≤ n) :
    (n ≤ 9223372036854775807 ∧ ∃ v, Decimal.int64? n = some v ∧ v.toInt = n) ∨
      (9223372036854775807 < n ∧ Decimal.int64? n = none) := by
  unfold Decimal.int64?
  by_cases hfits : n ≤ 9223372036854775807
  · rw [if_pos ⟨h, hfits⟩]
    refine .inl ⟨hfits, _, rfl, Int64.toInt_ofInt_of_le ?_ ?_⟩
    · exact h
    · exact Int.lt_add_one_of_le hfits
  · rw [if_neg fun hn => hfits hn.2]
    exact .inr ⟨Int.not_le.mp hfits, rfl⟩

theorem int64?_toInt (v : Int64) : Decimal.int64? v.toInt = some v := by
  unfold Decimal.int64?
  rw [if_pos ⟨v.le_toInt, Int.le_of_lt_add_one v.toInt_lt⟩, Int64.ofInt_toInt]

/-- The key after a key of a range, where the largest one stays. -/
theorem rangeKey_succ (index : Nat) :
    (successor? (rangeKey index)).getD (rangeKey index) = rangeKey (index + 1) := by
  have hcast : ((index + 1 : Nat) : Int) = index + 1 := rfl
  have hlargest : Int64.maxValue.toInt = 9223372036854775807 := rfl
  rcases int64?_cases index (by omega) with ⟨hfits, v, hv, hvalue⟩ | ⟨hlarge, hv⟩
  · have hkey : rangeKey index = v := by
      rw [rangeKey, hv]
      rfl
    rw [hkey, successor?, hvalue, rangeKey, hcast]
    rcases int64?_cases (index + 1) (by omega) with ⟨-, w, hw, -⟩ | ⟨hlarge, hw⟩
    · rw [hw]
      rfl
    · rw [hw]
      show v = Int64.maxValue
      refine Int64.toInt_inj.mp ?_
      rw [hvalue, hlargest]
      omega
  · have hkey : rangeKey index = Int64.maxValue := by
      rw [rangeKey, hv]
      rfl
    rcases int64?_cases (index + 1) (by omega) with ⟨hfits, -⟩ | ⟨-, hw⟩
    · omega
    · rw [hkey, rangeKey, hcast, hw]
      rfl

/-- A range that has come to a position. -/
def rangeAt (first last : Int64) (index : Nat) : Iteration :=
  .range (Decimal.int64? (first.toInt + index)) last (rangeKey index)

theorem length_rangeEntries (first last : Int64) :
    (rangeEntries first last).length = (last.toInt + 1 - first.toInt).toNat := by
  rw [rangeEntries, List.length_map, List.length_range]

theorem next_rangeAt {first last : Int64} {index : Nat}
    (h : index < (rangeEntries first last).length) :
    (rangeAt first last index).next =
      ((rangeEntries first last)[index]?, rangeAt first last (index + 1)) := by
  rw [length_rangeEntries] at h
  have hfirst := first.le_toInt
  have hlast := last.toInt_lt
  have hcast : ((index + 1 : Nat) : Int) = index + 1 := rfl
  rcases int64?_cases (first.toInt + index) (by omega) with ⟨-, v, hv, hvalue⟩ | ⟨hlarge, -⟩
  · have hentry : (rangeEntries first last)[index]? = some (.int (rangeKey index), .int v) := by
      rw [rangeEntries, List.getElem?_map, List.getElem?_range h]
      show some (Value.int _, Value.int (Int64.ofInt (first.toInt + index))) = _
      rw [← hvalue, Int64.ofInt_toInt]
    have hle : v ≤ last := by
      rw [Int64.le_iff_toInt_le, hvalue]
      omega
    unfold rangeAt
    rw [hv, hentry]
    unfold next
    dsimp only
    rw [if_pos hle, rangeKey_succ, successor?, hvalue, hcast, Int.add_assoc]
  · omega

theorem between_eq_rangeAt (first last : Int64) : between first last = rangeAt first last 0 := by
  unfold between rangeAt
  rw [Int.natCast_zero, Int.add_zero, int64?_toInt]
  rfl

/-- A range that is used up stays where it is. -/
theorem next_rangeAt_length (first last : Int64) :
    (rangeAt first last (rangeEntries first last).length).next =
      (none, rangeAt first last (rangeEntries first last).length) := by
  have hpast : last.toInt < first.toInt + (rangeEntries first last).length := by
    rw [length_rangeEntries]
    omega
  have hfirst := first.le_toInt
  unfold rangeAt
  rcases int64?_cases (first.toInt + (rangeEntries first last).length) (by omega) with
    ⟨-, v, hv, hvalue⟩ | ⟨-, hv⟩
  · have hgt : ¬ v ≤ last := by
      rw [Int64.le_iff_toInt_le, hvalue]
      omega
    rw [hv]
    unfold next
    dsimp only
    rw [if_neg hgt]
  · rw [hv]
    rfl

theorem gives_between (first last : Int64) :
    ∃ rest, Gives (.between first last) (rangeEntries first last) rest := by
  rw [between_eq_rangeAt]
  exact gives_of_next (rangeAt first last) (fun index h => next_rangeAt h)
    (congrArg Prod.fst (next_rangeAt_length first last))

end Iteration

/-! ## Terms -/

section

variable {P : ∀ {α : Type}, StateM Store α → Prop} {α β : Type}

/-- A calculation that goes on, or stops. -/
theorem Store.Closed.andThen (hP : Store.Closed P) {x : Calculation α} {f : α → Calculation β}
    (hx : P x) (hf : ∀ a, P (f a)) :
    P (x >>= f : Calculation β) := by
  refine hP.bind (f := ExceptT.bindCont f) hx fun r => ?_
  cases r with
  | ok a => exact hf a
  | error e => exact hP.pure _

theorem Store.Closed.lifted (hP : Store.Closed P) {x : StateM Store α} (hx : P x) :
    P (liftM x : Calculation α) :=
  hP.bind hx fun a => hP.pure (Except.ok a)

theorem Store.Closed.choose (hP : Store.Closed P) (v : Value) {t f : Calculation α}
    (ht : P t) (hf : P f) :
    P (Calculation.choose v t f) := by
  unfold Calculation.choose
  split
  · exact ht
  · exact hf
  · exact hP.pure _

end

mutual

/-- A property of the basic operations holds of evaluating a term. -/
theorem Term.closed {P : ∀ {α : Type}, StateM Store α → Prop} (hP : Store.Closed P)
    (vars : Variable → Option Value) (t : Term) :
    P (t.evaluate vars) := by
  cases t with
  | const v => exact hP.pure _
  | var x =>
    unfold Term.evaluate
    split
    · exact hP.pure _
    · exact hP.andThen (hP.lifted (hP.nameOf x)) fun _ => hP.pure _
  | member a key => exact hP.andThen (a.closed hP vars) fun _ => hP.pure _
  | unary op a => exact hP.andThen (a.closed hP vars) fun x => hP.lifted (hP.unary op x)
  | binary op a b =>
    exact hP.andThen (a.closed hP vars) fun x => hP.andThen (b.closed hP vars) fun y =>
      hP.lifted (hP.binary op x y)
  | ternary op a b c =>
    exact hP.andThen (a.closed hP vars) fun _ => hP.andThen (b.closed hP vars) fun _ =>
      hP.andThen (c.closed hP vars) fun _ => hP.pure _
  | quaternary op a b c d =>
    exact hP.andThen (a.closed hP vars) fun _ => hP.andThen (b.closed hP vars) fun _ =>
      hP.andThen (c.closed hP vars) fun _ => hP.andThen (d.closed hP vars) fun _ => hP.pure _
  | object pairs =>
    exact hP.andThen (pairs.closed hP vars) fun values => hP.lifted (hP.makeObject values)
  | ite c t e =>
    exact hP.andThen (c.closed hP vars) fun x => hP.choose x (t.closed hP vars) (e.closed hP vars)
  | and a b =>
    exact hP.andThen (a.closed hP vars) fun x => hP.choose x (b.closed hP vars) (hP.pure _)
  | or a b =>
    exact hP.andThen (a.closed hP vars) fun x => hP.choose x (hP.pure _) (b.closed hP vars)

theorem TermPairs.closed {P : ∀ {α : Type}, StateM Store α → Prop} (hP : Store.Closed P)
    (vars : Variable → Option Value) (pairs : TermPairs) :
    P (pairs.evaluate vars) := by
  cases pairs with
  | nil => exact hP.pure _
  | cons key value rest =>
    exact hP.andThen (key.closed hP vars) fun _ => hP.andThen (value.closed hP vars) fun _ =>
      hP.andThen (rest.closed hP vars) fun _ => hP.pure _

end

/-! ## What does not look at iterators -/

namespace Store

/-- The store in which an iterator has come somewhere else. -/
def withIteration (handle : Nat) (it : Iteration) (st : Store) : Store :=
  { st with iterations := st.iterations.setIfInBounds handle it }

variable {α : Type}

/-- What is done does not depend on how far iterators have come, and moves none; at most it starts
more of them. Switches stay as they are. -/
structure Blind (x : StateM Store α) : Prop where
  size : ∀ st, st.iterations.size ≤ (x st).2.iterations.size
  interrupts : ∀ st, (x st).2.interrupts = st.interrupts
  moved : ∀ {st : Store} {handle : Nat} (it : Iteration), handle < st.iterations.size →
    x (st.withIteration handle it) = ((x st).1, (x st).2.withIteration handle it)

theorem Blind.of_eq {x : StateM Store α} (hx : Blind x) {r : α} {st st' : Store}
    (h : x st = (r, st')) :
    st.iterations.size ≤ st'.iterations.size ∧ st'.interrupts = st.interrupts ∧
      ∀ {handle : Nat} (it : Iteration), handle < st.iterations.size →
        x (st.withIteration handle it) = (r, st'.withIteration handle it) := by
  obtain rfl : r = (x st).1 := by rw [h]
  obtain rfl : st' = (x st).2 := by rw [h]
  exact ⟨hx.size st, hx.interrupts st, hx.moved⟩

theorem blind_newIterator (it : Iteration) : Blind (newIterator it) where
  size st := by
    show _ ≤ (st.iterations.push it).size
    rw [Array.size_push]
    exact Nat.le_succ _
  interrupts _ := rfl
  moved {st handle} other h := by
    unfold newIterator withIteration
    dsimp only
    rw [Array.size_setIfInBounds, Array.push_eq_append, Array.push_eq_append,
      Array.setIfInBounds_append_left h]

theorem closed_blind : Closed Blind where
  pure _ := ⟨fun _ => Nat.le_refl _, fun _ => rfl, fun _ _ => rfl⟩
  bind {_ _ x f} hx hf := {
    size := fun st => Nat.le_trans (hx.size st) ((hf _).size _)
    interrupts := fun st => ((hf _).interrupts _).trans (hx.interrupts st)
    moved := fun {st handle} it h => by
      show f (x (st.withIteration handle it)).1 (x (st.withIteration handle it)).2 = _
      rw [hx.moved it h]
      exact (hf _).moved it (Nat.lt_of_lt_of_le h (hx.size st)) }
  nameOf _ := ⟨fun _ => Nat.le_refl _, fun _ => rfl, fun _ _ => rfl⟩
  fresh := ⟨fun _ => Nat.le_refl _, fun _ => rfl, fun _ _ => rfl⟩
  newIterator := blind_newIterator

/-- Drawing from an iterator moves it and nothing else. -/
theorem drawEntry_withIteration {st : Store} {handle : Nat} {it rest : Iteration}
    {entry : Option Entry} (h : handle < st.iterations.size) (hnext : it.next = (entry, rest)) :
    drawEntry handle (st.withIteration handle it) = (entry, st.withIteration handle rest) := by
  unfold drawEntry withIteration
  dsimp only
  rw [Array.getElem?_setIfInBounds_self_of_lt h, Option.getD_some, hnext,
    Array.setIfInBounds_setIfInBounds]

/-- A new iterator is one that has come from nowhere to where it starts. -/
theorem newIterator_eq (it : Iteration) (st : Store) :
    (newIterator it st).2 =
      (newIterator .empty st).2.withIteration st.iterations.size it := by
  unfold newIterator withIteration
  dsimp only
  rw [Array.push_eq_append, Array.push_eq_append, Array.setIfInBounds_append_right (Nat.le_refl _),
    Nat.sub_self]
  rfl

end Store

end ReactiveScript
