import ReactiveScript.Proofs.UnkeyedEntries
import ReactiveScript.Tracking.Alternatives

/-
  Members of a collection in a pass.

  Normal evaluation reads a collection by position under an integer and by key under a text. A pass
  turns every key into text first. So under an integer it comes upon the entry that has the decimal
  text of the integer for its key, if there is one, and only otherwise upon the one at the position
  (`memberInPassAt_int`). The two agree exactly if such an entry looks the same
  (`memberInPass_iff`); under a text they always agree.
-/

namespace ReactiveScript

/-! ## Normal evaluation -/

namespace Value

theorem member?_of_member {object key v : Value} (h : object.member key = v)
    (hv : ∀ e, v ≠ .error e) : object.member? key = some v := by
  unfold member at h
  split at h
  · next e => exact absurd h.symm (hv e)
  · next e _ => exact absurd h.symm (hv e)
  · cases hm : object.member? key with
    | some u =>
      rw [hm, Option.getD_some] at h
      rw [h]
    | none =>
      rw [hm, Option.getD_none] at h
      exact absurd h.symm (hv _)

/-- What is read from a collection is found under a text, or at a position. -/
theorem member_collection_cases {id : Ident} {items : Collection Value} {key v : Value}
    (h : (Value.collection id items).member key = v) (hv : ∀ e, v ≠ .error e) :
    (∃ name, key = .string name ∧ items.lookup? name = some v) ∨
      ∃ n i, key = .int n ∧ n.toInt = ((i : Nat) : Int) ∧ items.nth? i = some v := by
  have hfound := member?_of_member h hv
  cases key with
  | string name => exact .inl ⟨name, rfl, hfound⟩
  | int n =>
    obtain ⟨i, hi, hnth⟩ := Option.bind_eq_some_iff.1 hfound
    have hpos : n.toInt = (i : Int) := by
      have hmem := Int.mem_toNat?.1 hi
      exact hmem
    exact .inr ⟨n, i, rfl, hpos, hnth⟩
  | _ => exact absurd hfound (by simp [member?])

/-! ## A pass -/

/-- What a pass takes for a value that it finds: an error is nothing. -/
def orNil : Value → Value
  | .error _ => .nil
  | v => v

theorem orNil_of_ne {v : Value} (h : ∀ e, v ≠ .error e) : v.orNil = v := by
  cases v with
  | error e => exact absurd rfl (h e)
  | _ => rfl

theorem toText_int (n : Int64) : (Value.int n).toText = .ok (toString n.toInt) := by
  simp [toText, display, inspect]

theorem memberInPass_collection (id : Ident) (items : Collection Value) (name : String)
    (dep : Dependency) (st : Store) :
    (Value.collection id items).memberInPass name dep st =
      (((items.lookup? name).getD .nil).orNil, st) := by
  unfold memberInPass
  cases hfound : items.lookup? name with
  | none => simp [member, member?, hfound, orNil]; rfl
  | some v => cases v <;> simp [member, member?, hfound, orNil] <;> rfl

end Value

namespace Collection

variable {α : Type}

/-- Under the text of a position is the entry with that key, or else the one at the position. -/
theorem lookup?_toString (c : Collection α) (i : Nat) :
    c.lookup? (toString i) = (c.get? (toString i)).or (c.nth? i) := by
  unfold lookup?
  rw [Decimal.index?_toString]
  cases c.get? (toString i) <;> rfl

/-- In a list the entry under the text of a position is the one at the position. -/
theorem Built.get?_toString {c : Collection α} (h : c.Built) (hlist : c.isList = true) (i : Nat) :
    c.get? (toString i) = c.nth? i := by
  induction h with
  | empty => rfl
  | emptyKeyed => cases hlist
  | push h key v ih =>
    rename_i c
    cases key with
    | some key => cases hlist
    | none =>
      have hfree : c.placeOf none ∉ c.keys := h.free_of_isList hlist 0
      have hnth : (c.push none v).nth? i = if i = c.length then some v else c.nth? i := by
        unfold nth?
        rw [entries_push_of_not_mem hfree, List.getElem?_append]
        by_cases hi : i < c.entries.length
        · rw [if_pos hi, if_neg (by unfold length; omega)]
        · by_cases hend : i = c.length
          · simp [hend, length]
          · have hpast : i - c.entries.length ≠ 0 := by unfold length at hend; omega
            simp [hi, hend, hpast]
      rw [get?_push, hnth, ih hlist]
      simp only [placeOf, Option.getD_none, Decimal.toString_inj, eq_comm]

end Collection

/-! ## Where they agree -/

namespace Value

theorem memberInPassAt_string (id : Ident) (items : Collection Value) (name : String)
    (dep : Dependency) (st : Store) :
    (Value.collection id items).memberInPassAt (.string name) dep st =
      (((items.lookup? name).getD .nil).orNil, st) :=
  memberInPass_collection id items name dep st

/-- Under an integer that is a position a pass finds the entry with its text for a key, or else the
one at the position. -/
theorem memberInPassAt_int (id : Ident) (items : Collection Value) {n : Int64} {i : Nat}
    (hn : n.toInt = i) (dep : Dependency) (st : Store) :
    (Value.collection id items).memberInPassAt (.int n) dep st =
      ((((items.get? (toString i)).or (items.nth? i)).getD .nil).orNil, st) := by
  have htext : toString n.toInt = toString i := by rw [hn]; rfl
  unfold memberInPassAt
  rw [toText_int, htext, ← Collection.lookup?_toString]
  exact memberInPass_collection id items (toString i) dep st

/-- Where normal evaluation reads a value from a collection, a pass reads the same, in MEMBER as in
MEMBER_C and leaving everything as it is, exactly if the key is no integer or an entry that has the
text of the integer for its key looks like the one at the position. So it does in every list, and
wherever no key is the text of the integer. -/
theorem memberInPass_iff {id : Ident} {items : Collection Value} {key v : Value}
    (h : (Value.collection id items).member key = v) (hv : ∀ e, v ≠ .error e) :
    ((∀ dep st, (Value.collection id items).memberInPassAt key dep st = (v, st) ∧
        (Value.collection id items).binaryInPass .member key dep st = (v, st)) ↔
      ∀ n, key = .int n → ∀ u, items.get? (toString n.toInt) = some u → u.orNil = v) ∧
    (items.Built → items.isList = true →
      ∀ n, key = .int n → ∀ u, items.get? (toString n.toInt) = some u → u.orNil = v) := by
  obtain ⟨name, rfl, hfound⟩ | ⟨n, i, rfl, hn, hnth⟩ := member_collection_cases h hv
  · have htext : ∀ n, Value.string name = .int n → ∀ u,
        items.get? (toString n.toInt) = some u → u.orNil = v := fun n hkey => nomatch hkey
    refine ⟨iff_of_true (fun dep st => ?_) htext, fun _ _ => htext⟩
    have hread := memberInPassAt_string id items name dep st
    rw [hfound, Option.getD_some, orNil_of_ne hv] at hread
    exact ⟨hread, hread⟩
  · have htext : toString n.toInt = toString i := by rw [hn]; rfl
    refine ⟨⟨fun hpass m hkey u hu => ?_, fun hsame dep st => ?_⟩, fun hbuilt hlist m hkey u hu => ?_⟩
    · cases hkey
      have hread := (hpass ⟨.cardField, 0⟩ .empty).1
      rw [memberInPassAt_int id items hn, ← htext, hu] at hread
      exact congrArg Prod.fst hread
    · have hread := memberInPassAt_int id items hn dep st
      have hentry : (((items.get? (toString i)).or (items.nth? i)).getD .nil).orNil = v := by
        cases hu : items.get? (toString i) with
        | none => simpa [hnth] using orNil_of_ne hv
        | some u => simpa using hsame n rfl u (htext ▸ hu)
      rw [hentry] at hread
      exact ⟨hread, hread⟩
    · cases hkey
      rw [htext, hbuilt.get?_toString hlist, hnth] at hu
      cases hu
      exact orNil_of_ne hv

/-- Two entries, the second with the text of the first position for its key. -/
def crossedEntries : Collection Value := .ofEntries [(some "a", .int 1), (some "0", .int 2)]

/-- At position 0 is the value 1, but a pass reads the value 2. -/
theorem memberInPass_iff_crossedEntries :
    (Value.collection 0 crossedEntries).member (.int 0) = .int 1 ∧
      ¬ ∀ dep st, (Value.collection 0 crossedEntries).memberInPassAt (.int 0) dep st =
          (.int 1, st) ∧
        (Value.collection 0 crossedEntries).binaryInPass .member (.int 0) dep st =
          (.int 1, st) := by
  have hmember : (Value.collection 0 crossedEntries).member (.int 0) = .int 1 := by rfl
  refine ⟨hmember, fun hpass => ?_⟩
  have hsame := (memberInPass_iff hmember nofun).1.1 hpass 0 rfl (.int 2) (by rfl)
  cases hsame

end Value

end ReactiveScript
