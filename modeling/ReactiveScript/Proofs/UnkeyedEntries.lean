import ReactiveScript.Machine.Step

/-
  Entries without a key.

  An entry without a key goes under its position in decimal, in the same map as the keys that are
  given. It is added behind the others exactly if no entry has that text for its key; otherwise it
  takes the place of the one that has (`unkeyed_kept_iff`). In a list the keys are the positions, so
  nothing is ever lost there.
-/

namespace ReactiveScript

namespace Collection

variable {α : Type}

/-! ## Collections that are made entry by entry -/

/-- The collections that are made by pushing entries. -/
inductive Built : Collection α → Prop
  | empty : Built .empty
  | emptyKeyed : Built .emptyKeyed
  | push {c : Collection α} (h : Built c) (key : Option String) (v : α) : Built (c.push key v)

theorem Built.pushAll {c : Collection α} (h : c.Built) (entries : List (Option String × α)) :
    (c.pushAll entries).Built := by
  induction entries generalizing c with
  | nil => exact h
  | cons entry rest ih => exact ih (h.push entry.1 entry.2)

theorem built_ofEntries (entries : List (Option String × α)) : (ofEntries entries).Built :=
  Built.empty.pushAll entries

theorem Built.concat {c : Collection α} (h : c.Built) (d : Collection α) : (c.concat d).Built :=
  h.pushAll d.unkeyed

theorem Built.nodup_keys {c : Collection α} (h : c.Built) : c.keys.Nodup := by
  induction h with
  | empty | emptyKeyed => exact List.nodup_nil
  | push _ key v ih => exact nodup_keys_push ih key v

/-! ## One entry -/

/-- The key under which an entry is placed. -/
def placeOf (c : Collection α) (key : Option String) : String := key.getD (toString c.length)

theorem entries_push (c : Collection α) (key : Option String) (v : α) :
    (c.push key v).entries = Assoc.insert (c.placeOf key) v c.entries := by
  cases key <;> rfl

theorem entries_push_of_not_mem {c : Collection α} {key : Option String}
    (h : c.placeOf key ∉ c.keys) (v : α) :
    (c.push key v).entries = c.entries ++ [(c.placeOf key, v)] := by
  rw [entries_push]
  exact Assoc.insert_of_not_mem v h

theorem keys_push_of_not_mem {c : Collection α} {key : Option String} (h : c.placeOf key ∉ c.keys)
    (v : α) : (c.push key v).keys = c.keys ++ [c.placeOf key] := by
  simp [keys, entries_push_of_not_mem h v]

theorem keys_push_of_mem {c : Collection α} {key : Option String} (h : c.placeOf key ∈ c.keys)
    (v : α) : (c.push key v).keys = c.keys := by
  rw [keys, entries_push]
  exact Assoc.keys_insert_of_mem v h

theorem length_eq_keys (c : Collection α) : c.length = c.keys.length := by simp [length, keys]

theorem length_push (c : Collection α) (key : Option String) (v : α) :
    (c.push key v).length = c.length + if c.placeOf key ∈ c.keys then 0 else 1 := by
  by_cases h : c.placeOf key ∈ c.keys
  · simp [length_eq_keys, keys_push_of_mem h v, h]
  · simp [length_eq_keys, keys_push_of_not_mem h v, h]

/-- What is under each key after a push. -/
theorem get?_push (c : Collection α) (key : Option String) (v : α) (name : String) :
    (c.push key v).get? name = if c.placeOf key = name then some v else c.get? name := by
  rw [get?, entries_push]
  exact Assoc.find?_insert _ _ _ _

/-- No position from the end of a list on is a key of it, if its keys are the positions. -/
theorem toString_not_mem_positions {n k : Nat} (h : n ≤ k) :
    toString k ∉ (List.range n).map toString := by
  intro hmem
  obtain ⟨i, hi, hsame⟩ := List.mem_map.1 hmem
  have hlt : i < n := List.mem_range.1 hi
  have heq : i = k := Decimal.toString_inj.1 hsame
  omega

/-- In a list the keys are the positions. -/
theorem Built.keys_of_isList {c : Collection α} (h : c.Built) (hlist : c.isList = true) :
    c.keys = (List.range c.length).map toString := by
  induction h with
  | empty => rfl
  | emptyKeyed => cases hlist
  | push h key v ih =>
    rename_i c
    cases key with
    | some key => cases hlist
    | none =>
      have hkeys : c.keys = (List.range c.length).map toString := ih hlist
      have hfree : c.placeOf none ∉ c.keys := by
        rw [hkeys]
        exact toString_not_mem_positions (Nat.le_refl _)
      rw [keys_push_of_not_mem hfree, length_push, if_neg hfree, List.range_succ, List.map_append,
        hkeys]
      rfl

theorem Built.free_of_isList {c : Collection α} (h : c.Built) (hlist : c.isList = true)
    (i : Nat) : toString (c.length + i) ∉ c.keys := by
  rw [h.keys_of_isList hlist]
  exact toString_not_mem_positions (Nat.le_add_right _ _)

/-! ## Several entries -/

/-- The entries with the keys under which they are placed, one after the other. -/
def placed (c : Collection α) : List (Option String × α) → List (String × α)
  | [] => []
  | (key, v) :: rest => (c.placeOf key, v) :: (c.push key v).placed rest

/-- `d` has the entries of `c`, and behind them entries with the values `vs`. -/
def Extended (c : Collection α) (vs : List α) (d : Collection α) : Prop :=
  ∃ added, d.entries = c.entries ++ added ∧ added.map Prod.snd = vs

theorem pushAll_cons (c : Collection α) (key : Option String) (v : α)
    (rest : List (Option String × α)) :
    c.pushAll ((key, v) :: rest) = (c.push key v).pushAll rest := rfl

theorem values_placed (c : Collection α) (entries : List (Option String × α)) :
    (c.placed entries).map Prod.snd = entries.map Prod.snd := by
  induction entries generalizing c with
  | nil => rfl
  | cons entry rest ih => simp [placed, ih]

theorem length_pushAll_le (c : Collection α) (entries : List (Option String × α)) :
    (c.pushAll entries).length ≤ c.length + entries.length := by
  induction entries generalizing c with
  | nil => exact Nat.le_refl _
  | cons entry rest ih =>
    have hrest := ih (c.push entry.1 entry.2)
    have hone := length_push c entry.1 entry.2
    rw [pushAll_cons, List.length_cons]
    split at hone <;> omega

/-- Nothing is overwritten if there is one entry more for each that is pushed. -/
theorem entries_pushAll {c : Collection α} {entries : List (Option String × α)}
    (h : (c.pushAll entries).length = c.length + entries.length) :
    (c.pushAll entries).entries = c.entries ++ c.placed entries := by
  induction entries generalizing c with
  | nil => simp [pushAll, placed]
  | cons entry rest ih =>
    obtain ⟨key, v⟩ := entry
    have hle := length_pushAll_le (c.push key v) rest
    have hone := length_push c key v
    rw [pushAll_cons, List.length_cons] at h
    have hfree : c.placeOf key ∉ c.keys := by
      intro hmem
      rw [if_pos hmem] at hone
      omega
    rw [if_neg hfree] at hone
    rw [pushAll_cons, ih (by omega), entries_push_of_not_mem hfree]
    simp [placed]

/-- There is one entry more for each that is pushed exactly if the keys they are placed under are
distinct. -/
theorem length_pushAll_iff {c : Collection α} (hc : c.keys.Nodup)
    (entries : List (Option String × α)) :
    (c.pushAll entries).length = c.length + entries.length ↔
      (c.keys ++ Assoc.keys (c.placed entries)).Nodup := by
  refine ⟨fun h => ?_, fun h => ?_⟩
  · have hkeys := nodup_keys_pushAll hc entries
    rwa [keys, entries_pushAll h, Assoc.keys_append] at hkeys
  · induction entries generalizing c with
    | nil => rfl
    | cons entry rest ih =>
      obtain ⟨key, v⟩ := entry
      have hfree : c.placeOf key ∉ c.keys := fun hmem =>
        (List.nodup_append.1 h).2.2 _ hmem _ List.mem_cons_self rfl
      have hrest := ih (nodup_keys_push hc key v) (by
        rw [keys_push_of_not_mem hfree]
        simpa [placed] using h)
      rw [pushAll_cons, hrest, length_push, if_neg hfree, List.length_cons]
      omega

theorem extended_pushAll_iff (c : Collection α) (entries : List (Option String × α)) :
    c.Extended (entries.map Prod.snd) (c.pushAll entries) ↔
      (c.pushAll entries).length = c.length + entries.length := by
  refine ⟨fun ⟨added, hentries, hvalues⟩ => ?_, fun h => ?_⟩
  · have hlength := congrArg List.length hvalues
    simp only [List.length_map] at hlength
    simp [length, hentries, hlength]
  · exact ⟨c.placed entries, entries_pushAll h, values_placed c entries⟩

/-- Each key has the value that was placed under it last. -/
theorem get?_pushAll (c : Collection α) (entries : List (Option String × α)) (name : String) :
    (c.pushAll entries).get? name = Assoc.find? name ((c.placed entries).reverse ++ c.entries) := by
  suffices h : ∀ entries : List (Option String × α), ∀ c : Collection α, ∀ below,
      (∀ name, c.get? name = Assoc.find? name below) →
      (c.pushAll entries).get? name = Assoc.find? name ((c.placed entries).reverse ++ below) from
    h entries c c.entries fun _ => rfl
  intro entries
  induction entries with
  | nil => exact fun c below h => h name
  | cons entry rest ih =>
    obtain ⟨key, v⟩ := entry
    intro c below h
    have hnext := ih (c.push key v) ((c.placeOf key, v) :: below) fun name => by
      rw [get?_push, h name]
      rfl
    rw [pushAll_cons, hnext]
    simp [placed]

/-! ## Values without keys -/

/-- Values are all kept exactly if none of the positions they come to is a key. -/
theorem length_pushAll_unkeyed_iff (c : Collection α) (vs : List α) :
    (c.pushAll (vs.map fun v => (none, v))).length = c.length + vs.length ↔
      ∀ i < vs.length, toString (c.length + i) ∉ c.keys := by
  induction vs generalizing c with
  | nil => simp [pushAll]
  | cons v rest ih =>
    rw [List.map_cons, pushAll_cons, List.length_cons]
    by_cases hfree : c.placeOf none ∈ c.keys
    · have hle := length_pushAll_le (c.push none v) (rest.map fun v => (none, v))
      rw [length_push, if_pos hfree, List.length_map] at hle
      refine iff_of_false (by omega) fun h => h 0 (by omega) hfree
    · have hone : (c.push none v).length = c.length + 1 := by rw [length_push, if_neg hfree]
      have hrest := ih (c.push none v)
      rw [hone, keys_push_of_not_mem hfree] at hrest
      have hsum : c.length + (rest.length + 1) = c.length + 1 + rest.length := by omega
      rw [hsum, hrest]
      refine ⟨fun h i hi => ?_, fun h i hi hmem => ?_⟩
      · cases i with
        | zero => exact hfree
        | succ i =>
          have hnot := h i (by omega)
          rw [Nat.add_right_comm] at hnot
          exact fun hmem => hnot (List.mem_append_left _ hmem)
      · rcases List.mem_append.1 hmem with hmem | hmem
        · exact h (i + 1) (by omega) (by rwa [Nat.add_right_comm] at hmem)
        · have hsame := Decimal.toString_inj.1 (List.mem_singleton.1 hmem)
          omega

theorem extended_unkeyed_iff (c : Collection α) (vs : List α) :
    c.Extended vs (c.pushAll (vs.map fun v => (none, v))) ↔
      ∀ i < vs.length, toString (c.length + i) ∉ c.keys := by
  have h := extended_pushAll_iff c (vs.map fun v => (none, v))
  rw [List.length_map, List.map_map, length_pushAll_unkeyed_iff] at h
  simpa [Function.comp_def] using h

/-- A list is added without its keys. -/
theorem concat_of_isList (c : Collection α) {l : Collection α} (hl : l.isList = true) :
    c.concat l = c.pushAll (l.values.map fun v => (none, v)) := by
  simp [concat, unkeyed, values, hl, Function.comp_def]

theorem length_values (c : Collection α) : c.values.length = c.length := by simp [values, length]

theorem nodup_placed_unkeyed {entries : List (Option String × α)}
    (h : ∀ entry ∈ entries, entry.1 = none) :
    (Assoc.keys ((empty : Collection α).placed entries)).Nodup := by
  have hvalues : (entries.map Prod.snd).map (fun v => (none, v)) = entries := by
    rw [List.map_map]
    refine (List.map_congr_left fun entry hmem => ?_).trans (List.map_id entries)
    exact Prod.ext (h entry hmem).symm rfl
  have hlength := (length_pushAll_unkeyed_iff empty (entries.map Prod.snd)).2
    fun _ _ hmem => List.not_mem_nil hmem
  rw [hvalues, List.length_map] at hlength
  exact (length_pushAll_iff Built.empty.nodup_keys entries).1 hlength

end Collection

/-! ## MAKE_OBJECT -/

/-- The pairs of key and value with their keys as texts. -/
def keyedPairs : List Value → Except EvalError (List (Option String × Value))
  | key :: v :: rest => do
    let key ← pairKey key
    let pairs ← keyedPairs rest
    return (key, v) :: pairs
  | _ => .ok []

theorem pushPairs_eq (values : List Value) (c : Collection Value) :
    pushPairs c values = (keyedPairs values).map c.pushAll := by
  induction values using keyedPairs.induct generalizing c with
  | case1 key v rest ih =>
    cases hkey : pairKey key with
    | error e => simp [pushPairs, keyedPairs, hkey, bind, Except.bind, Except.map]
    | ok key =>
      cases hrest : keyedPairs rest <;>
        simp [pushPairs, keyedPairs, hkey, ih, hrest, bind, Except.bind, Except.map, pure,
          Except.pure, Collection.pushAll_cons]
  | case2 values hshort =>
    unfold pushPairs keyedPairs
    cases values with
    | nil => rfl
    | cons _ rest =>
      cases rest with
      | nil => rfl
      | cons v rest => exact absurd rfl (hshort _ _ _)

theorem Collection.Built.pushPairs {c d : Collection Value} (h : c.Built) {values : List Value}
    (hd : ReactiveScript.pushPairs c values = .ok d) : d.Built := by
  rw [pushPairs_eq] at hd
  cases hpairs : keyedPairs values with
  | error e =>
    rw [hpairs] at hd
    cases hd
  | ok pairs =>
    rw [hpairs] at hd
    cases hd
    exact h.pushAll pairs

theorem makeObject_eq {values : List Value} {pairs : List (Option String × Value)}
    (h : keyedPairs values = .ok pairs) (s : Store) :
    (makeObject values s).1 = .collection s.nextIdent (.ofEntries pairs) := by
  simp only [makeObject, pushPairs_eq, h]
  rfl

/-! ## What is kept -/

namespace Collection

/-- A value that is pushed without a key comes behind all others exactly if the text of its position
is not a key; otherwise it takes the place of the value under that key. The values of a list that is
added are all kept exactly if none of the positions they come to is a key, which holds if they are
added to a list. MAKE_OBJECT keeps all values exactly if the keys they are placed under are
distinct, which holds if none has a key; under each key is the value that was placed there last. -/
theorem unkeyed_kept_iff {c : Collection Value} (hc : c.Built) :
    (∀ v, c.Extended [v] (c.push none v) ↔ toString c.length ∉ c.keys) ∧
    (∀ v, toString c.length ∈ c.keys → (c.push none v).keys = c.keys ∧
      ∀ name, (c.push none v).get? name =
        if toString c.length = name then some v else c.get? name) ∧
    (∀ l : Collection Value, l.isList = true →
      (c.Extended l.values (c.concat l) ↔ ∀ i < l.length, toString (c.length + i) ∉ c.keys) ∧
      ((c.concat l).length = c.length + l.length ↔
        ∀ i < l.length, toString (c.length + i) ∉ c.keys)) ∧
    (c.isList = true → ∀ i, toString (c.length + i) ∉ c.keys) ∧
    ∀ values pairs, keyedPairs values = .ok pairs →
      (∀ s, (makeObject values s).1 = .collection s.nextIdent (.ofEntries pairs)) ∧
      (Extended .empty (pairs.map Prod.snd) (.ofEntries pairs) ↔
        (Assoc.keys ((empty : Collection Value).placed pairs)).Nodup) ∧
      ((∀ pair ∈ pairs, pair.1 = none) →
        (Assoc.keys ((empty : Collection Value).placed pairs)).Nodup) ∧
      ∀ name, (ofEntries pairs).get? name =
        Assoc.find? name ((empty : Collection Value).placed pairs).reverse := by
  refine ⟨fun v => ?push, fun v hmem => ⟨keys_push_of_mem hmem v, get?_push c none v⟩,
    fun l hl => ?concat, hc.free_of_isList,
    fun values pairs hpairs => ⟨makeObject_eq hpairs, ?made, nodup_placed_unkeyed, ?last⟩⟩
  case push => simpa [pushAll] using extended_unkeyed_iff c [v]
  case concat =>
    rw [concat_of_isList c hl, ← length_values l]
    exact ⟨extended_unkeyed_iff c l.values, length_pushAll_unkeyed_iff c l.values⟩
  case made =>
    rw [ofEntries, extended_pushAll_iff]
    exact length_pushAll_iff Built.empty.nodup_keys pairs
  case last =>
    have hlast := get?_pushAll (empty : Collection Value) pairs
    simpa only [ofEntries, empty, List.append_nil] using hlast

/-- The value under the key `1` is lost to one that is pushed at position 1. -/
theorem unkeyed_kept_iff_takenPosition :
    ¬ (empty.push (some "1") (Value.string "a")).Extended [.string "b"]
      ((empty.push (some "1") (Value.string "a")).push none (.string "b")) := by
  intro hkept
  have hbuilt : (empty.push (some "1") (Value.string "a")).Built := Built.empty.push _ _
  exact ((unkeyed_kept_iff hbuilt).1 (.string "b")).1 hkept (by decide)

end Collection

end ReactiveScript
