import ReactiveScript.Proofs.Entries
import ReactiveScript.Proofs.MemberInPass

/-
  Lists as collections.

  Whether a collection is a list is kept in a flag; that its keys are the positions is then a fact
  about the entries. It holds of everything that is made by the operations on collections
  (`positional_of_made`), so a position, its decimal text as a key and the turn of an iteration come
  to the same entry. Joining lists joins their values (`concat_ofList`), and an entry with a key
  ends being a list for good (`Grown.isList`).
-/

namespace ReactiveScript

namespace Collection

variable {α : Type}

/-! ## What is made by the operations -/

/-- The collections that are made by the operations. -/
inductive Made : Collection α → Prop
  | empty : Made .empty
  | ofList (vs : List α) : Made (.ofList vs)
  | ofEntries (entries : List (Option String × α)) : Made (.ofEntries entries)
  | push {c : Collection α} (h : Made c) (key : Option String) (v : α) : Made (c.push key v)
  | concat {c d : Collection α} (hc : Made c) (hd : Made d) : Made (c.concat d)

theorem Made.built {c : Collection α} (h : c.Made) : c.Built := by
  induction h with
  | empty => exact .empty
  | ofList vs => exact built_ofEntries _
  | ofEntries entries => exact built_ofEntries entries
  | push _ key v ih => exact ih.push key v
  | @concat c d _ _ ih _ => exact ih.concat d

/-! ## Being a list -/

theorem isList_pushAll (c : Collection α) (entries : List (Option String × α)) :
    (c.pushAll entries).isList = (c.isList && entries.all fun entry => entry.1.isNone) := by
  induction entries generalizing c with
  | nil => exact (Bool.and_true _).symm
  | cons entry rest ih =>
    obtain ⟨key, v⟩ := entry
    rw [pushAll_cons, ih, List.all_cons]
    cases key with
    | none => rw [push_none_isList, Option.isNone_none, Bool.true_and]
    | some key => exact (Bool.false_and _).trans (Bool.and_false _).symm

/-- Two collections joined are a list if the first is one and the second is one or has no entry. -/
theorem isList_concat (c d : Collection α) :
    (c.concat d).isList = (c.isList && (d.isList || d.isEmpty)) := by
  rw [concat, isList_pushAll, unkeyed, List.all_map]
  cases hd : d.isList with
  | true => simp [Function.comp_def]
  | false => cases hentries : d.entries <;> simp [isEmpty, hentries]

theorem isEmpty_push (c : Collection α) (key : Option String) (v : α) :
    (c.push key v).isEmpty = false := by
  rw [isEmpty, entries_push]
  cases c.entries with
  | nil => rfl
  | cons entry rest =>
    unfold Assoc.insert
    split <;> rfl

/-- Entries stay when more are added. -/
theorem isEmpty_pushAll {c : Collection α} (h : c.isEmpty = false)
    (entries : List (Option String × α)) : (c.pushAll entries).isEmpty = false := by
  induction entries generalizing c with
  | nil => exact h
  | cons entry rest ih => exact ih (isEmpty_push c entry.1 entry.2)

/-- What comes of a collection by pushing more entries and by joining it with others, on either
side. -/
inductive Grown (c : Collection α) : Collection α → Prop
  | refl : Grown c c
  | push {d : Collection α} (h : Grown c d) (key : Option String) (v : α) : Grown c (d.push key v)
  | concat {d : Collection α} (h : Grown c d) (other : Collection α) : Grown c (d.concat other)
  | concatTo {d : Collection α} (h : Grown c d) (other : Collection α) : Grown c (other.concat d)

/-- What has an entry with a key never is a list again. -/
theorem Grown.isList {c d : Collection α} (h : c.Grown d) (hkeyed : c.isList = false)
    (hentries : c.isEmpty = false) : d.isList = false ∧ d.isEmpty = false := by
  induction h with
  | refl => exact ⟨hkeyed, hentries⟩
  | @push d _ key v ih =>
    refine ⟨?_, isEmpty_push d key v⟩
    cases key with
    | none => rw [push_none_isList, ih.1]
    | some key => exact push_some_isList d key v
  | @concat d _ other ih =>
    refine ⟨?_, isEmpty_pushAll ih.2 other.unkeyed⟩
    rw [isList_concat, ih.1, Bool.false_and]
  | @concatTo d _ other ih =>
    obtain ⟨hlist, hsome⟩ := ih
    refine ⟨?_, ?_⟩
    · rw [isList_concat, hlist, hsome, Bool.or_false, Bool.and_false]
    · cases hd : d.unkeyed with
      | nil =>
        rw [unkeyed, List.map_eq_nil_iff] at hd
        rw [isEmpty, hd] at hsome
        cases hsome
      | cons entry rest =>
        rw [Collection.concat, hd]
        exact isEmpty_pushAll (isEmpty_push other entry.1 entry.2) rest

/-! ## Joining lists -/

theorem isList_ofList (vs : List α) : (ofList vs).isList = true := by
  rw [ofList, ofEntries, isList_pushAll, List.all_map]
  simp [Function.comp_def, empty]

/-- A list has the values it is made of. -/
theorem values_ofList (vs : List α) : (ofList vs).values = vs := by
  have hextended : empty.Extended vs (empty.pushAll (vs.map fun v => (none, v))) :=
    (extended_unkeyed_iff empty vs).2 fun _ _ hmem => List.not_mem_nil hmem
  obtain ⟨added, hentries, hvalues⟩ := hextended
  rw [values, ofList, ofEntries, hentries]
  exact hvalues

theorem pushAll_append (c : Collection α) (xs ys : List (Option String × α)) :
    c.pushAll (xs ++ ys) = (c.pushAll xs).pushAll ys := List.foldl_append

theorem concat_ofList (xs ys : List α) : (ofList xs).concat (ofList ys) = ofList (xs ++ ys) := by
  rw [concat_of_isList _ (isList_ofList ys), values_ofList, ofList, ofList, ofEntries, ofEntries,
    List.map_append, pushAll_append]

/-! ## Positions -/

/-- In a list the text of a position and the position are the same to a reader. -/
theorem Built.lookup?_toString_of_isList {c : Collection α} (h : c.Built) (hlist : c.isList = true)
    (i : Nat) : c.lookup? (toString i) = c.nth? i := by
  rw [lookup?_toString, h.get?_toString hlist, Option.or_self]

/-- The text of a negative integer stands for no position. -/
theorem index?_toString_of_neg {n : Int} (hn : n < 0) : Decimal.index? (toString n) = none := by
  obtain ⟨m, rfl⟩ := Int.eq_negSucc_of_lt_zero hn
  unfold Decimal.index?
  rw [Decimal.toList_toString_negSucc]
  rfl

theorem Built.lookup?_toString_of_neg {c : Collection α} (h : c.Built) (hlist : c.isList = true)
    {n : Int} (hn : n < 0) : c.lookup? (toString n) = none := by
  have hindex : Decimal.index? (toString n) = none := index?_toString_of_neg hn
  have hkey : c.get? (toString n) = none := by
    refine Assoc.find?_eq_none_iff.2 fun hmem => ?_
    rw [show Assoc.keys c.entries = c.keys from rfl, h.keys_of_isList hlist] at hmem
    obtain ⟨i, -, hsame⟩ := List.mem_map.1 hmem
    rw [← hsame, Decimal.index?_toString] at hindex
    cases hindex
  rw [lookup?, hkey, hindex]
  rfl

end Collection

/-- A list has the same member under an integer and under its decimal text. -/
theorem Value.member_int_of_isList {c : Collection Value} (h : c.Built) (hlist : c.isList = true)
    (id : Ident) (n : Int64) :
    (Value.collection id c).member (.int n) =
      (Value.collection id c).member (.string (toString n.toInt)) := by
  have hfound : (position? n).bind c.nth? = c.lookup? (toString n.toInt) := by
    by_cases hn : n.toInt < 0
    · obtain ⟨m, hm⟩ := Int.eq_negSucc_of_lt_zero hn
      rw [h.lookup?_toString_of_neg hlist hn, position?, hm]
      rfl
    · obtain ⟨i, hi⟩ := Int.eq_ofNat_of_zero_le (Int.not_lt.1 hn)
      rw [position?, hi]
      exact (h.lookup?_toString_of_isList hlist i).symm
  show ((position? n).bind c.nth?).getD _ = (c.lookup? (toString n.toInt)).getD _
  rw [hfound]
  simp [display, inspect]

namespace Collection

/-- The entries of a list have their positions for keys. -/
theorem scriptEntries_of_isList {c : Collection Value} (hlist : c.isList = true) {n : Int64}
    {i : Nat} (hn : n.toInt = i) :
    c.scriptEntries[i]? = (c.nth? i).map fun v => (.int n, v) := by
  have hkey : Int64.ofNat i = n := by
    rw [← Int64.ofInt_toInt n, hn]
    rfl
  have hnth : c.values[i]? = c.nth? i := List.getElem?_map ..
  rw [scriptEntries, List.getElem?_map, List.getElem?_zipIdx, hnth, Option.map_map]
  cases c.nth? i with
  | none => rfl
  | some v => simp [scriptKey, hlist, hkey]

theorem values_scriptEntries (c : Collection Value) : c.scriptEntries.map Prod.snd = c.values := by
  simp [scriptEntries, Function.comp_def, List.zipIdx_map_fst]

/-- Whatever is made by the operations on collections: if it is a list, then its keys are the
positions in order; the text of a position, as a key or as a member's name, and an integer come to
the entry at that position, and iterating gives the values in order, each with its position. Lists
joined are the list of the values of both. Once an entry with a key is in it, it is no list after
any more entries and joins. -/
theorem positional_of_made {c : Collection Value} (hc : c.Made) :
    (c.isList = true →
      c.keys = (List.range c.length).map toString ∧
      (∀ i : Nat, c.get? (toString i) = c.nth? i ∧ c.lookup? (toString i) = c.nth? i) ∧
      (∀ id n, (Value.collection id c).member (.int n) =
        (Value.collection id c).member (.string (toString n.toInt))) ∧
      (∀ (id : Ident) (n : Int64) (i : Nat), n.toInt = i →
        (Value.collection id c).member? (.int n) = c.nth? i) ∧
      ∃ entries last, (Iteration.ofCollection c).Gives entries last ∧
        entries.map Prod.snd = c.values ∧
        ∀ (n : Int64) (i : Nat), n.toInt = i →
          entries[i]? = (c.nth? i).map fun v => (.int n, v)) ∧
    (∀ xs ys : List Value, (ofList xs).concat (ofList ys) = ofList (xs ++ ys)) ∧
    ∀ key v d, (c.push (some key) v).Grown d → d.isList = false := by
  have hbuilt : c.Built := hc.built
  refine ⟨fun hlist => ⟨hbuilt.keys_of_isList hlist, fun i => ?texts,
    Value.member_int_of_isList hbuilt hlist, fun id n i hn => ?position, ?turns⟩, concat_ofList,
    fun key v d hgrown => ?keyed⟩
  case texts =>
    exact ⟨hbuilt.get?_toString hlist i, hbuilt.lookup?_toString_of_isList hlist i⟩
  case position =>
    show (Value.position? n).bind c.nth? = c.nth? i
    rw [Value.position?, hn]
    rfl
  case turns =>
    obtain ⟨last, hgives⟩ := Iteration.gives_ofCollection c
    exact ⟨c.scriptEntries, last, hgives, values_scriptEntries c,
      fun n i hn => scriptEntries_of_isList hlist hn⟩
  case keyed =>
    exact (hgrown.isList (push_some_isList c key v) (isEmpty_push c (some key) v)).1

/-- A list of two values: under 1 and under the text of 1 is the second. -/
theorem positional_of_made_pair :
    ((ofList [.nil]).concat (ofList [Value.bool true])).keys = ["0", "1"] ∧
    ∀ id, (Value.collection id ((ofList [.nil]).concat (ofList [Value.bool true]))).member
      (.string "1") = .bool true := by
  have hmade : ((ofList [.nil]).concat (ofList [Value.bool true])).Made :=
    .concat (.ofList _) (.ofList _)
  obtain ⟨hkeys, -, hmember, -, -⟩ := (positional_of_made hmade).1 (by rfl)
  refine ⟨hkeys.trans (by decide), fun id => ?_⟩
  exact (hmember id 1).symm.trans (by rfl)

end Collection

end ReactiveScript
