import ReactiveScript.Assoc

/-
  Collections.

  A collection is an ordered map from text keys to entries. An entry added without a key goes under
  its position in decimal, so a collection filled only that way, a list, has the keys `0`, `1`, ...
  A collection is a list until an entry with a key is added. `concat` adds the entries of a list
  without their keys and those of any other collection with them.
-/

namespace ReactiveScript

/-- Entries in insertion order, and whether all of them were added without a key. -/
structure Collection (α : Type) where
  entries : List (String × α)
  isList : Bool
  deriving DecidableEq, Repr, Inhabited

namespace Collection

variable {α : Type}

/-- The list without entries. -/
def empty : Collection α := ⟨[], true⟩

/-- The keyed collection without entries. -/
def emptyKeyed : Collection α := ⟨[], false⟩

/-- Add an entry; one without a key goes under its position. -/
def push (c : Collection α) (key : Option String) (value : α) : Collection α :=
  match key with
  | some key => ⟨Assoc.insert key value c.entries, false⟩
  | none => ⟨Assoc.insert (toString c.entries.length) value c.entries, c.isList⟩

/-- Add entries in order. -/
def pushAll (c : Collection α) (entries : List (Option String × α)) : Collection α :=
  entries.foldl (fun c entry => c.push entry.1 entry.2) c

/-- The collection of the given entries. -/
def ofEntries (entries : List (Option String × α)) : Collection α := empty.pushAll entries

/-- The list of the given values. -/
def ofList (values : List α) : Collection α := ofEntries (values.map fun v => (none, v))

/-- The number of entries. -/
def length (c : Collection α) : Nat := c.entries.length

/-- Whether there are no entries. -/
def isEmpty (c : Collection α) : Bool := c.entries.isEmpty

/-- The value under a key. -/
def get? (c : Collection α) (key : String) : Option α := Assoc.find? key c.entries

/-- The value at a position. -/
def nth? (c : Collection α) (index : Nat) : Option α := (c.entries[index]?).map Prod.snd

/-- The text key at a position. -/
def nthKey? (c : Collection α) (index : Nat) : Option String := (c.entries[index]?).map Prod.fst

/-- The keys in order. -/
def keys (c : Collection α) : List String := Assoc.keys c.entries

/-- The values in order. -/
def values (c : Collection α) : List α := c.entries.map Prod.snd

/-- The entries of `c` as they are added to another collection. -/
def unkeyed (c : Collection α) : List (Option String × α) :=
  c.entries.map fun entry => (if c.isList then none else some entry.1, entry.2)

/-- The entries of both collections, those of the second added to the first. -/
def concat (c d : Collection α) : Collection α := c.pushAll d.unkeyed

@[simp] theorem push_none_isList (c : Collection α) (v : α) : (c.push none v).isList = c.isList :=
  rfl

@[simp] theorem push_some_isList (c : Collection α) (k : String) (v : α) :
    (c.push (some k) v).isList = false := rfl

theorem nodup_keys_push {c : Collection α} (h : c.keys.Nodup) (key : Option String) (v : α) :
    (c.push key v).keys.Nodup := by
  cases key <;> exact Assoc.nodup_keys_insert _ _ h

theorem nodup_keys_pushAll {c : Collection α} (h : c.keys.Nodup)
    (entries : List (Option String × α)) : (c.pushAll entries).keys.Nodup := by
  induction entries generalizing c with
  | nil => exact h
  | cons entry rest ih => exact ih (nodup_keys_push h entry.1 entry.2)

end Collection

end ReactiveScript
