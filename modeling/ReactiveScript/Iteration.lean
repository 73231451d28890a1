import ReactiveScript.Decimal.Numeral
import ReactiveScript.Value.Basic

/-
  Iterations.

  An iteration hands out pairs of key and value one by one: the entries of a collection, the
  integers of an inclusive range, what the host supplies, or nothing.
-/

namespace ReactiveScript

/-- A key with its value. -/
abbrev Entry := Value × Value

/-- How far an iteration has come. -/
inductive Iteration
  /-- The entries of a collection from position `pos` on. -/
  | collection (items : Collection Value) (pos : Nat)
  /-- The integers from `next`, if it is still in range, to `last`; the next key is `index`. -/
  | range (next : Option Int64) (last : Int64) (index : Int64)
  /-- What the host gives for the draws from number `drawn` on. -/
  | host (source : Nat → Option Entry) (drawn : Nat)
  | empty

/-- The key of a collection's entry as scripts see it: the position in a list, else the text key. -/
def Collection.scriptKey (items : Collection Value) (index : Nat) : Value :=
  if items.isList then .int (Int64.ofNat index)
  else match items.nthKey? index with
    | some key => .string key
    | none => .nil

/-- The integer after `n`, if there is one. -/
def successor? (n : Int64) : Option Int64 := Decimal.int64? (n.toInt + 1)

namespace Iteration

/-- An iteration over the entries of a collection. -/
def ofCollection (items : Collection Value) : Iteration := .collection items 0

/-- An iteration over the integers from `first` to `last`. -/
def between (first last : Int64) : Iteration := .range (some first) last 0

/-- An iteration over given entries. -/
def ofEntries (entries : List Entry) : Iteration := .host (fun i => entries[i]?) 0

/-- One element that stands for all elements while a pass has no data. -/
def standIn : Iteration := .ofEntries [(.int 0, .nil)]

/-- Draw the next entry, and where the iteration then stands. -/
def next : Iteration → Option Entry × Iteration
  | .collection items pos =>
    match items.nth? pos with
    | some value => (some (items.scriptKey pos, value), .collection items (pos + 1))
    | none => (none, .collection items pos)
  | .range next last index =>
    match next with
    | some value =>
      if value ≤ last then
        (some (.int index, .int value),
          .range (successor? value) last ((successor? index).getD index))
      else (none, .range next last index)
    | none => (none, .range next last index)
  | .host source drawn => (source drawn, .host source (drawn + 1))
  | .empty => (none, .empty)

/-- At most `count` entries, drawn until there is none. -/
def draw : Nat → Iteration → List Entry × Iteration
  | 0, it => ([], it)
  | count + 1, it =>
    match it.next with
    | (some entry, rest) =>
      let (entries, last) := draw count rest
      (entry :: entries, last)
    | (none, rest) => ([], rest)

end Iteration

end ReactiveScript
