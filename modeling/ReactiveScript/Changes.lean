/-
  Change masks.

  A change mask tells which kinds of downstream state an update made stale. Masks are joined by
  union; `none` is the mask without flags.
-/

namespace ReactiveScript

/-- The kinds of changes an update made. -/
structure Changes where
  /-- Something other than geometry or mask image. -/
  other : Bool
  /-- Position or size. -/
  size : Bool
  /-- The mask image. -/
  mask : Bool
  deriving DecidableEq, Repr, Inhabited

namespace Changes

/-- Nothing changed. -/
def none : Changes := ⟨false, false, false⟩

/-- The mask of the flag for other changes. -/
def otherOnly : Changes := ⟨true, false, false⟩

/-- The mask of the flag for geometry. -/
def sizeOnly : Changes := ⟨false, true, false⟩

/-- The mask of the flag for the mask image. -/
def maskOnly : Changes := ⟨false, false, true⟩

/-- All changes of both masks. -/
def union (a b : Changes) : Changes := ⟨a.other || b.other, a.size || b.size, a.mask || b.mask⟩

instance : Union Changes := ⟨union⟩

/-- Whether nothing changed. -/
def isEmpty (a : Changes) : Bool := a == none

/-- Whether every flag of `b` is set in `a`. -/
def contains (a b : Changes) : Bool := (a ∪ b) == a

/-- The flags as binary digits. -/
def bits (a : Changes) : Nat := a.other.toNat + 2 * a.size.toNat + 4 * a.mask.toNat

/-- The mask of a flag's name. -/
def ofName? : String → Option Changes
  | "none" => some none
  | "other" => some otherOnly
  | "size" => some sizeOnly
  | "mask" => some maskOnly
  | _ => Option.none

/-- The names of the flags that are set. -/
def flagNames (a : Changes) : List String :=
  (if a.other then ["other"] else []) ++ (if a.size then ["size"] else []) ++
    (if a.mask then ["mask"] else [])

/-- The text shown for a mask. -/
def text (a : Changes) : String := if a.isEmpty then "none" else "|".intercalate a.flagNames

@[simp] theorem union_none (a : Changes) : a ∪ none = a := by
  rcases a with ⟨_ | _, _ | _, _ | _⟩ <;> rfl

@[simp] theorem none_union (a : Changes) : none ∪ a = a := by
  rcases a with ⟨_ | _, _ | _, _ | _⟩ <;> rfl

theorem union_assoc (a b c : Changes) : (a ∪ b) ∪ c = a ∪ (b ∪ c) := by
  rcases a with ⟨_ | _, _ | _, _ | _⟩ <;> rcases b with ⟨_ | _, _ | _, _ | _⟩ <;>
    rcases c with ⟨_ | _, _ | _, _ | _⟩ <;> rfl

end Changes

end ReactiveScript
