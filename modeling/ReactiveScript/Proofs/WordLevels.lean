import ReactiveScript.Environment

/-
  Levels counted in 32 bits.

  An environment counts the open scopes without bound. A counter of 32 bits does the same while fewer
  than `UInt32.size` scopes are open; one more scope, and it starts again at 0. `WordEnvironment` is an
  environment with such counters, and `Environment.toWord` cuts the levels of an environment down to
  them. While all levels fit (`Fits`), each operation does the same on both sides (`toWord_set`,
  `toWord_enterScope`, `toWord_leaveScope`), and both look the same (`Fits.get?`, `Fits.distance?`).
-/

namespace ReactiveScript

/-- The value of a variable and the level at which it was bound, in 32 bits. -/
structure WordSlot where
  level : UInt32
  value : Value

/-- Variables as in `Environment`, with levels of 32 bits. -/
structure WordEnvironment where
  slots : List (Variable × WordSlot)
  shadowed : List (Variable × Option WordSlot)
  level : UInt32

/-- The difference of two levels, 0 if it would be negative. -/
def levelsAbove (level lower : UInt32) : UInt32 := if lower ≤ level then level - lower else 0

namespace WordEnvironment

open Environment (unwind)

def empty : WordEnvironment := ⟨[], [], 0⟩

def slot? (env : WordEnvironment) (var : Variable) : Option WordSlot := Assoc.find? var env.slots

def get? (env : WordEnvironment) (var : Variable) : Option Value :=
  (env.slot? var).map WordSlot.value

def distance? (env : WordEnvironment) (var : Variable) : Option UInt32 :=
  (env.slot? var).map fun slot => levelsAbove env.level slot.level

def hiddenCount (env : WordEnvironment) : Nat := env.shadowed.length

/-- Enter a scope. After the last level comes level 0. -/
def enterScope (env : WordEnvironment) : Nat × WordEnvironment :=
  (env.hiddenCount, { env with level := env.level + 1 })

def leaveScope (env : WordEnvironment) (mark : Nat) : WordEnvironment :=
  let (shadowed, slots) := unwind mark env.shadowed env.slots
  { shadowed, slots, level := levelsAbove env.level 1 }

def hides (env : WordEnvironment) (var : Variable) : Bool :=
  env.level > 0 &&
    match env.slot? var with
    | some slot => slot.level < env.level
    | none => true

def set (env : WordEnvironment) (var : Variable) (value : Value) : WordEnvironment :=
  { env with
    slots := Assoc.insert var ⟨env.level, value⟩ env.slots
    shadowed := if env.hides var then (var, env.slot? var) :: env.shadowed else env.shadowed }

end WordEnvironment

/-! ## Cutting levels down -/

def Slot.toWord (slot : Slot) : WordSlot := ⟨.ofNat slot.level, slot.value⟩

namespace Environment

/-- The environment with its levels cut down to 32 bits. -/
def toWord (env : Environment) : WordEnvironment where
  slots := Assoc.mapValues Slot.toWord env.slots
  shadowed := Assoc.mapValues (Option.map Slot.toWord) env.shadowed
  level := .ofNat env.level

/-- All levels fit into 32 bits. -/
structure Fits (env : Environment) : Prop where
  level : env.level < UInt32.size
  slots : ∀ b ∈ env.slots, b.2.level < UInt32.size
  shadowed : ∀ b ∈ env.shadowed, ∀ slot ∈ b.2, slot.level < UInt32.size

theorem fits_empty : Fits .empty := ⟨by decide, nofun, nofun⟩

variable {env : Environment}

theorem Fits.slot? (h : env.Fits) {var : Variable} {slot : Slot}
    (hslot : env.slot? var = some slot) : slot.level < UInt32.size :=
  h.slots _ (Assoc.mem_of_find? hslot)

/-! ### Looking at variables -/

theorem slot?_toWord (env : Environment) (var : Variable) :
    env.toWord.slot? var = (env.slot? var).map Slot.toWord := Assoc.find?_mapValues ..

theorem get?_toWord (env : Environment) (var : Variable) :
    env.toWord.get? var = env.get? var := by
  unfold WordEnvironment.get? Environment.get?
  rw [slot?_toWord, Option.map_map]
  rfl

theorem hiddenCount_toWord (env : Environment) : env.toWord.hiddenCount = env.hiddenCount :=
  Assoc.length_mapValues ..

theorem Fits.toNat_level (h : env.Fits) : env.toWord.level.toNat = env.level :=
  UInt32.toNat_ofNat_of_lt' h.level

theorem levelsAbove_ofNat {level lower : Nat} (h : level < UInt32.size)
    (h' : lower < UInt32.size) :
    levelsAbove (.ofNat level) (.ofNat lower) = .ofNat (level - lower) := by
  have hlevel := UInt32.toNat_ofNat_of_lt' h
  have hlower := UInt32.toNat_ofNat_of_lt' h'
  unfold levelsAbove
  apply UInt32.toNat.inj
  rw [UInt32.toNat_ofNat_of_lt' (show level - lower < UInt32.size by omega)]
  split
  · next hle =>
    rw [UInt32.toNat_sub_of_le _ _ hle, hlevel, hlower]
  · next hle =>
    rw [UInt32.le_iff_toNat_le, hlevel, hlower] at hle
    show 0 = level - lower
    omega

theorem Fits.distance? (h : env.Fits) (var : Variable) :
    (env.toWord.distance? var).map UInt32.toNat = env.distance? var := by
  unfold WordEnvironment.distance? Environment.distance?
  rw [slot?_toWord, Option.map_map, Option.map_map]
  cases hslot : env.slot? var with
  | none => rfl
  | some slot =>
    have hdistance : env.level - slot.level < UInt32.size := by
      have hlevel := h.level
      omega
    show some (levelsAbove (.ofNat env.level) (.ofNat slot.level)).toNat = _
    rw [levelsAbove_ofNat h.level (h.slot? hslot), UInt32.toNat_ofNat_of_lt' hdistance]
    rfl

/-! ### Operations -/

theorem toWord_enterScope (env : Environment) :
    env.enterScope.2.toWord = env.toWord.enterScope.2 := by
  show WordEnvironment.mk _ _ (UInt32.ofNat (env.level + 1)) = _
  rw [UInt32.ofNat_add]
  rfl

theorem Fits.enterScope (h : env.Fits) (hroom : env.level + 1 < UInt32.size) :
    env.enterScope.2.Fits := ⟨hroom, h.slots, h.shadowed⟩

theorem Fits.hides_toWord (h : env.Fits) (var : Variable) :
    env.toWord.hides var = env.hides var := by
  unfold WordEnvironment.hides Environment.hides
  have hpositive : (env.toWord.level > 0) ↔ env.level > 0 := by
    show (0 : UInt32) < env.toWord.level ↔ _
    rw [UInt32.lt_iff_toNat_lt, h.toNat_level]
    rfl
  rw [slot?_toWord]
  cases hslot : env.slot? var with
  | none => simp [hpositive]
  | some slot =>
    have hlower : slot.toWord.level.toNat = slot.level := UInt32.toNat_ofNat_of_lt' (h.slot? hslot)
    simp [hpositive, UInt32.lt_iff_toNat_lt, h.toNat_level, hlower]

theorem Fits.toWord_set (h : env.Fits) (var : Variable) (v : Value) :
    (env.set var v).toWord = env.toWord.set var v := by
  unfold WordEnvironment.set
  rw [h.hides_toWord, slot?_toWord]
  unfold toWord Environment.set
  rw [Assoc.mapValues_insert]
  cases env.hides var <;> rfl

theorem Fits.set (h : env.Fits) (var : Variable) (v : Value) : (env.set var v).Fits := by
  refine ⟨h.level, fun b hb => ?_, fun b hb slot hslot => ?_⟩
  · rcases Assoc.mem_insert hb with hb | hb
    · rw [hb]
      exact h.level
    · exact h.slots b hb
  · unfold Environment.set at hb
    dsimp only at hb
    split at hb
    · rcases List.mem_cons.mp hb with rfl | hb
      · exact h.slot? hslot
      · exact h.shadowed b hb slot hslot
    · exact h.shadowed b hb slot hslot

theorem mapValues_restoreSlot (var : Variable) (slot : Option Slot)
    (slots : List (Variable × Slot)) :
    Assoc.mapValues Slot.toWord (restoreSlot var slot slots) =
      restoreSlot var (slot.map Slot.toWord) (Assoc.mapValues Slot.toWord slots) := by
  cases slot with
  | none => exact Assoc.mapValues_erase ..
  | some slot => exact Assoc.mapValues_insert ..

theorem unwind_toWord (mark : Nat) (shadowed : List (Variable × Option Slot))
    (slots : List (Variable × Slot)) :
    unwind mark (Assoc.mapValues (Option.map Slot.toWord) shadowed)
        (Assoc.mapValues Slot.toWord slots) =
      (Assoc.mapValues (Option.map Slot.toWord) (unwind mark shadowed slots).1,
        Assoc.mapValues Slot.toWord (unwind mark shadowed slots).2) := by
  induction shadowed generalizing slots with
  | nil => rfl
  | cons b rest ih =>
    show unwind mark ((b.1, b.2.map Slot.toWord) :: Assoc.mapValues _ rest) _ = _
    unfold unwind
    rw [Assoc.length_mapValues]
    by_cases h : mark < rest.length + 1
    · simp only [if_pos h]
      rw [← mapValues_restoreSlot, ih]
    · simp only [if_neg h]
      rfl

theorem Fits.toWord_leaveScope (h : env.Fits) (mark : Nat) :
    (env.leaveScope mark).toWord = env.toWord.leaveScope mark := by
  have hlevel : UInt32.ofNat (env.level - 1) = levelsAbove (.ofNat env.level) 1 :=
    (levelsAbove_ofNat h.level (show 1 < UInt32.size by decide)).symm
  unfold WordEnvironment.leaveScope toWord
  rw [unwind_toWord]
  show WordEnvironment.mk _ _ (UInt32.ofNat (env.level - 1)) = _
  rw [hlevel]
  rfl

theorem fits_unwind (mark : Nat) {shadowed : List (Variable × Option Slot)}
    {slots : List (Variable × Slot)} (hslots : ∀ b ∈ slots, b.2.level < UInt32.size)
    (hshadowed : ∀ b ∈ shadowed, ∀ slot ∈ b.2, slot.level < UInt32.size) :
    (∀ b ∈ (unwind mark shadowed slots).2, b.2.level < UInt32.size) ∧
      ∀ b ∈ (unwind mark shadowed slots).1, ∀ slot ∈ b.2, slot.level < UInt32.size := by
  induction shadowed generalizing slots with
  | nil => exact ⟨hslots, hshadowed⟩
  | cons b rest ih =>
    obtain ⟨hfirst, hrest⟩ := List.forall_mem_cons.mp hshadowed
    unfold unwind
    by_cases h : mark < rest.length + 1
    · simp only [if_pos h]
      refine ih (fun c hc => ?_) hrest
      obtain ⟨var, _ | slot⟩ := b
      · exact hslots c ((List.mem_filter.mp hc).1)
      · rcases Assoc.mem_insert hc with hc | hc
        · rw [hc]
          exact hfirst slot rfl
        · exact hslots c hc
    · simp only [if_neg h]
      exact ⟨hslots, hshadowed⟩

theorem Fits.leaveScope (h : env.Fits) (mark : Nat) : (env.leaveScope mark).Fits := by
  obtain ⟨hslots, hshadowed⟩ := fits_unwind mark h.slots h.shadowed
  exact ⟨Nat.lt_of_le_of_lt (Nat.sub_le ..) h.level, hslots, hshadowed⟩

end Environment

end ReactiveScript
