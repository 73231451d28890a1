import ReactiveScript.Machine.State

/-
  The parts of a value.

  `Every P v` says that `P` holds of a value and of whatever can be got out of it. `Machine.All P`
  says that `P` holds of every value a machine can hand out: variables, hidden ones included,
  operands, and what its iterators will yield. The lemmas say that scopes and bindings keep it.
-/

namespace ReactiveScript

namespace Value

/-- The values that can be got out of a value in one step. -/
def children : Value → List Value
  | .collection _ items => items.values
  | .object _ (.host o) =>
    o.members.map Prod.snd ++ (o.entries.getD []).flatMap fun entry => [entry.1, entry.2]
  | .object _ (.union a b) => [a, b]
  | .script s => s.constants.toList
  | .closure _ function bindings => function :: bindings.map Prod.snd
  | .composition _ first second => [first, second]
  | _ => []

/-- `P` holds of a value and of all its parts. -/
inductive Every (P : Value → Prop) : Value → Prop
  | intro {v : Value} : P v → (∀ c ∈ v.children, Every P c) → Every P v

variable {P Q : Value → Prop}

theorem Every.holds {v : Value} (h : Every P v) : P v := by
  cases h with
  | intro h _ => exact h

theorem Every.child {v c : Value} (h : Every P v) (hc : c ∈ v.children) : Every P c := by
  cases h with
  | intro _ h => exact h c hc

theorem Every.mono (hPQ : ∀ v, P v → Q v) {v : Value} (h : Every P v) : Every Q v := by
  induction h with
  | intro h _ ih => exact .intro (hPQ _ h) ih

/-- What has no parts. -/
theorem every_of_children_nil {v : Value} (h : P v) (hc : v.children = []) : Every P v :=
  .intro h fun c h => by rw [hc] at h; cases h

end Value

/-- `P` holds of what an iteration has still to yield. -/
def Iteration.All (P : Value → Prop) : Iteration → Prop
  | .collection items _ => ∀ v ∈ items.values, P v
  | .host source _ => ∀ i entry, source i = some entry → P entry.1 ∧ P entry.2
  | _ => True

/-- `P` holds of the value in a slot, if there is one. -/
def Slot.All (P : Value → Prop) (slot : Option Slot) : Prop := ∀ s, slot = some s → P s.value

namespace Environment

/-- `P` holds of the values of all variables and of what they hide. -/
structure All (P : Value → Prop) (env : Environment) : Prop where
  slots : ∀ var, Slot.All P (env.slot? var)
  shadowed : ∀ b ∈ env.shadowed, Slot.All P b.2

variable {P : Value → Prop} {env : Environment}

theorem All.get? (h : env.All P) {var : Variable} {v : Value} (hv : env.get? var = some v) :
    P v := by
  unfold Environment.get? at hv
  cases hs : env.slot? var with
  | none => rw [hs] at hv; cases hv
  | some slot =>
    rw [hs] at hv
    cases hv
    exact h.slots var slot hs

theorem All.mono {Q : Value → Prop} (hPQ : ∀ v, P v → Q v) (h : env.All P) : env.All Q :=
  ⟨fun var s hs => hPQ _ (h.slots var s hs), fun b hb s hs => hPQ _ (h.shadowed b hb s hs)⟩

theorem All.set (h : env.All P) (var : Variable) {v : Value} (hv : P v) : (env.set var v).All P := by
  refine ⟨fun x s hs => ?_, fun b hb => ?_⟩
  · rw [slot?_set] at hs
    by_cases hx : var = x
    · rw [if_pos hx] at hs
      cases hs
      exact hv
    · rw [if_neg hx] at hs
      exact h.slots x s hs
  · by_cases hh : env.hides var = true
    · simp only [Environment.set, if_pos hh] at hb
      rcases List.mem_cons.1 hb with rfl | hb
      · exact h.slots var
      · exact h.shadowed b hb
    · simp only [Environment.set, if_neg hh] at hb
      exact h.shadowed b hb

theorem All.setAll {bindings : Bindings} (h : env.All P) (hb : ∀ b ∈ bindings, P b.2) :
    (env.setAll bindings).All P := by
  induction bindings generalizing env with
  | nil => exact h
  | cons b rest ih =>
    exact ih (h.set b.1 (hb b List.mem_cons_self)) fun c hc => hb c (List.mem_cons_of_mem _ hc)

theorem All.enterScope (h : env.All P) : env.enterScope.2.All P := ⟨h.slots, h.shadowed⟩

theorem slotAll_restoreSlot {var x : Variable} {slot : Option Slot}
    {slots : List (Variable × Slot)} (hslot : Slot.All P slot)
    (h : Slot.All P (Assoc.find? x slots)) : Slot.All P (Assoc.find? x (restoreSlot var slot slots)) := by
  intro s hs
  cases slot with
  | none =>
    rw [restoreSlot, Assoc.find?_erase] at hs
    by_cases hx : var = x
    · rw [if_pos hx] at hs; cases hs
    · rw [if_neg hx] at hs; exact h s hs
  | some old =>
    rw [restoreSlot, Assoc.find?_insert] at hs
    by_cases hx : var = x
    · rw [if_pos hx] at hs
      cases hs
      exact hslot _ rfl
    · rw [if_neg hx] at hs; exact h s hs

theorem all_unwind (mark : Nat) {shadowed : List (Variable × Option Slot)}
    {slots : List (Variable × Slot)} (hs : ∀ b ∈ shadowed, Slot.All P b.2)
    (h : ∀ x, Slot.All P (Assoc.find? x slots)) :
    (∀ x, Slot.All P (Assoc.find? x (unwind mark shadowed slots).2)) ∧
      ∀ b ∈ (unwind mark shadowed slots).1, Slot.All P b.2 := by
  induction shadowed generalizing slots with
  | nil => exact ⟨h, fun b hb => by cases hb⟩
  | cons b rest ih =>
    unfold unwind
    by_cases hm : mark < rest.length + 1
    · simp only [if_pos hm]
      exact ih (fun c hc => hs c (List.mem_cons_of_mem _ hc)) fun x =>
        slotAll_restoreSlot (hs b List.mem_cons_self) (h x)
    · simp only [if_neg hm]
      exact ⟨h, hs⟩

theorem All.unwindTo (h : env.All P) (mark : Nat) : (env.unwindTo mark).All P := by
  obtain ⟨h1, h2⟩ := all_unwind mark h.shadowed h.slots
  exact ⟨h1, h2⟩

theorem All.leaveScope (h : env.All P) (mark : Nat) : (env.leaveScope mark).All P := by
  have hl : Environment.All P { env with level := env.level - 1 } := ⟨h.slots, h.shadowed⟩
  exact hl.unwindTo mark

theorem All.reboundSince (h : env.All P) {mark : Nat} {var : Variable} {v : Value}
    (hm : (var, some v) ∈ env.reboundSince mark) : P v := by
  obtain ⟨b, -, hb⟩ := List.mem_map.1 hm
  injection hb with hvar hv
  exact h.get? hv

end Environment

/-- `P` holds of all values of the machine and of their parts. -/
structure Machine.All (P : Value → Prop) (m : Machine) : Prop where
  env : m.context.env.All (Value.Every P)
  stack : ∀ v ∈ m.context.stack, v.Every P
  iterations : ∀ it ∈ m.store.iterations, it.All (Value.Every P)

end ReactiveScript
