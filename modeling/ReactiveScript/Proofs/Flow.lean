import Mathlib.Data.Fintype.EquivFin
import Mathlib.Data.Fintype.Card
import Mathlib.Logic.Relation
import ReactiveScript.Script.Listing

/-
  Where a pass can go.

  `Flow` says from which position a pass can go where. `Onward` says where it goes when it comes by
  again: a backward jump is not taken twice, and of a loop only the exit is left. Forward jumps lead
  to higher positions, so only the exit of a loop can lead back. If no loop that can be reached has
  an exit leading back to it (`LeavesLoops`), then going onward comes to an end (`acc_onward`); and if
  it does, then no exit leads back (`not_leadsBack_of_acc`).
-/

namespace ReactiveScript

open Relation

namespace Opcode

/-- A loop of either kind. -/
def IsLoop (op : Opcode) : Prop := op = .loop ∨ op = .loopWithKey

instance (op : Opcode) : Decidable op.IsLoop := inferInstanceAs (Decidable (_ ∨ _))

/-- Where a pass can go from an instruction at `pos` with operand `n`. -/
def FlowsTo (op : Opcode) (n pos next : Nat) : Prop :=
  match op with
  | .jump => next = n
  | .jumpIfNot | .jumpScAnd | .jumpScOr | .loop | .loopWithKey => next = pos + 1 ∨ next = n
  | .call | .closure | .tailCall => next = pos + 1 + n
  | .ret => False
  | _ => next = pos + 1

/-- Where it goes when it comes by again. -/
def GoesOnTo (op : Opcode) (n pos next : Nat) : Prop :=
  match op with
  | .jump => pos < n ∧ next = n
  | .jumpIfNot | .jumpScAnd | .jumpScOr => next = pos + 1 ∨ pos < n ∧ next = n
  | .loop | .loopWithKey => next = n
  | .call | .closure | .tailCall => next = pos + 1 + n
  | .ret => False
  | _ => next = pos + 1

/-- Only the exit of a loop leads back. -/
theorem GoesOnTo.increases {op : Opcode} {n pos next : Nat} (h : op.GoesOnTo n pos next) :
    pos < next ∨ op.IsLoop ∧ next = n := by
  cases op with
  | loop => exact .inr ⟨.inl rfl, h⟩
  | loopWithKey => exact .inr ⟨.inr rfl, h⟩
  | jump => exact .inl (h.2 ▸ h.1)
  | ret => exact absurd h id
  | jumpIfNot | jumpScAnd | jumpScOr =>
    rcases h with rfl | ⟨hn, rfl⟩
    · exact .inl (Nat.lt_succ_self pos)
    · exact .inl hn
  | call | closure | tailCall =>
    refine .inl ?_
    have hnext : next = pos + 1 + n := h
    omega
  | _ =>
    have hnext : next = pos + 1 := h
    exact .inl (hnext ▸ Nat.lt_succ_self pos)

end Opcode

namespace Script

variable (s : Script Value)

/-- A pass can go from one position to the other. -/
def Flow (pos next : Nat) : Prop :=
  ∃ i, s.code[pos]? = some i ∧ i.opcode.FlowsTo i.operand pos next

/-- A pass that comes by again goes on to the other position. -/
def Onward (pos next : Nat) : Prop :=
  ∃ i, s.code[pos]? = some i ∧ i.opcode.GoesOnTo i.operand pos next

/-- A pass can get to the position. -/
def Reaches (pos : Nat) : Prop := ReflTransGen s.Flow 0 pos

/-- The exit of the loop at a position leads back to it, without another round of a loop and without
a backward jump. -/
def LeadsBack (pos : Nat) : Prop :=
  ∃ i, s.code[pos]? = some i ∧ i.opcode.IsLoop ∧ ReflTransGen s.Onward i.operand pos

/-- No loop that can be reached has an exit that leads back to it. -/
def LeavesLoops : Prop := ∀ pos, s.Reaches pos → ¬ s.LeadsBack pos

variable {s}

theorem Onward.flow {pos next : Nat} (h : s.Onward pos next) : s.Flow pos next := by
  obtain ⟨i, hi, hnext⟩ := h
  refine ⟨i, hi, ?_⟩
  rcases i with ⟨op, n, hn⟩
  cases op with
  | jump => exact hnext.2
  | jumpIfNot | jumpScAnd | jumpScOr => exact hnext.imp_right And.right
  | loop | loopWithKey => exact .inr hnext
  | _ => exact hnext

theorem Onward.lt_length {pos next : Nat} (h : s.Onward pos next) : pos < s.length := by
  obtain ⟨i, hi, -⟩ := h
  exact (Array.getElem?_eq_some_iff.1 hi).1

theorem reaches_of_onward {pos next : Nat} (h : s.Reaches pos) (ho : ReflTransGen s.Onward pos next) :
    s.Reaches next := by
  induction ho with
  | refl => exact h
  | tail _ hstep ih => exact ih.tail hstep.flow

/-- On the way from a position to one that is not higher, some step does not lead higher either. -/
theorem exists_nonincreasing {pos next : Nat} (h : TransGen s.Onward pos next) (hle : next ≤ pos) :
    ∃ a b, ReflTransGen s.Onward pos a ∧ s.Onward a b ∧ b ≤ a ∧ ReflTransGen s.Onward b next := by
  induction h with
  | single hstep => exact ⟨_, _, .refl, hstep, hle, .refl⟩
  | @tail b c hfirst hstep ih =>
    by_cases hb : b ≤ pos
    · obtain ⟨a, a', h1, h2, h3, h4⟩ := ih hb
      exact ⟨a, a', h1, h2, h3, h4.tail hstep⟩
    · exact ⟨b, c, hfirst.to_reflTransGen, hstep, by omega, .refl⟩

/-- A way around goes through the exit of a loop that leads back. -/
theorem exists_leadsBack {pos : Nat} (hr : s.Reaches pos) (h : TransGen s.Onward pos pos) :
    ∃ a, s.Reaches a ∧ s.LeadsBack a := by
  obtain ⟨a, b, hto, ⟨i, hi, hstep⟩, hle, hback⟩ := exists_nonincreasing h (Nat.le_refl pos)
  have hra := reaches_of_onward hr hto
  rcases hstep.increases with hlt | ⟨hloop, rfl⟩
  · omega
  · exact ⟨a, hra, i, hi, hloop, hback.trans hto⟩

/-- Going onward from where a pass can get comes to an end. -/
theorem acc_onward (h : s.LeavesLoops) {pos : Nat} (hr : s.Reaches pos) :
    Acc (Function.swap s.Onward) pos := by
  -- positions in the code, later ones first; there are finitely many and no way around
  let later (b a : Fin s.length) : Prop := s.Reaches a ∧ TransGen s.Onward a b
  have htrans : IsTrans (Fin s.length) later := ⟨fun a b c hab hbc => ⟨hbc.1, hbc.2.trans hab.2⟩⟩
  have hirrefl : Std.Irrefl later := by
    refine ⟨fun a ha => ?_⟩
    obtain ⟨p, hp, hback⟩ := exists_leadsBack ha.1 ha.2
    exact h p hp hback
  have hwf : WellFounded later := Finite.wellFounded_of_trans_of_irrefl later
  have hacc : ∀ a : Fin s.length, s.Reaches a →
      Acc (Function.swap s.Onward) (a : Nat) := by
    intro a
    induction a using hwf.induction with
    | _ a ih =>
      intro ha
      refine Acc.intro _ fun next hnext => ?_
      by_cases hlt : next < s.length
      · exact ih ⟨next, hlt⟩ ⟨ha, .single hnext⟩ (ReflTransGen.tail ha hnext.flow)
      · exact Acc.intro _ fun q hq => absurd hq.lt_length hlt
  by_cases hlt : pos < s.length
  · exact hacc ⟨pos, hlt⟩ hr
  · exact Acc.intro _ fun q hq => absurd hq.lt_length hlt

/-- If going onward comes to an end, there is no way around. -/
theorem not_transGen_of_acc {α : Type} {r : α → α → Prop} {a : α} (h : Acc (TransGen r) a) :
    ¬ TransGen r a a := by
  induction h with
  | intro a _ ih => exact fun ha => ih a ha ha

/-- If going onward comes to an end, no exit leads back. -/
theorem not_leadsBack_of_acc {pos : Nat} (h : Acc (Function.swap s.Onward) pos) :
    ¬ s.LeadsBack pos := by
  rintro ⟨i, hi, hloop, hback⟩
  have hexit : s.Onward pos i.operand := by
    refine ⟨i, hi, ?_⟩
    rcases hloop with hop | hop <;> rw [hop] <;> rfl
  have hround : TransGen s.Onward pos pos := TransGen.head' hexit hback
  exact not_transGen_of_acc h.transGen (transGen_swap.2 hround)

end Script

end ReactiveScript
