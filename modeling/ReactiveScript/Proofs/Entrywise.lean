import Mathlib.Data.List.Forall2
import ReactiveScript.Value.Member

/-
  Collections that are related entry by entry.

  Two listings of entries that have the same keys in the same order, with related values under them,
  answer every lookup with related values, or both with nothing: by key (`Entrywise.find?`), by
  position (`Entrywise.nth?`) and by a member's name, which may be either (`Entrywise.lookup?`).
-/

namespace ReactiveScript

/-- The same keys in the same order, with related values. -/
def Entrywise {κ α β : Type} (R : α → β → Prop) : List (κ × α) → List (κ × β) → Prop :=
  List.Forall₂ fun x y => x.1 = y.1 ∧ R x.2 y.2

variable {κ α β : Type} {R : α → β → Prop}

theorem forall₂_getElem? {xs : List α} {ys : List β} (h : List.Forall₂ R xs ys) (n : Nat) :
    Option.Rel R xs[n]? ys[n]? := by
  induction h generalizing n with
  | nil => exact .none
  | cons hentry _ ih =>
    cases n with
    | zero => exact .some hentry
    | succ n => exact ih n

namespace Entrywise

/-- The relation of the values can be turned around. -/
theorem flip {S : β → α → Prop} {xs : List (κ × α)} {ys : List (κ × β)} (h : Entrywise R xs ys)
    (hflip : ∀ x ∈ xs, ∀ y ∈ ys, R x.2 y.2 → S y.2 x.2) : Entrywise S ys xs := by
  induction h with
  | nil => exact .nil
  | @cons x y xs ys hentry _ ih =>
    have hhead : S y.2 x.2 := hflip x List.mem_cons_self y List.mem_cons_self hentry.2
    refine .cons ⟨hentry.1.symm, hhead⟩ (ih fun a ha b hb => ?_)
    exact hflip a (List.mem_cons_of_mem _ ha) b (List.mem_cons_of_mem _ hb)

/-- Relations of the values can be put one behind the other. -/
theorem trans {γ : Type} {S : β → γ → Prop} {T : α → γ → Prop} {xs : List (κ × α)}
    {ys : List (κ × β)} {zs : List (κ × γ)} (h : Entrywise R xs ys) (h' : Entrywise S ys zs)
    (htrans : ∀ x ∈ xs, ∀ y ∈ ys, ∀ z ∈ zs, R x.2 y.2 → S y.2 z.2 → T x.2 z.2) :
    Entrywise T xs zs := by
  induction h generalizing zs with
  | nil =>
    cases h'
    exact .nil
  | @cons x y xs ys hentry _ ih =>
    cases h' with
    | @cons _ z _ zs hentry' hrest' =>
      have hhead : T x.2 z.2 := htrans x List.mem_cons_self y List.mem_cons_self z
        List.mem_cons_self hentry.2 hentry'.2
      refine .cons ⟨hentry.1.trans hentry'.1, hhead⟩ (ih hrest' fun a ha b hb c hc => ?_)
      exact htrans a (List.mem_cons_of_mem _ ha) b (List.mem_cons_of_mem _ hb) c
        (List.mem_cons_of_mem _ hc)

theorem find? [DecidableEq κ] {xs : List (κ × α)} {ys : List (κ × β)} (h : Entrywise R xs ys)
    (key : κ) : Option.Rel R (Assoc.find? key xs) (Assoc.find? key ys) := by
  induction h with
  | nil => exact .none
  | @cons x y xs ys hentry _ ih =>
    unfold Assoc.find?
    rw [← hentry.1]
    by_cases hkey : x.1 = key
    · rw [if_pos hkey, if_pos hkey]
      exact .some hentry.2
    · rw [if_neg hkey, if_neg hkey]
      exact ih

variable {c : Collection α} {d : Collection β}

theorem nth? (h : Entrywise R c.entries d.entries) (n : Nat) :
    Option.Rel R (c.nth? n) (d.nth? n) := by
  unfold Collection.nth?
  have hentry := forall₂_getElem? h n
  generalize c.entries[n]? = x, d.entries[n]? = y at hentry
  cases hentry with
  | none => exact .none
  | some hentry => exact .some hentry.2

theorem lookup? (h : Entrywise R c.entries d.entries) (name : String) :
    Option.Rel R (c.lookup? name) (d.lookup? name) := by
  unfold Collection.lookup? Collection.get?
  have hfound := h.find? name
  generalize Assoc.find? name c.entries = x, Assoc.find? name d.entries = y at hfound
  cases hfound with
  | some hfound => exact .some hfound
  | none =>
    cases Decimal.index? name with
    | none => exact .none
    | some n => exact h.nth? n

end Entrywise

end ReactiveScript
