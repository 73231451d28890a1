import Mathlib.Data.Finset.Card
import Mathlib.Data.Finset.Filter
import Mathlib.Data.Finset.Range
import Mathlib.Logic.Relation
import ReactiveScript.Proofs.Decision

/-
  How many rounds fields need.

  A field runs once in a round, perhaps before something it reads changes in the same round. It then
  waits for the next round. So the scripted fields of a card are numbered: each reads fields of smaller
  numbers, or one earlier field of its own number, which runs before it in the same round. A round
  settles the fields of one more number (`Settled.round`), and once all are settled a round finds
  nothing to do (`refreshFields_unchanged`). So fields that read each other in no circle settle
  (`fields_settle`), but a field before one that it reads needs a second round
  (`one_round_leaves_label`).
-/

namespace ReactiveScript

namespace Template

/-- Update the fields in a number of rounds. -/
def rounds (budget : Nat) : Nat → Template → Run Template
  | 0, t => return t
  | k + 1, t => do
    let (t, _) ← t.refreshFields budget
    rounds budget k t

/-- No field ran after the last round. -/
def AgesBounded (t : Template) : Prop := ∀ c ∈ t.fields, c.age ≤ t.age

instance (t : Template) : Decidable t.AgesBounded :=
  inferInstanceAs (Decidable (∀ c ∈ t.fields, c.age ≤ t.age))

end Template

namespace Setup

open Template

variable {w : Setup} {t t' : Template} {m m' : Machine} {i j k : Nat}

/-- A script computes the field. -/
def Scripted (w : Setup) (i : Nat) : Prop :=
  ∃ c, w.card.fields[i]? = some c ∧ c.field.content.isScripted = true

/-- A field reads another: it is told when that changes. -/
def Reads (w : Setup) (i j : Nat) : Prop :=
  ∃ c, w.card.fields[j]? = some c ∧ ⟨.cardField, i⟩ ∈ w.lists[c.field.dependents]?.getD []

/-- The rounds after which scripted fields settle. A field that reads another settles in a later
round, or in the same one if the other stands before it and is the only one of that round. -/
def RoundCount (w : Setup) (count : Nat → Nat) : Prop :=
  ∀ ⦃i j⦄, w.Scripted i → w.Scripted j → w.Reads i j → count j < count i ∨
    count j = count i ∧ j < i ∧ ∀ j', w.Scripted j' → w.Reads i j' → count j' = count i → j' = j

/-- A relation that leads round in no circle. -/
def Acyclic (R : Nat → Nat → Prop) : Prop := ∀ i, ¬Relation.TransGen R i i

/-- A relation that only leads upwards. -/
theorem acyclic_of_lt {R : Nat → Nat → Prop} (h : ∀ i j, R i j → i < j) : Acyclic R := by
  have hlt : ∀ {i j}, Relation.TransGen R i j → i < j := by
    intro i j hij
    induction hij with
    | single hij => exact h _ _ hij
    | tail _ hij ih => exact Nat.lt_trans ih (h _ _ hij)
  exact fun i hcircle => Nat.lt_irrefl i (hlt hcircle)

open Classical in
/-- What is related in no circle can be numbered, by how much of it each leads to. -/
theorem Acyclic.exists_rank {R : Nat → Nat → Prop} {n : Nat} (h : Acyclic R)
    (hbound : ∀ i j, R i j → j < n) :
    ∃ rank : Nat → Nat, (∀ i j, R i j → rank j < rank i) ∧ ∀ i < n, rank i < n := by
  refine ⟨fun i => ((Finset.range n).filter (Relation.TransGen R i)).card, fun i j hij => ?_,
    fun i hi => ?_⟩
  · refine Finset.card_lt_card (Finset.ssubset_iff_of_subset ?_ |>.2 ⟨j, ?_, ?_⟩)
    · intro k hk
      obtain ⟨hk, hjk⟩ := Finset.mem_filter.1 hk
      exact Finset.mem_filter.2 ⟨hk, hjk.head hij⟩
    · exact Finset.mem_filter.2 ⟨Finset.mem_range.2 (hbound i j hij), .single hij⟩
    · exact fun hj => h j (Finset.mem_filter.1 hj).2
  · have hsub : (Finset.range n).filter (Relation.TransGen R i) ⊂ Finset.range n :=
      Finset.filter_ssubset.2 ⟨i, Finset.mem_range.2 hi, h i⟩
    calc ((Finset.range n).filter (Relation.TransGen R i)).card
        < (Finset.range n).card := Finset.card_lt_card hsub
      _ = n := Finset.card_range n

/-- Scripted fields that read each other in no circle can be numbered, with fewer numbers than there are
fields. -/
theorem exists_roundCount
    (h : Acyclic fun i j => w.Scripted i ∧ w.Scripted j ∧ w.Reads i j) :
    ∃ count, w.RoundCount count ∧ ∀ i, w.Scripted i → count i < w.card.fields.length := by
  have hlt : ∀ {i}, w.Scripted i → i < w.card.fields.length := by
    rintro i ⟨c, hc, -⟩
    exact (List.getElem?_eq_some_iff.1 hc).1
  obtain ⟨rank, hrank, hbound⟩ := h.exists_rank fun _ _ hij => hlt hij.2.1
  exact ⟨rank, fun i j hi hj hread => .inl (hrank i j ⟨hi, hj, hread⟩), fun i hi => hbound i (hlt hi)⟩

theorem RoundCount.le {count : Nat → Nat} (h : w.RoundCount count) (hi : w.Scripted i)
    (hj : w.Scripted j) (hread : w.Reads i j) : count j ≤ count i := by
  rcases h hi hj hread with hlt | ⟨heq, -⟩
  · exact Nat.le_of_lt hlt
  · exact Nat.le_of_eq heq

theorem RoundCount.irrefl {count : Nat → Nat} (h : w.RoundCount count) (hi : w.Scripted i) :
    ¬w.Reads i i := by
  intro hread
  rcases h hi hi hread with hlt | ⟨-, hlt, -⟩
  · exact Nat.lt_irrefl _ hlt
  · exact Nat.lt_irrefl _ hlt

/-! ## What one field does to the others -/

namespace Session

theorem scripted_iff (h : w.Session t m) {c : FieldCell} (hc : t.fields[i]? = some c) :
    w.Scripted i ↔ c.field.content.isScripted = true := by
  obtain ⟨c₀, hc₀, he⟩ := h.sameShape.field hc
  have hscript : c.field.content.script = c₀.field.content.script := congrArg (fun x => x.2.1) he
  constructor
  · rintro ⟨c₁, hc₁, hs⟩
    cases hc₀.symm.trans hc₁
    unfold Computed.isScripted at hs ⊢
    rw [hscript, hs]
  · intro hs
    refine ⟨c₀, hc₀, ?_⟩
    unfold Computed.isScripted at hs ⊢
    rw [← hscript, hs]

theorem reads_iff (h : w.Session t m) {c : FieldCell} (hc : t.fields[j]? = some c) :
    w.Reads i j ↔ ⟨.cardField, i⟩ ∈ w.lists[c.field.dependents]?.getD [] := by
  obtain ⟨c₀, hc₀, he⟩ := h.sameShape.field hc
  have hdependents : c.field.dependents = c₀.field.dependents := congrArg (fun x => x.2.2) he
  rw [hdependents]
  constructor
  · rintro ⟨c₁, hc₁, hread⟩
    cases hc₀.symm.trans hc₁
    exact hread
  · exact fun hread => ⟨c₀, hc₀, hread⟩

end Session

/-- A field without a script has nothing to be up to date with. -/
theorem fieldUpToDate_of_unscripted (t : Template) (hi : ¬w.Scripted i) :
    w.FieldUpToDate t i := by
  intro m' c hsession _ hc _ x hx
  have hnone : c.field.content.script = none := by
    have hs := mt (hsession.scripted_iff hc).2 hi
    unfold Computed.isScripted at hs
    rwa [Bool.not_eq_true, Option.isSome_eq_false_iff, Option.isNone_iff_eq_none] at hs
  rw [Computed.gives_of_unscripted hnone] at hx
  cases hx

namespace FieldRun

variable {r r' : Round} {readers : List Dependency} {c : FieldCell} {m₁ : Machine} {f : Field}
  {mask : Changes}

/-- A field that was up to date does not change. -/
theorem unchanged (h : w.FieldRun r i m r' readers m' c m₁ f mask)
    (hsession : w.Session r.template m) (hdone : w.FieldUpToDate r.template i) :
    f = c.field ∧ mask.isEmpty = true := by
  obtain ⟨-, changed, content, hu, rfl, rfl⟩ := h.updated hsession
  have hsession₁ := (hsession.work h.proceeds).inner c.field
  have hnow := hdone hsession₁ (shown_inner h.shown c.field) h.cell (Machine.binds_bound _ _ _)
  obtain ⟨rfl, rfl⟩ := hnow.unchanged hu
  exact ⟨rfl, rfl⟩

/-- A field that does not read itself is up to date after it ran. -/
theorem upToDate (h : w.FieldRun r i m r' readers m' c m₁ f mask)
    (hsession : w.Session r.template m) (hpure : w.PureField i) (hself : ¬w.Reads i i) :
    w.FieldUpToDate r'.template i := by
  obtain ⟨-, changed, content, hu, rfl, -⟩ := h.updated hsession
  refine fieldUpToDate_of_updated hpure (hsession.work h.proceeds) h.shown h.cell hu
    (h.agree fun hmem => absurd ((hsession.reads_iff h.cell).2 hmem) hself) fun c' hc' => ?_
  rw [h.getElem?, if_pos rfl] at hc'
  cases hc'
  rfl

/-- A field that was up to date stays so if it does not read the one that ran. -/
theorem stays (h : w.FieldRun r i m r' readers m' c m₁ f mask) (hsession : w.Session r.template m)
    (hpure : w.PureField j) (hdone : w.FieldUpToDate r.template j)
    (hread : w.Reads j i → f.value = c.field.value) (hji : j = i → f.value = c.field.value) :
    w.FieldUpToDate r'.template j := by
  refine hdone.of_agree hpure hsession (h.sameShape hsession)
    (h.agree fun hmem => hread ((hsession.reads_iff h.cell).2 hmem)) fun c₁ c₂ hc₁ hc₂ => ?_
  rw [h.getElem?] at hc₂
  by_cases hij : i = j
  · subst hij
    rw [if_pos rfl] at hc₂
    cases hc₂
    cases h.cell.symm.trans hc₁
    exact hji rfl
  · rw [if_neg hij] at hc₂
    cases hc₁.symm.trans hc₂
    rfl

end FieldRun

/-! ## A round settles one more number -/

/-- The scripted fields of smaller numbers are up to date. -/
def Settled (w : Setup) (count : Nat → Nat) (k : Nat) (t : Template) : Prop :=
  ∀ ⦃i⦄, w.Scripted i → count i < k → w.FieldUpToDate t i

/-- What holds in the round that settles the fields of a number: those that ran are up to date, after
all fields of the same number that they read. Whoever is to be told reads a field of this or a
greater number that ran. -/
structure Settling (w : Setup) (count : Nat → Nat) (k : Nat) (r : Round)
    (pending : Dependency → Prop) : Prop where
  settled : w.Settled count k r.template
  ran : ∀ ⦃i⦄, w.Scripted i → count i = k → r.template.Ran i → w.FieldUpToDate r.template i ∧
    ∀ j, w.Scripted j → w.Reads i j → count j = k → r.template.Ran j
  told : ∀ ⦃i⦄, pending ⟨.cardField, i⟩ →
    ∃ j, w.Scripted j ∧ w.Reads i j ∧ k ≤ count j ∧ r.template.Ran j

section Settling

variable {count : Nat → Nat}

/-- When it is the turn of a field, the field of its own number that it reads ran. -/
theorem RoundCount.ran_of_turn (h : w.RoundCount count) (hi : w.Scripted i) (hj : w.Scripted j)
    (hread : w.Reads i j) (heq : count j = count i) {P : Dependency → Prop}
    (htold : P ⟨.cardField, i⟩ → ∃ j, w.Scripted j ∧ w.Reads i j ∧ count i ≤ count j ∧ t.Ran j)
    (hturn : P ⟨.cardField, i⟩ ∨ ∀ j < i, t.Ran j) : t.Ran j := by
  rcases h hi hj hread with hlt | ⟨-, hlt, honly⟩
  · omega
  · rcases hturn with hpending | hbefore
    · obtain ⟨j₁, hj₁, hread₁, hle, hran⟩ := htold hpending
      have heq₁ : count j₁ = count i := Nat.le_antisymm (h.le hi hj₁ hread₁) hle
      rw [← honly j₁ hj₁ hread₁ heq₁]
      exact hran
    · exact hbefore j hlt

theorem Settling.run {r r' : Round} {P : Dependency → Prop} {readers : List Dependency}
    {c : FieldCell} {m₁ : Machine} {f : Field} {mask : Changes} (h : w.Settling count k r P)
    (hcount : w.RoundCount count) (hpure : ∀ i, w.Scripted i → w.PureField i)
    (hsession : w.Session r.template m)
    (hturn : P ⟨.cardField, i⟩ ∨ ∀ j < i, r.template.Ran j)
    (hrun : w.FieldRun r i m r' readers m' c m₁ f mask) :
    w.Settling count k r' fun d => P d ∨ d ∈ readers := by
  have hfresh : ¬r.template.Ran i := fun hran => absurd (hran c hrun.cell) (Nat.not_le_of_lt hrun.fresh)
  have hran : ∀ {j}, r.template.Ran j → r'.template.Ran j := fun hj => (hrun.ran _).2 (.inr hj)
  by_cases hscripted : w.Scripted i ∧ k ≤ count i
  · obtain ⟨hi, hle⟩ := hscripted
    refine ⟨fun j hj hlt => ?_, fun j hj heq hjran => ?_, fun j hpending => ?_⟩
    · -- Fields of smaller numbers do not read this one.
      have hread : ¬w.Reads j i := fun hread => by
        have := hcount.le hj hi hread
        omega
      have hne : j ≠ i := by
        rintro rfl
        omega
      exact hrun.stays hsession (hpure j hj) (h.settled hj hlt) (absurd · hread) (absurd · hne)
    · rcases (hrun.ran j).1 hjran with rfl | hjran
      · refine ⟨hrun.upToDate hsession (hpure i hi) (hcount.irrefl hi), fun j' hj' hread heq' => ?_⟩
        refine hran (hcount.ran_of_turn hi hj' hread (heq'.trans heq.symm) ?_ hturn)
        intro hpending
        obtain ⟨j₁, hj₁, hread₁, hle₁, hran₁⟩ := h.told hpending
        exact ⟨j₁, hj₁, hread₁, heq ▸ hle₁, hran₁⟩
      · -- A field of the same number that ran before reads only fields that ran before.
        obtain ⟨hdone, hinputs⟩ := h.ran hj heq hjran
        have hread : ¬w.Reads j i := fun hread =>
          hfresh (hinputs i hi hread (by have := hcount.le hj hi hread; omega))
        have hne : j ≠ i := by
          rintro rfl
          exact hfresh hjran
        exact ⟨hrun.stays hsession (hpure j hj) hdone (absurd · hread) (absurd · hne),
          fun j' hj' hread heq' => hran (hinputs j' hj' hread heq')⟩
    · rcases hpending with hpending | hmem
      · obtain ⟨j', hj', hread, hle', hran'⟩ := h.told hpending
        exact ⟨j', hj', hread, hle', hran hran'⟩
      · refine ⟨i, hi, (hsession.reads_iff hrun.cell).2 ?_, hle, (hrun.ran i).2 (.inl rfl)⟩
        exact hrun.mem_readers hsession hmem
  · -- The field was up to date, so it is the same as before.
    have hdone : w.FieldUpToDate r.template i := by
      by_cases hi : w.Scripted i
      · exact h.settled hi (Nat.lt_of_not_le fun hle => hscripted ⟨hi, hle⟩)
      · exact fieldUpToDate_of_unscripted _ hi
    obtain ⟨rfl, hempty⟩ := hrun.unchanged hsession hdone
    refine ⟨fun j hj hlt => ?_, fun j hj heq hjran => ?_, fun j hpending => ?_⟩
    · exact hrun.stays hsession (hpure j hj) (h.settled hj hlt) (fun _ => rfl) fun _ => rfl
    · have hne : i ≠ j := by
        rintro rfl
        exact hscripted ⟨hj, Nat.le_of_eq heq.symm⟩
      obtain ⟨hjdone, hinputs⟩ := h.ran hj heq (((hrun.ran j).1 hjran).resolve_left hne)
      exact ⟨hrun.stays hsession (hpure j hj) hjdone (fun _ => rfl) fun _ => rfl,
        fun j' hj' hread heq' => hran (hinputs j' hj' hread heq')⟩
    · rw [hrun.readers, if_pos hempty, or_iff_left List.not_mem_nil] at hpending
      obtain ⟨j', hj', hread, hle, hj'ran⟩ := h.told hpending
      exact ⟨j', hj', hread, hle, hran hj'ran⟩

/-- The invariant of the round that settles the fields of a number. -/
theorem roundInvariant_settling (hcount : w.RoundCount count)
    (hpure : ∀ i, w.Scripted i → w.PureField i) : w.RoundInvariant (w.Settling count k) where
  forget h hsub _ := { h with told := fun _ hpending => h.told (hsub _ hpending) }
  run h hsession hturn hrun := h.run hcount hpure hsession hturn hrun
  mark h _ _ := by
    have hsame := sameCard_markDirty
    exact ⟨fun j hj hlt => (h.settled hj hlt).sameCard (hsame _ _),
      fun j hj heq hran => ⟨(h.ran hj heq hran).1.sameCard (hsame _ _), (h.ran hj heq hran).2⟩,
      h.told⟩

theorem roundInvariant_agesBounded (w : Setup) :
    w.RoundInvariant fun r _ => r.template.AgesBounded where
  forget h _ _ := h
  run h _ _ hrun := by
    intro c hc
    rw [hrun.age]
    rw [hrun.template] at hc
    rcases List.mem_or_eq_of_mem_set hc with hc | rfl
    · exact h c hc
    · exact Nat.le_refl _
  mark h _ _ := h

/-- A round settles the fields of one more number. -/
theorem Settled.round {changed : List String} (h : w.Settled count k t)
    (hcount : w.RoundCount count) (hpure : ∀ i, w.Scripted i → w.PureField i)
    (hsession : w.Session t m) (hages : t.AgesBounded)
    (hrun : t.refreshFields w.budget m = (.ok (t', changed), m')) :
    w.Session t' m' ∧ w.Settled count (k + 1) t' ∧ t'.AgesBounded := by
  -- No field ran in a round that begins.
  have hnone : ∀ j, w.Scripted j → ¬t.beginRound.Ran j := by
    rintro j ⟨c₀, hc₀, -⟩ hran
    have hlt := (List.getElem?_eq_some_iff.1 hc₀).1
    rw [← hsession.sameShape.length_fields] at hlt
    have hle := hran _ (List.getElem?_eq_getElem hlt)
    exact absurd (hages _ (List.getElem_mem hlt)) (Nat.not_le_of_lt hle)
  have hbegin : w.Settling count k ⟨t.beginRound, []⟩ fun _ => False :=
    ⟨fun j hj hlt => (h hj hlt).sameCard ⟨rfl, rfl⟩, fun j hj _ hran => absurd hran (hnone j hj),
      fun _ hpending => hpending.elim⟩
  obtain ⟨hsession', hend, hran⟩ :=
    (roundInvariant_settling hcount hpure).refreshFields hbegin hsession hrun
  obtain ⟨-, hages', -⟩ := w.roundInvariant_agesBounded.refreshFields
    (fun c hc => Nat.le_succ_of_le (hages c hc)) hsession hrun
  refine ⟨hsession', fun i hi hlt => ?_, hages'⟩
  rcases Nat.lt_succ_iff_lt_or_eq.1 hlt with hlt | heq
  · exact hend.settled hi hlt
  · exact (hend.ran hi heq (hran i)).1

end Settling

/-! ## A round with nothing to do -/

/-- Nothing changed in the round but ages. -/
structure Idle (t : Template) (r : Round) (pending : Dependency → Prop) : Prop where
  changed : r.changed = []
  fields : t.SameCard r.template
  styles : r.template.styles = t.styles
  none : ∀ d, ¬pending d

theorem roundInvariant_idle (h : ∀ i, w.FieldUpToDate t i) : w.RoundInvariant (Idle t) where
  forget hidle hsub _ := { hidle with none := fun d hd => hidle.none d (hsub d hd) }
  run {r m P i r' readers m' c m₁ f mask} hidle hsession _ hrun := by
    obtain ⟨rfl, hempty⟩ := hrun.unchanged hsession ((h i).sameCard hidle.fields)
    have hsame := sameCard_stamp r.template i c.field
    rw [setField_self hrun.cell] at hsame
    refine ⟨?_, ?_, ?_, fun d hd => ?_⟩
    · rw [hrun.changed, if_pos hempty, hidle.changed]
    · rw [hrun.template]
      exact ⟨hidle.fields.fields.trans hsame.fields, hidle.fields.styles.trans hsame.styles⟩
    · rw [hrun.template]
      exact hidle.styles
    · rw [hrun.readers, if_pos hempty] at hd
      exact hidle.none d (hd.resolve_right List.not_mem_nil)
  mark hidle _ hpending := absurd hpending (hidle.none _)

/-- If every field is up to date, a round changes nothing. -/
theorem refreshFields_unchanged {changed : List String} (h : ∀ i, w.FieldUpToDate t i)
    (hsession : w.Session t m) (hrun : t.refreshFields w.budget m = (.ok (t', changed), m')) :
    changed = [] ∧ t.SameCard t' ∧ t'.styles = t.styles := by
  have hbegin : Idle t ⟨t.beginRound, []⟩ fun _ => False := ⟨rfl, ⟨rfl, rfl⟩, rfl, fun _ => id⟩
  obtain ⟨-, hidle, -⟩ := (roundInvariant_idle h).refreshFields hbegin hsession hrun
  exact ⟨hidle.changed, hidle.fields, hidle.styles⟩

/-! ## Settling all fields -/

theorem Settled.rounds {count : Nat → Nat} {n : Nat} (h : w.Settled count k t)
    (hcount : w.RoundCount count) (hpure : ∀ i, w.Scripted i → w.PureField i)
    (hreturns : w.Returns) (hsession : w.Session t m) (hages : t.AgesBounded) :
    ∃ t' m', t.rounds w.budget n m = (.ok t', m') ∧ w.Session t' m' ∧
      w.Settled count (k + n) t' := by
  induction n generalizing k t m with
  | zero => exact ⟨t, m, rfl, hsession, h⟩
  | succ n ih =>
    obtain ⟨t₁, changed, m₁, hrun⟩ := hreturns.refreshFields hsession
    obtain ⟨hsession₁, h₁, hages₁⟩ := h.round hcount hpure hsession hages hrun
    obtain ⟨t₂, m₂, hrounds, hsession₂, h₂⟩ := ih h₁ hsession₁ hages₁
    refine ⟨t₂, m₂, (Run.run_bind_ok hrun).trans hrounds, hsession₂, ?_⟩
    rw [Nat.add_right_comm] at h₂
    exact h₂

/-- Pure fields are settled after as many rounds as their numbers need, and the next round changes
nothing. -/
theorem RoundCount.settle {count : Nat → Nat} (hcount : w.RoundCount count)
    (hk : ∀ i, w.Scripted i → count i < k) (hpure : ∀ i, w.Scripted i → w.PureField i)
    (hreturns : w.Returns) (hages : w.card.AgesBounded) :
    ∃ t m, w.card.rounds w.budget k w.machine = (.ok t, m) ∧ (∀ i, w.FieldUpToDate t i) ∧
      ∃ t' m', t.refreshFields w.budget m = (.ok (t', []), m') ∧ t.SameCard t' ∧
        t'.styles = t.styles := by
  have hstart : w.Settled count 0 w.card := fun i _ hlt => absurd hlt (Nat.not_lt_zero _)
  obtain ⟨t, m, hrounds, hsession, hsettled⟩ :=
    hstart.rounds (n := k) hcount hpure hreturns .start hages
  have hdone : ∀ i, w.FieldUpToDate t i := by
    intro i
    by_cases hi : w.Scripted i
    · exact hsettled hi (by rw [Nat.zero_add]; exact hk i hi)
    · exact fieldUpToDate_of_unscripted _ hi
  obtain ⟨t', changed, m', hrun⟩ := hreturns.refreshFields hsession
  obtain ⟨rfl, hsame, hstyles⟩ := refreshFields_unchanged hdone hsession hrun
  exact ⟨t, m, hrounds, hdone, t', m', hrun, hsame, hstyles⟩

/-- **Fields settle, though not always in one round.** Pure fields that read each other in no circle
can be numbered, each number less than the number of fields. However they are numbered, after as many
rounds as there are numbers each field holds what its script gives, and the next round changes
nothing. -/
theorem fields_settle
    (hacyclic : Acyclic fun i j => w.Scripted i ∧ w.Scripted j ∧ w.Reads i j)
    (hpure : ∀ i, w.Scripted i → w.PureField i) (hreturns : w.Returns)
    (hages : w.card.AgesBounded) :
    (∃ count, w.RoundCount count ∧ ∀ i, w.Scripted i → count i < w.card.fields.length) ∧
      ∀ count k, w.RoundCount count → (∀ i, w.Scripted i → count i < k) →
        ∃ t m, w.card.rounds w.budget k w.machine = (.ok t, m) ∧ (∀ i, w.FieldUpToDate t i) ∧
          ∃ t' m', t.refreshFields w.budget m = (.ok (t', []), m') ∧ t.SameCard t' ∧
            t'.styles = t.styles :=
  ⟨exists_roundCount hacyclic, fun _ _ hcount hk => hcount.settle hk hpure hreturns hages⟩

end Setup

/-! ## A label before what it shows -/

/-- The script of the label: a text for each value of a switch. -/
def switchText : Decision := .test (.field "shown") (.leaf (.string "on")) (.leaf (.string "off"))

/-- A card with a label that reads a later field. -/
def switchCard : Template where
  fields := [
    ⟨⟨"label", ⟨.string "off", some (switchText.script 0 ⟨0⟩ ⟨1⟩), false⟩, 0⟩, 0⟩,
    ⟨⟨"shown", ⟨.bool false, some ((Decision.leaf (.bool true)).script 1 ⟨0⟩ ⟨1⟩), false⟩, 1⟩, 0⟩]
  styles := []
  age := 0

/-- The card linked, to be updated only. -/
def switchSetup : Setup :=
  .ofLink ⟨fun _ _ => False, False, fun _ => False⟩ 30 switchCard (.forCard 2)

namespace Setup

open Template

theorem link_switch : switchCard.link switchSetup.budget (.forCard 2) =
    (.ok (switchSetup.card, none), switchSetup.machine) := link_ofLink (by decide +kernel)

theorem fields_switch : switchSetup.card.fields = switchCard.fields := (owner_link link_switch).1

theorem lists_switch : switchSetup.lists = #[[], [⟨.cardField, 0⟩]] := by decide +kernel

theorem reads_switch {i j : Nat} (h : switchSetup.Reads i j) : i = 0 ∧ j = 1 := by
  obtain ⟨c, hc, hmem⟩ := h
  rw [fields_switch] at hc
  rw [lists_switch] at hmem
  obtain _ | _ | j := j
  · cases hc
    cases hmem
  · cases hc
    exact ⟨congrArg Dependency.index (List.mem_singleton.1 hmem), rfl⟩
  · cases hc

theorem decided_switch : switchSetup.Decided ⟨0⟩ ⟨1⟩ where
  card := by decide +kernel
  styles := by decide +kernel
  field i c s hc hs := by
    rw [fields_switch] at hc
    obtain _ | _ | i := i
    · cases hc
      cases hs
      refine ⟨switchText, ⟨⟨.empty, _, _, rfl⟩, by decide, List.forall_mem_singleton.2 ?_⟩, ?_⟩
      · exact ⟨by decide +kernel, by decide +kernel⟩
      · refine List.forall_mem_cons.2 ⟨fun x hx => ?_, List.forall_mem_singleton.2 fun x hx => ?_⟩
        · cases hx
          rfl
        · cases hx
          rfl
    · cases hc
      cases hs
      refine ⟨.leaf (.bool true), ⟨⟨{ Store.empty with nextIdent := 1 }, _, _, rfl⟩, by decide,
        fun _ h => absurd h List.not_mem_nil⟩, List.forall_mem_singleton.2 fun x hx => ?_⟩
      cases hx
      rfl
    · cases hc
  property i st p s hst _ := by
    obtain ⟨s₀, hs₀, -⟩ := exists_owner (owner_link link_switch).2.2 hst
    cases hs₀

theorem acyclic_switch : Acyclic fun i j =>
    switchSetup.Scripted i ∧ switchSetup.Scripted j ∧ switchSetup.Reads i j :=
  acyclic_of_lt fun i j h => by
    obtain ⟨rfl, rfl⟩ := reads_switch h.2.2
    decide

theorem fields_settle_switch :
    ∃ t m, switchSetup.card.rounds switchSetup.budget 2 switchSetup.machine = (.ok t, m) ∧
      (∀ i, switchSetup.FieldUpToDate t i) ∧
      ∃ t' m', t.refreshFields switchSetup.budget m = (.ok (t', []), m') ∧ t.SameCard t' ∧
        t'.styles = t.styles := by
  have hcount : switchSetup.RoundCount fun i => 1 - i := fun i j _ _ hread => by
    obtain ⟨rfl, rfl⟩ := reads_switch hread
    exact .inl (by decide)
  exact (fields_settle acyclic_switch (fun i _ => decided_switch.pureField i) decided_switch.returns
    (by decide +kernel)).2 _ 2 hcount fun i _ => by omega

/-- One round is not enough for fields that read a later one: the label ran before the switch, and is
not run again in the round in which the switch changes. -/
theorem one_round_leaves_label :
    switchCard.link switchSetup.budget (.forCard 2) =
        (.ok (switchSetup.card, none), switchSetup.machine) ∧
      (∀ i, switchSetup.PureField i) ∧
      (Acyclic fun i j =>
        switchSetup.Scripted i ∧ switchSetup.Scripted j ∧ switchSetup.Reads i j) ∧
      ∃ t changed m t' m',
        switchSetup.card.refreshFields switchSetup.budget switchSetup.machine =
          (.ok (t, changed), m) ∧
        (¬∀ i, switchSetup.FieldUpToDate t i) ∧
        t.refreshFields switchSetup.budget m = (.ok (t', ["label"]), m') := by
  have hrounds : ((do
      let (t, _) ← switchSetup.card.refreshFields switchSetup.budget
      return (← t.refreshFields switchSetup.budget).2 : Run (List String))
        switchSetup.machine).1.toOption = some ["label"] := by decide +kernel
  obtain ⟨t, changed, m, hfirst⟩ := decided_switch.returns.refreshFields .start
  obtain ⟨hsession, -⟩ := switchSetup.roundInvariant_true.refreshFields trivial .start hfirst
  obtain ⟨t', again, m', hsecond⟩ := decided_switch.returns.refreshFields hsession
  have hagain : again = ["label"] := by
    rw [Run.run_bind_ok hfirst] at hrounds
    dsimp only at hrounds
    rw [Run.run_bind_ok hsecond] at hrounds
    exact Option.some.inj hrounds
  subst hagain
  refine ⟨link_switch, decided_switch.pureField, acyclic_switch, t, changed, m, t', m', hfirst,
    fun hdone => ?_, hsecond⟩
  obtain ⟨hnone, -⟩ := refreshFields_unchanged hdone hsession hsecond
  cases hnone

end Setup

end ReactiveScript
