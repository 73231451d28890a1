import ReactiveScript.Proofs.Round

/-
  What happens in a round.

  A round is a list of events: a field is run, with or without another value being stored in it, or a
  style is marked. `Played` says what such a list makes of the card and of the machine, each field
  being run through its own update. Updating all fields and editing one play a list of events in
  which every field that changed has its readers told, or they get stuck in a script that does not
  come back (`plays_refreshFields`, `plays_edit`). Since a field is only run while its age is behind
  that of the round, no list of events runs it twice (`Played.nodup_ranIn`).
-/

namespace ReactiveScript.Template

/-! ## Events -/

/-- What happens to an owner in a round. -/
inductive RoundEvent
  /-- The field at an index is run; says whether another value is stored in it. -/
  | ran (i : Nat) (changed : Bool)
  /-- The style at an index is marked. -/
  | marked (i : Nat)

/-- The field that an event runs. -/
def RoundEvent.run? : RoundEvent → Option Nat
  | .ran i _ => some i
  | .marked _ => none

/-- The field in which an event stores another value. -/
def RoundEvent.changed? : RoundEvent → Option Nat
  | .ran i true => some i
  | _ => none

/-- The fields that are run, in order. -/
def ranIn (events : List RoundEvent) : List Nat := events.filterMap RoundEvent.run?

/-- The fields in which another value is stored, in order. -/
def changedIn (events : List RoundEvent) : List Nat := events.filterMap RoundEvent.changed?

@[simp] theorem ranIn_append (es es' : List RoundEvent) : ranIn (es ++ es') = ranIn es ++ ranIn es' :=
  List.filterMap_append ..

@[simp] theorem changedIn_append (es es' : List RoundEvent) :
    changedIn (es ++ es') = changedIn es ++ changedIn es' :=
  List.filterMap_append ..

theorem ranIn_cons (e : RoundEvent) (es : List RoundEvent) :
    ranIn (e :: es) = e.run?.toList ++ ranIn es := by
  unfold ranIn
  cases h : e.run? <;> simp [h]

theorem changedIn_cons (e : RoundEvent) (es : List RoundEvent) :
    changedIn (e :: es) = e.changed?.toList ++ changedIn es := by
  unfold changedIn
  cases h : e.changed? <;> simp [h]

/-- An event and what it makes of a round and of the machine. A field is run if it did not run
before in the round; its script sees the card. -/
inductive Happens (budget : Nat) : Round → Machine → RoundEvent → Round → Machine → Prop
  | ran (r : Round) (m m₁ m₂ : Machine) (i : Nat) (c : FieldCell) (f : Field) (mask : Changes)
      (cell : r.template.fields[i]? = some c) (fresh : c.age < r.template.age)
      (shown : (r.template.stamp i c.field).bind m = (.ok (), m₁))
      (update : c.field.update budget false m₁ = (.ok (mask, f), m₂)) :
      Happens budget r m (.ran i !mask.isEmpty)
        ⟨r.template.stamp i f, if mask.isEmpty then r.changed else r.changed ++ [f.name]⟩ m₂
  | marked (r : Round) (m : Machine) (i : Nat) :
      Happens budget r m (.marked i) { r with template := r.template.markDirty i } m

/-- Events in order. -/
inductive Played (budget : Nat) : Round → Machine → List RoundEvent → Round → Machine → Prop
  | nil (r : Round) (m : Machine) : Played budget r m [] r m
  | cons {r r₁ r' : Round} {m m₁ m' : Machine} {e : RoundEvent} {es : List RoundEvent} :
      Happens budget r m e r₁ m₁ → Played budget r₁ m₁ es r' m' → Played budget r m (e :: es) r' m'

variable {budget : Nat} {r r₁ r' : Round} {m m₁ m' : Machine} {e : RoundEvent}
  {es es' : List RoundEvent}

theorem Happens.played (h : Happens budget r m e r' m') : Played budget r m [e] r' m' :=
  .cons h (.nil r' m')

theorem Played.append (h : Played budget r m es r₁ m₁) (h' : Played budget r₁ m₁ es' r' m') :
    Played budget r m (es ++ es') r' m' := by
  induction h with
  | nil => exact h'
  | cons hfirst _ ih => exact .cons hfirst (ih h')

/-! ## What an event does -/

/-- The readers of the field at an index. -/
def readersOf (t : Template) (lists : Array (List Dependency)) (i : Nat) : List Dependency :=
  ((t.fields[i]?).map fun c => lists[c.field.dependents]?.getD []).getD []

/-- The name of the field at an index. -/
def nameAt? (t : Template) (i : Nat) : Option String := (t.fields[i]?).map (·.field.name)

/-- What running a field makes of the round and of the machine. -/
structure RanField (r : Round) (m : Machine) (i : Nat) (changed : Bool) (r' : Round) (m' : Machine)
    (c : FieldCell) (f : Field) : Prop where
  cell : r.template.fields[i]? = some c
  fresh : c.age < r.template.age
  template : r'.template = r.template.stamp i f
  shape : f.shape = c.field.shape
  names : r'.changed = if changed then r.changed ++ [c.field.name] else r.changed
  replaced : changed = true → f.value.equal c.field.value = false
  kept : changed = false → f = c.field
  lists : m'.store.dependents = m.store.dependents

theorem Happens.ranField {i : Nat} {changed : Bool} (h : Happens budget r m (.ran i changed) r' m') :
    ∃ c f, RanField r m i changed r' m' c f := by
  cases h with
  | ran _ _ m₁ c f mask hcell hfresh hshown hupdate =>
    obtain ⟨m₂, hbind, hproceeds, -⟩ :=
      (r.template.stamp i c.field).run_bind_shown budget (fun _ => True) m
    cases hshown.symm.trans hbind
    obtain ⟨hstays, stored, content, hu, rfl, rfl⟩ :=
      c.field.update_updated (fun _ _ => trivial) hupdate
    have hlists := hstays.proceeds.later.dependents.trans hproceeds.later.dependents
    have hshape := Field.shape_update hupdate
    cases stored with
    | true =>
      exact ⟨c, _, hcell, hfresh, rfl, hshape, rfl, fun _ => hu.same_of_changed, nofun, hlists⟩
    | false =>
      obtain rfl := hu.eq_of_unchanged
      exact ⟨c, _, hcell, hfresh, rfl, hshape, rfl, nofun, fun _ => rfl, hlists⟩

theorem changedIn_sublist (es : List RoundEvent) : (changedIn es).Sublist (ranIn es) := by
  induction es with
  | nil => exact .slnil
  | cons e rest ih =>
    rw [ranIn_cons, changedIn_cons]
    refine List.Sublist.append ?_ ih
    obtain ⟨i, _ | _⟩ | i := e
    · exact List.nil_sublist _
    · exact List.Sublist.refl _
    · exact List.Sublist.refl _

theorem mem_ranIn_of_changedIn {i : Nat} (h : i ∈ changedIn es) : i ∈ ranIn es :=
  (changedIn_sublist es).subset h

/-- What events leave of the round and the machine, and what they do to the fields they run. -/
structure Effect (r : Round) (m : Machine) (es : List RoundEvent) (r' : Round) (m' : Machine) :
    Prop where
  age : r'.template.age = r.template.age
  sameShape : r.template.SameShape r'.template
  lists : m'.store.dependents = m.store.dependents
  names : r'.changed = r.changed ++ (changedIn es).filterMap r.template.nameAt?
  waiting : r'.template.waiting + (ranIn es).length = r.template.waiting
  told : ∀ dep, r.template.Told dep → r'.template.Told dep
  nodup : (ranIn es).Nodup
  ran : ∀ i ∈ ranIn es, ∃ c c', r.template.fields[i]? = some c ∧ c.age < r.template.age ∧
    r'.template.fields[i]? = some c' ∧ c'.age = r.template.age
  left : ∀ i, i ∉ ranIn es → r'.template.fields[i]? = r.template.fields[i]?
  replaced : ∀ i ∈ changedIn es, ∃ c c', r.template.fields[i]? = some c ∧
    r'.template.fields[i]? = some c' ∧ c'.field.value.equal c.field.value = false
  kept : ∀ i, i ∉ changedIn es →
    (r'.template.fields[i]?).map FieldCell.field = (r.template.fields[i]?).map FieldCell.field

theorem Effect.refl (r : Round) (m : Machine) : Effect r m [] r m where
  age := rfl
  sameShape := .refl _
  lists := rfl
  names := (List.append_nil _).symm
  waiting := rfl
  told _ := id
  nodup := .nil
  ran _ h := absurd h List.not_mem_nil
  left _ _ := rfl
  replaced _ h := absurd h List.not_mem_nil
  kept _ _ := rfl

theorem SameShape.nameAt?_eq {t t' : Template} (h : t.SameShape t') (i : Nat) :
    t'.nameAt? i = t.nameAt? i := by
  have hmap := congrArg (fun l => (l[i]?).map fun s => s.1) h.fields
  simp only [List.getElem?_map, Option.map_map] at hmap
  exact hmap

theorem SameShape.readersOf_eq {t t' : Template} (h : t.SameShape t')
    (lists : Array (List Dependency)) (i : Nat) : t'.readersOf lists i = t.readersOf lists i := by
  have hmap := congrArg (fun l => (l[i]?).map fun s => lists[s.2.2]?.getD []) h.fields
  simp only [List.getElem?_map, Option.map_map] at hmap
  exact congrArg (Option.getD · []) hmap

/-- What ran before is not run again. -/
theorem Effect.disjoint (h : Effect r m es r₁ m₁) (h' : Effect r₁ m₁ es' r' m') {i : Nat}
    (hi : i ∈ ranIn es) : i ∉ ranIn es' := by
  intro hi'
  obtain ⟨_, c, -, -, hc, hage⟩ := h.ran i hi
  obtain ⟨c', _, hc', hfresh, -, -⟩ := h'.ran i hi'
  cases hc.symm.trans hc'
  rw [hage, h.age] at hfresh
  exact absurd hfresh (Nat.lt_irrefl _)

theorem Effect.trans (h : Effect r m es r₁ m₁) (h' : Effect r₁ m₁ es' r' m') :
    Effect r m (es ++ es') r' m' where
  age := h'.age.trans h.age
  sameShape := h.sameShape.trans h'.sameShape
  lists := h'.lists.trans h.lists
  names := by
    rw [h'.names, h.names, changedIn_append, List.filterMap_append, List.append_assoc,
      funext h.sameShape.nameAt?_eq]
  waiting := by
    have hes := h.waiting
    have hes' := h'.waiting
    rw [ranIn_append, List.length_append]
    omega
  told dep hdep := h'.told dep (h.told dep hdep)
  nodup := by
    rw [ranIn_append]
    exact List.nodup_append.2 ⟨h.nodup, h'.nodup, fun i hi j hj hij => h.disjoint h' hi (hij ▸ hj)⟩
  ran i hi := by
    rw [ranIn_append, List.mem_append] at hi
    rcases hi with hi | hi
    · obtain ⟨c, c', hc, hfresh, hc', hage⟩ := h.ran i hi
      rw [← h'.left i (h.disjoint h' hi)] at hc'
      exact ⟨c, c', hc, hfresh, hc', hage⟩
    · have hnot : i ∉ ranIn es := fun hes => h.disjoint h' hes hi
      obtain ⟨c, c', hc, hfresh, hc', hage⟩ := h'.ran i hi
      rw [h.left i hnot] at hc
      rw [h.age] at hfresh hage
      exact ⟨c, c', hc, hfresh, hc', hage⟩
  left i hi := by
    rw [ranIn_append, List.mem_append, not_or] at hi
    exact (h'.left i hi.2).trans (h.left i hi.1)
  replaced i hi := by
    rw [changedIn_append, List.mem_append] at hi
    rcases hi with hi | hi
    · obtain ⟨c, c', hc, hc', hne⟩ := h.replaced i hi
      rw [← h'.left i (h.disjoint h' (mem_ranIn_of_changedIn hi))] at hc'
      exact ⟨c, c', hc, hc', hne⟩
    · have hnot : i ∉ ranIn es := fun hes => h.disjoint h' hes (mem_ranIn_of_changedIn hi)
      obtain ⟨c, c', hc, hc', hne⟩ := h'.replaced i hi
      rw [h.left i hnot] at hc
      exact ⟨c, c', hc, hc', hne⟩
  kept i hi := by
    rw [changedIn_append, List.mem_append, not_or] at hi
    exact (h'.kept i hi.2).trans (h.kept i hi.1)

namespace RanField

variable {i : Nat} {changed : Bool} {c : FieldCell} {f : Field}

theorem getElem? (h : RanField r m i changed r' m' c f) (j : Nat) :
    r'.template.fields[j]? = if i = j then some ⟨f, r.template.age⟩ else r.template.fields[j]? := by
  rw [h.template, getElem?_stamp h.cell]

theorem effect (h : RanField r m i changed r' m' c f) : Effect r m [.ran i changed] r' m' := by
  have hself : r'.template.fields[i]? = some ⟨f, r.template.age⟩ := by
    rw [h.getElem?, if_pos rfl]
  have hother : ∀ j, i ≠ j → r'.template.fields[j]? = r.template.fields[j]? := by
    intro j hj
    rw [h.getElem?, if_neg hj]
  have hstyles : r'.template.styles = r.template.styles := by rw [h.template]; rfl
  have hage : r'.template.age = r.template.age := by rw [h.template]; rfl
  have hchanged : changedIn [.ran i changed] = if changed then [i] else [] := by
    cases changed <;> rfl
  refine ⟨hage, ?_, h.lists, ?_, ?_, ?_, List.pairwise_singleton _ _, ?_, ?_, ?_, ?_⟩
  · rw [h.template]
    exact (sameShape_setField h.cell h.shape).trans (sameCard_stamp _ _ _).sameShape
  · have hname : r.template.nameAt? i = some c.field.name := by rw [nameAt?, h.cell]; rfl
    rw [h.names, hchanged]
    cases changed <;> simp [hname]
  · rw [h.template]
    exact waiting_stamp h.cell h.fresh f
  · rintro ⟨kind, k⟩ hk
    cases kind with
    | cardField =>
      intro d hd
      rw [hage]
      by_cases hik : i = k
      · subst hik
        cases hself.symm.trans hd
        exact Nat.le_refl _
      · rw [hother k hik] at hd
        exact hk d hd
    | style =>
      intro d hd
      rw [hstyles] at hd
      exact hk d hd
    | cardsField => exact hk
    | fieldEdit => exact hk
    | copyDependencies => exact hk
    | dummy => exact hk
  · intro j hj
    obtain rfl := List.mem_singleton.1 hj
    exact ⟨c, _, h.cell, h.fresh, hself, rfl⟩
  · intro j hj
    exact hother j fun hij => hj (List.mem_singleton.2 hij.symm)
  · intro j hj
    rw [hchanged] at hj
    cases changed with
    | true =>
      obtain rfl := List.mem_singleton.1 hj
      exact ⟨c, _, h.cell, hself, h.replaced rfl⟩
    | false => exact absurd hj List.not_mem_nil
  · intro j hj
    by_cases hij : i = j
    · subst hij
      rw [hchanged] at hj
      cases changed with
      | true => exact absurd (List.mem_singleton.2 rfl) hj
      | false => rw [hself, h.cell, Option.map_some, Option.map_some, h.kept rfl]
    · rw [hother j hij]

end RanField

theorem told_markDirty_of_told {t : Template} {dep : Dependency} (h : t.Told dep) (i : Nat) :
    (t.markDirty i).Told dep := by
  obtain ⟨kind, k⟩ := dep
  cases kind with
  | style =>
    intro c hc
    have hget : (t.styles.modify i fun c => { c with dirty := true })[k]? = some c := hc
    by_cases hik : i = k
    · subst hik
      exact told_markDirty t i c hc
    · rw [List.getElem?_modify_ne _ _ hik] at hget
      exact h c hget
  | cardField => exact h
  | cardsField => exact h
  | fieldEdit => exact h
  | copyDependencies => exact h
  | dummy => exact h

theorem Happens.effect (h : Happens budget r m e r' m') : Effect r m [e] r' m' := by
  cases e with
  | ran i changed =>
    obtain ⟨c, f, hran⟩ := h.ranField
    exact hran.effect
  | marked i =>
    cases h
    exact { Effect.refl r m with
      sameShape := (sameCard_markDirty _ i).sameShape
      told := fun _ hdep => told_markDirty_of_told hdep i }

theorem Played.effect (h : Played budget r m es r' m') : Effect r m es r' m' := by
  induction h with
  | nil r m => exact .refl r m
  | cons hfirst _ ih => exact hfirst.effect.trans ih

/-! ## What a part of a round plays -/

/-- A round can not go on after some events: the script of a field that did not run before does not
come back, with a value or an error, from the machine in which it is run. -/
def Stuck (budget : Nat) (r : Round) (m : Machine) : Prop :=
  ∃ es r' m' m₁ i c s, Played budget r m es r' m' ∧ r'.template.fields[i]? = some c ∧
    c.age < r'.template.age ∧ (r'.template.stamp i c.field).bind m' = (.ok (), m₁) ∧
    c.field.content.script = some s ∧ ¬Run.Returned (Run.eval budget s true (c.field.inner m₁)).1

theorem Played.stuck (h : Played budget r m es r₁ m₁) (hs : Stuck budget r₁ m₁) :
    Stuck budget r m := by
  obtain ⟨es', r', m', m₂, i, c, s, hplayed, hrest⟩ := hs
  exact ⟨es ++ es', r', m', m₂, i, c, s, h.append hplayed, hrest⟩

variable {α β : Type}

/-- A part of a round comes back after some events, with a result that fits them, or is stuck. -/
def Plays (budget : Nat) (r : Round) (m : Machine) (fits : α → List RoundEvent → Round → Prop) :
    Except Stop α × Machine → Prop
  | (.ok a, m') => ∃ es r', Played budget r m es r' m' ∧ fits a es r'
  | (.error _, _) => Stuck budget r m

theorem Plays.mono {fits fits' : α → List RoundEvent → Round → Prop} {out : Except Stop α × Machine}
    (h : Plays budget r m fits out)
    (himp : ∀ a es r' m', Played budget r m es r' m' → fits a es r' → fits' a es r') :
    Plays budget r m fits' out := by
  rcases out with ⟨stop | a, m'⟩
  · exact h
  · obtain ⟨es, r', hplayed, hfits⟩ := h
    exact ⟨es, r', hplayed, himp a es r' m' hplayed hfits⟩

theorem Plays.after {fits : α → List RoundEvent → Round → Prop} {out : Except Stop α × Machine}
    (hplayed : Played budget r m es r₁ m₁)
    (h : Plays budget r₁ m₁ (fun a es' r' => fits a (es ++ es') r') out) :
    Plays budget r m fits out := by
  rcases out with ⟨stop | a, m'⟩
  · exact hplayed.stuck h
  · obtain ⟨es', r', hplayed', hfits⟩ := h
    exact ⟨es ++ es', r', hplayed.append hplayed', hfits⟩

theorem Plays.bind {fits : α → List RoundEvent → Round → Prop}
    {fits' : β → List RoundEvent → Round → Prop} {x : Run α} {f : α → Run β}
    (hx : Plays budget r m fits (x m))
    (hf : ∀ a es r₁ m₁, Played budget r m es r₁ m₁ → fits a es r₁ →
      Plays budget r₁ m₁ (fun b es' r' => fits' b (es ++ es') r') (f a m₁)) :
    Plays budget r m fits' ((x >>= f) m) := by
  rw [Run.run_bind]
  generalize x m = out at hx ⊢
  rcases out with ⟨stop | a, m₁⟩
  · exact hx
  · obtain ⟨es, r₁, hplayed, hfits⟩ := hx
    exact .after hplayed (hf a es r₁ m₁ hplayed hfits)

theorem plays_pure {fits : α → List RoundEvent → Round → Prop} {a : α} (h : fits a [] r) :
    Plays budget r m fits ((pure a : Run α) m) :=
  ⟨[], r, .nil r m, h⟩

/-- Every reader of a field that changed is in the list. -/
def Hands (lists : Array (List Dependency)) (r : Round) (es : List RoundEvent)
    (readers : List Dependency) : Prop :=
  ∀ i ∈ changedIn es, ∀ d ∈ r.template.readersOf lists i, d ∈ readers

/-- Every reader of a field that changed was told. -/
def Reached (lists : Array (List Dependency)) (r : Round) (es : List RoundEvent) (r' : Round) :
    Prop :=
  ∀ i ∈ changedIn es, ∀ d ∈ r.template.readersOf lists i, r'.template.Told d

/-- Updating a field only stops early if its script does not come back. -/
theorem not_returned_of_update {f : Field} {stop : Stop}
    (h : f.update budget false m = (.error stop, m')) :
    ∃ s, f.content.script = some s ∧ ¬Run.Returned (Run.eval budget s true (f.inner m)).1 := by
  refine Classical.byContradiction fun hnone => ?_
  have hall : ∀ s, f.content.script = some s →
      Run.Returned (Run.eval budget s true (f.inner m)).1 :=
    fun s hs => Classical.byContradiction fun hr => hnone ⟨s, hs, hr⟩
  obtain ⟨result, m₁, hattempt⟩ := Computed.attempt_update_returns hall
  obtain ⟨mask, f', m₂, hupdate⟩ := f.update_returns hattempt
  cases h.symm.trans hupdate

/-- Running a field that did not run before is an event. -/
theorem plays_runField (r : Round) (m : Machine) (i : Nat) :
    Plays budget r m (fun a es r' => a.1 = r' ∧ r'.template.Ran i ∧
      Hands m.store.dependents r es a.2 ∧ (a.2 ≠ [] → ranIn es ≠ []))
      (runField budget r i m) := by
  unfold runField
  cases hc : r.template.fields[i]? with
  | none =>
    refine plays_pure ⟨rfl, fun c h => ?_, nofun, nofun⟩
    cases hc.symm.trans h
  | some c =>
    dsimp only
    by_cases hage : c.age ≥ r.template.age
    · rw [if_pos hage]
      refine plays_pure ⟨rfl, fun d h => ?_, nofun, nofun⟩
      cases hc.symm.trans h
      exact hage
    · rw [if_neg hage]
      have hfresh := Nat.lt_of_not_le hage
      obtain ⟨m₁, hbind, -, -⟩ := (r.template.stamp i c.field).run_bind_shown budget (fun _ => True) m
      have hbind' := hbind
      unfold stamp at hbind'
      rw [Run.run_bind_ok hbind', Run.run_bind]
      rcases hupdate : c.field.update budget false m₁ with ⟨stop | ⟨mask, f⟩, m₂⟩
      · obtain ⟨s, hs, hnot⟩ := not_returned_of_update hupdate
        exact ⟨[], r, m, m₁, i, c, s, .nil r m, hc, hfresh, hbind, hs, hnot⟩
      · have hran := Happens.ran r m m₁ m₂ i c f mask hc hfresh hbind hupdate
        have heffect := hran.effect
        have hfields : ({ r.template with fields :=
            (r.template.fields.set i ⟨c.field, r.template.age⟩).set i ⟨f, r.template.age⟩ } :
              Template) = r.template.stamp i f := by
          rw [List.set_set]
          rfl
        have hself : (r.template.stamp i f).Ran i := by
          intro d hd
          rw [getElem?_stamp hc, if_pos rfl] at hd
          cases hd
          exact Nat.le_refl _
        cases hmask : mask.isEmpty with
        | true =>
          rw [hmask] at hran
          dsimp only
          rw [hmask, if_pos rfl, hfields]
          refine ⟨_, _, hran.played, rfl, hself, nofun, nofun⟩
        | false =>
          rw [hmask] at hran
          dsimp only
          rw [hmask, if_neg Bool.false_ne_true, hfields]
          refine ⟨_, _, hran.played, rfl, hself, ?_, nofun⟩
          intro j hj d hd
          obtain rfl := List.mem_singleton.1 hj
          have hdependents : f.dependents = c.field.dependents :=
            congrArg (fun shape => shape.2.2) (Field.shape_update hupdate)
          have hlists : m₂.store.dependents = m.store.dependents := heffect.lists
          rw [readersOf, hc, ← hlists] at hd
          show d ∈ m₂.store.dependents[f.dependents]?.getD []
          rw [hdependents]
          exact hd

theorem Hands.append {lists : Array (List Dependency)} {xs ys : List Dependency}
    (h : Hands lists r es xs) (hshape : r.template.SameShape r₁.template)
    (h' : Hands lists r₁ es' ys) : Hands lists r (es ++ es') (xs ++ ys) := by
  intro i hi d hd
  rw [changedIn_append, List.mem_append] at hi
  rcases hi with hi | hi
  · exact List.mem_append_left _ (h i hi d hd)
  · rw [← hshape.readersOf_eq] at hd
    exact List.mem_append_right _ (h' i hi d hd)

theorem Hands.reached {lists : Array (List Dependency)} {readers : List Dependency}
    (h : Hands lists r es readers) (htold : ∀ d ∈ readers, r'.template.Told d) :
    Reached lists r es r' :=
  fun i hi d hd => htold d (h i hi d hd)

theorem Reached.later {lists : Array (List Dependency)} (h : Reached lists r es r₁)
    (hplayed : Played budget r₁ m₁ es' r' m') : Reached lists r es r' :=
  fun i hi d hd => hplayed.effect.told d (h i hi d hd)

theorem Reached.append {lists : Array (List Dependency)} (h : Reached lists r es r')
    (hshape : r.template.SameShape r₁.template) (h' : Reached lists r₁ es' r') :
    Reached lists r (es ++ es') r' := by
  intro i hi d hd
  rw [changedIn_append, List.mem_append] at hi
  rcases hi with hi | hi
  · exact h i hi d hd
  · rw [← hshape.readersOf_eq] at hd
    exact h' i hi d hd

/-- Telling readers tells all of them; those of the fields that changed on the way are handed on. -/
theorem plays_tellReaders (r : Round) (m : Machine) (deps : List Dependency) :
    Plays budget r m (fun a es r' => a.1 = r' ∧ (∀ d ∈ deps, r'.template.Told d) ∧
      Hands m.store.dependents r es a.2 ∧ (a.2 ≠ [] → ranIn es ≠ []))
      (tellReaders budget r deps m) := by
  induction deps generalizing r m with
  | nil => exact plays_pure ⟨rfl, nofun, nofun, nofun⟩
  | cons dep rest ih =>
    -- a reader that is not a field is told without running anything
    have hskip : ∀ (r₁ : Round) (es : List RoundEvent), Played budget r m es r₁ m →
        ranIn es = [] → changedIn es = [] → r₁.template.Told dep →
        Plays budget r m (fun a es r' => a.1 = r' ∧ (∀ d ∈ dep :: rest, r'.template.Told d) ∧
          Hands m.store.dependents r es a.2 ∧ (a.2 ≠ [] → ranIn es ≠ []))
          (tellReaders budget r₁ rest m) := by
      intro r₁ es hplayed hran hchanged htold
      refine .after hplayed ((ih r₁ m).mono fun a es' r' m' hplayed' hfits => ?_)
      obtain ⟨hr', htold', hhands, hne⟩ := hfits
      refine ⟨hr', fun d hd => ?_, fun i hi d hd => ?_, ?_⟩
      · rcases List.mem_cons.1 hd with rfl | hd
        · exact hplayed'.effect.told _ htold
        · exact htold' d hd
      · rw [changedIn_append, hchanged, List.nil_append] at hi
        rw [← hplayed.effect.sameShape.readersOf_eq] at hd
        exact hhands i hi d hd
      · rw [ranIn_append, hran, List.nil_append]
        exact hne
    obtain ⟨kind, i⟩ := dep
    cases kind with
    | cardField =>
      refine (plays_runField r m i).bind fun a es r₁ m₁ hplayed hfits => ?_
      obtain ⟨r₂, readers⟩ := a
      obtain ⟨rfl, hran, hhands, hne⟩ := hfits
      refine (ih r₂ m₁).bind fun a es' r₃ m₂ hplayed' hfits => ?_
      obtain ⟨r₄, more⟩ := a
      obtain ⟨rfl, htold, hhands', hne'⟩ := hfits
      rw [hplayed.effect.lists] at hhands'
      refine plays_pure ⟨rfl, fun d hd => ?_, ?_, fun h => ?_⟩
      · rcases List.mem_cons.1 hd with rfl | hd
        · exact hplayed'.effect.told _ hran
        · exact htold d hd
      · rw [List.append_nil]
        exact hhands.append hplayed.effect.sameShape hhands'
      · rw [List.append_nil, ranIn_append]
        intro hnil
        obtain ⟨h₁, h₂⟩ := List.append_eq_nil_iff.1 hnil
        have hreaders : readers = [] := Classical.byContradiction fun hr => hne hr h₁
        have hmore : more = [] := Classical.byContradiction fun hr => hne' hr h₂
        exact h (by rw [hreaders, hmore]; rfl)
    | style => exact hskip _ _ (Happens.marked r m i).played rfl rfl (told_markDirty _ _)
    | cardsField => exact hskip r [] (.nil r m) rfl rfl trivial
    | fieldEdit => exact hskip r [] (.nil r m) rfl rfl trivial
    | copyDependencies => exact hskip r [] (.nil r m) rfl rfl trivial
    | dummy => exact hskip r [] (.nil r m) rfl rfl trivial

/-- Telling readers wave by wave leaves none to be told, if there are more waves than fields that did
not run yet. -/
theorem plays_spread (waves : Nat) (r : Round) (m : Machine) (deps : List Dependency)
    (hwaves : r.template.waiting < waves ∨ deps = []) :
    Plays budget r m (fun a es r' => a = r' ∧ (∀ d ∈ deps, r'.template.Told d) ∧
      Reached m.store.dependents r es r') (spread budget waves r deps m) := by
  induction waves generalizing r m deps with
  | zero =>
    obtain rfl := hwaves.resolve_left (Nat.not_lt_zero _)
    exact plays_pure ⟨rfl, nofun, nofun⟩
  | succ waves ih =>
    cases deps with
    | nil => exact plays_pure ⟨rfl, nofun, nofun⟩
    | cons dep rest =>
      refine (plays_tellReaders r m (dep :: rest)).bind fun a es r₁ m₁ hplayed hfits => ?_
      obtain ⟨r₂, readers⟩ := a
      obtain ⟨rfl, htold, hhands, hne⟩ := hfits
      have heffect := hplayed.effect
      have hwaves' : r₂.template.waiting < waves ∨ readers = [] := by
        by_cases hnil : readers = []
        · exact .inr hnil
        · have hpos := List.length_pos_iff.2 (hne hnil)
          have hwaiting : r₂.template.waiting + _ = _ := heffect.waiting
          have hlt := hwaves.resolve_right (List.cons_ne_nil _ _)
          left
          omega
      refine (ih r₂ m₁ readers hwaves').mono fun r₃ es' r' m' hplayed' hfits => ?_
      obtain ⟨rfl, htold', hreached⟩ := hfits
      rw [heffect.lists] at hreached
      exact ⟨rfl, fun d hd => hplayed'.effect.told d (htold d hd),
        (hhands.reached htold').append heffect.sameShape hreached⟩

theorem plays_spreadAll (r : Round) (m : Machine) (deps : List Dependency) :
    Plays budget r m (fun a es r' => a = r' ∧ (∀ d ∈ deps, r'.template.Told d) ∧
      Reached m.store.dependents r es r') (spreadAll budget r deps m) :=
  plays_spread _ r m deps (.inl (Nat.lt_succ_of_le List.countP_le_length))

/-- Running fields in order, each with everything that follows from it. -/
theorem plays_runFields (r : Round) (m : Machine) (indices : List Nat) :
    Plays budget r m (fun a es r' => a = r' ∧ (∀ i ∈ indices, r'.template.Ran i) ∧
      Reached m.store.dependents r es r') (runFields budget r indices m) := by
  induction indices generalizing r m with
  | nil => exact plays_pure ⟨rfl, nofun, nofun⟩
  | cons i rest ih =>
    refine (plays_runField r m i).bind fun a es r₁ m₁ hplayed hfits => ?_
    obtain ⟨r₂, readers⟩ := a
    obtain ⟨rfl, hran, hhands, -⟩ := hfits
    refine (plays_spreadAll r₂ m₁ readers).bind fun r₃ es' r₄ m₂ hplayed' hfits => ?_
    obtain ⟨rfl, htold, hreached⟩ := hfits
    refine (ih r₃ m₂).mono fun r₄ es'' r' m' hplayed'' hfits => ?_
    obtain ⟨rfl, hran', hreached'⟩ := hfits
    have hshape := hplayed.effect.sameShape
    rw [hplayed'.effect.lists, hplayed.effect.lists] at hreached'
    rw [hplayed.effect.lists] at hreached
    have hchanged := ((hhands.reached htold).append hshape hreached).later hplayed''
    rw [← List.append_assoc]
    refine ⟨rfl, fun j hj => ?_, hchanged.append (hshape.trans hplayed'.effect.sameShape) hreached'⟩
    rcases List.mem_cons.1 hj with rfl | hj
    · exact hplayed''.effect.told ⟨.cardField, j⟩ (hplayed'.effect.told ⟨.cardField, j⟩ hran)
    · exact hran' j hj

end ReactiveScript.Template
