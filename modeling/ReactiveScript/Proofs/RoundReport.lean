import ReactiveScript.Proofs.RoundLog
import ReactiveScript.Proofs.FieldRounds
import ReactiveScript.Proofs.Rendering

/-
  What a round reports.

  Cards come about from an empty one by adding owners, linking, editing, updating and rendering
  (`Made`); their fields are never ahead of the last round (`Made.agesBounded`). On such a card a
  round, with any lists of dependents, runs each field at most once and not the edited one, reaches
  every reader of a field that changed, and reports exactly the fields in which another value was
  stored (`Report`), unless a script that it runs does not come back (`rounds_report`).
-/

namespace ReactiveScript.Template

/-! ## Cards that come about -/

/-- Owners are added and edited, the card is linked, and put to use with any budget in any machine. -/
inductive Made : Template → Prop
  | empty : Made .empty
  | addField {t : Template} (f : Field) : Made t → Made (t.addField f)
  | addStyle {t : Template} (s : Style) : Made t → Made (t.addStyle s)
  | setStyle {t : Template} (i : Nat) (s : Style) : Made t → Made (t.setStyle i s)
  | markAllDirty {t : Template} : Made t → Made t.markAllDirty
  | link {t t' : Template} {budget : Nat} {failure : Option EvalError} {m m' : Machine} :
      Made t → t.link budget m = (.ok (t', failure), m') → Made t'
  | refreshFields {t t' : Template} {budget : Nat} {changed : List String} {m m' : Machine} :
      Made t → t.refreshFields budget m = (.ok (t', changed), m') → Made t'
  | edit {t t' : Template} {budget : Nat} {name : String} {v : Value} {changed : List String}
      {m m' : Machine} : Made t → t.edit budget name v m = (.ok (t', changed), m') → Made t'
  | render {t : Template} {budget : Nat} {measure : Style → Run (Option Measurement)}
      {rendered : Rendered} {m m' : Machine} :
      Made t → t.render budget measure m = (.ok rendered, m') → Made rendered.template

/-- The same fields with the same ages. -/
structure SameFields (t t' : Template) : Prop where
  fields : t'.fields = t.fields
  age : t'.age = t.age

theorem SameFields.trans {t t' t'' : Template} (h : t.SameFields t') (h' : t'.SameFields t'') :
    t.SameFields t'' :=
  ⟨h'.fields.trans h.fields, h'.age.trans h.age⟩

theorem SameFields.agesBounded {t t' : Template} (h : t.SameFields t') (ht : t.AgesBounded) :
    t'.AgesBounded := by
  intro c hc
  rw [h.fields] at hc
  rw [h.age]
  exact ht c hc

/-- Linking leaves the fields as they are, also when a pass fails. -/
theorem sameFields_link {t t' : Template} {budget : Nat} {failure : Option EvalError}
    {m m' : Machine} (h : t.link budget m = (.ok (t', failure), m')) : t.SameFields t' := by
  obtain ⟨_, m₁, -, h⟩ := Run.run_bind_eq_ok h
  obtain ⟨_, m₂, -, h⟩ := Run.run_bind_eq_ok h
  obtain ⟨result, m₃, -, h⟩ := Run.run_bind_eq_ok h
  cases result with
  | error e =>
    cases h
    exact ⟨rfl, rfl⟩
  | ok _ =>
    obtain ⟨⟨styles, failed⟩, m₄, -, h⟩ := Run.run_bind_eq_ok h
    cases failed <;> cases h <;> exact ⟨rfl, rfl⟩

section Rendering

variable {budget i : Nat} {c c' : Cycle} {m m' : Machine}

theorem sameFields_runStyle {b : Bool} (h : c.runStyle budget b i m = (.ok c', m')) :
    c.template.SameFields c'.template := by
  unfold Cycle.runStyle at h
  cases hs : c.template.styleAt? i with
  | none =>
    rw [hs] at h
    cases h
    exact ⟨rfl, rfl⟩
  | some s =>
    rw [hs] at h
    obtain ⟨_, m₁, -, h⟩ := Run.run_bind_eq_ok h
    obtain ⟨⟨mask, s'⟩, m₂, -, h⟩ := Run.run_bind_eq_ok h
    dsimp only at h
    cases hmask : mask.isEmpty with
    | true =>
      rw [hmask] at h
      cases h
      exact ⟨rfl, rfl⟩
    | false =>
      rw [hmask] at h
      obtain ⟨readers, m₃, -, h⟩ := Run.run_bind_eq_ok h
      have htemplate : c'.template = c.template.setStyle i s' := by
        cases h
        exact (Cycle.foldl_modifyCell _ _ _).1
      rw [htemplate]
      exact ⟨rfl, rfl⟩

theorem sameFields_visitStructure {ran : Bool}
    (h : c.visitStructure budget i m = (.ok (c', ran), m')) :
    c.template.SameFields c'.template := by
  unfold Cycle.visitStructure at h
  cases hcell : c.cells[i]? with
  | none =>
    rw [hcell] at h
    cases h
    exact ⟨rfl, rfl⟩
  | some cell =>
    rw [hcell] at h
    dsimp only at h
    cases hdirty : cell.structureDirty with
    | false =>
      rw [hdirty] at h
      cases h
      exact ⟨rfl, rfl⟩
    | true =>
      rw [hdirty] at h
      obtain ⟨c₁, m₁, hrun, h⟩ := Run.run_bind_eq_ok h
      cases h
      have hsame := sameFields_runStyle hrun
      exact hsame

theorem sameFields_visitContent {ran : Bool}
    (h : c.visitContent budget i m = (.ok (c', ran), m')) :
    c.template.SameFields c'.template := by
  unfold Cycle.visitContent at h
  cases hcell : c.cells[i]? with
  | none =>
    rw [hcell] at h
    cases h
    exact ⟨rfl, rfl⟩
  | some cell =>
    cases hs : c.template.styleAt? i with
    | none =>
      rw [hcell, hs] at h
      cases h
      exact ⟨rfl, rfl⟩
    | some s =>
      rw [hcell, hs] at h
      dsimp only at h
      cases hdirty : cell.contentDirty with
      | false =>
        rw [hdirty] at h
        cases h
        exact ⟨rfl, rfl⟩
      | true =>
        cases hreads : s.readsContent with
        | false =>
          rw [hdirty, hreads] at h
          cases h
          exact ⟨rfl, rfl⟩
        | true =>
          rw [hdirty, hreads] at h
          obtain ⟨c₁, m₁, hrun, h⟩ := Run.run_bind_eq_ok h
          cases h
          have hsame := sameFields_runStyle hrun
          exact hsame

theorem sameFields_phase {visit : Cycle → Nat → Run (Cycle × Bool)}
    (hvisit : ∀ {c m i c' ran m'}, visit c i m = (.ok (c', ran), m') →
      c.template.SameFields c'.template)
    (h : Cycle.phase visit c m = (.ok c', m')) : c.template.SameFields c'.template :=
  Cycle.sweeps_keeps (J := fun c' _ => c.template.SameFields c'.template)
    (fun hc hrun => hc.trans (hvisit hrun)) ⟨rfl, rfl⟩ h

theorem sameFields_measureAll {measure : Style → Run (Option Measurement)} {indices : List Nat}
    {styles : List Style} (h : c.measureAll measure indices m = (.ok (c', styles), m')) :
    c.template.SameFields c'.template := by
  induction indices generalizing c m styles with
  | nil =>
    cases h
    exact ⟨rfl, rfl⟩
  | cons i rest ih =>
    rcases Cycle.measureAll_cons h with ⟨-, h⟩ | ⟨s, result, m₁, styles', -, -, h⟩
    · exact ih h
    · cases result with
      | none => exact ih h
      | some measured =>
        have hstored : c.template.SameFields
            (Cycle.storeMeasured m₁.store.dependents c i s measured).template := by
          rw [Cycle.template_storeMeasured]
          exact ⟨rfl, rfl⟩
        exact hstored.trans (ih h)

end Rendering

/-! ## Reports -/

variable {budget : Nat} {t : Template} {r r' : Round} {m m' : Machine} {es : List RoundEvent}
  {edited : Option Nat}

/-- What a round on a card comes to. The owners in it are told by their indices, `edited` being the
field into which the user stored a value. -/
structure Report (budget : Nat) (t : Template) (begun : Round) (m : Machine) (edited : Option Nat)
    (es : List RoundEvent) (r' : Round) (m' : Machine) : Prop where
  played : Played budget begun m es r' m'
  /-- No field is run twice. -/
  once : (ranIn es).Nodup
  /-- The edited field is not run. -/
  notEdited : ∀ j ∈ edited, j ∉ ranIn es
  /-- The fields that read a field that changed were run, or edited. -/
  readersRan : ∀ j ∈ edited.toList ++ changedIn es, ∀ k < t.fields.length,
    ⟨.cardField, k⟩ ∈ t.readersOf m.store.dependents j → k ∈ ranIn es ∨ k ∈ edited
  /-- The styles that read a field that changed are marked. -/
  readersMarked : ∀ j ∈ edited.toList ++ changedIn es, ∀ k,
    ⟨.style, k⟩ ∈ t.readersOf m.store.dependents j →
      ∀ s, r'.template.styles[k]? = some s → s.dirty = true
  /-- The names of the fields that changed are reported, the edited one first. -/
  names : r'.changed.map some = (edited.toList ++ changedIn es).map t.nameAt?
  /-- Each of them once. -/
  namesOnce : (edited.toList ++ changedIn es).Nodup
  /-- In a field that ran and is reported another value was stored. -/
  replaced : ∀ j ∈ changedIn es, ∃ c c', t.fields[j]? = some c ∧ r'.template.fields[j]? = some c' ∧
    c'.field.value.equal c.field.value = false
  /-- The edited field has the value that was stored. -/
  stored : ∀ j ∈ edited, r'.template.fields[j]? = begun.template.fields[j]?
  /-- A field that is not reported is as it was. -/
  kept : ∀ j, j ∉ edited.toList ++ changedIn es →
    (r'.template.fields[j]?).map FieldCell.field = (t.fields[j]?).map FieldCell.field

/-- A round that begins on a card: only the edited field counts as run. -/
structure Begun (t : Template) (edited : Option Nat) (r : Round) : Prop where
  sameShape : t.SameShape r.template
  age : t.age < r.template.age
  names : r.changed.map some = edited.toList.map t.nameAt?
  ran : ∀ j ∈ edited, r.template.Ran j
  other : ∀ j, j ∉ edited → r.template.fields[j]? = t.fields[j]?

theorem begun_round (t : Template) : Begun t none ⟨t.beginRound, []⟩ :=
  ⟨⟨rfl, rfl⟩, Nat.lt_succ_self _, rfl, nofun, fun _ _ => rfl⟩

theorem begun_edit {i : Nat} {c : FieldCell} {f : Field} (hc : t.fields[i]? = some c)
    (hf : f.shape = c.field.shape) :
    Begun t (some i) ⟨t.beginRound.stamp i f, [c.field.name]⟩ := by
  have hc' : t.beginRound.fields[i]? = some c := hc
  refine ⟨?_, Nat.lt_succ_self _, ?_, ?_, ?_⟩
  · have hbegin : t.SameShape t.beginRound := ⟨rfl, rfl⟩
    exact hbegin.trans
      ((sameShape_setField hc' hf).trans (sameCard_stamp t.beginRound i f).sameShape)
  · simp [nameAt?, hc]
  · rintro j ⟨⟩ d hd
    rw [getElem?_stamp hc', if_pos rfl] at hd
    cases hd
    exact Nat.le_refl _
  · intro j hj
    show (t.beginRound.stamp i f).fields[j]? = _
    rw [getElem?_stamp hc', if_neg fun hij => hj (congrArg some hij)]
    rfl

/-- The edited field did not run. -/
theorem Begun.not_ran (h : Begun t edited r) (hplayed : Played budget r m es r' m') {j : Nat}
    (hj : j ∈ edited) : j ∉ ranIn es := by
  intro hran
  obtain ⟨c, -, hc, hfresh, -⟩ := hplayed.effect.ran j hran
  exact absurd (h.ran j hj c hc) (Nat.not_le_of_lt hfresh)

/-- A field that counts as run was run, or edited. -/
theorem Begun.ran_or_edited (h : Begun t edited r) (ht : t.AgesBounded)
    (hplayed : Played budget r m es r' m') {k : Nat} (hk : k < t.fields.length)
    (hran : r'.template.Ran k) : k ∈ ranIn es ∨ k ∈ edited := by
  by_cases hes : k ∈ ranIn es
  · exact .inl hes
  by_cases hedited : k ∈ edited
  · exact .inr hedited
  -- else its age is what it was before the round
  have hcell : r'.template.fields[k]? = some t.fields[k] := by
    rw [hplayed.effect.left k hes, h.other k hedited, List.getElem?_eq_getElem hk]
  have hage := hran _ hcell
  rw [hplayed.effect.age] at hage
  have hle := ht _ (List.getElem_mem hk)
  have hlt := h.age
  omega

theorem map_some_filterMap {α β : Type} {g : α → Option β} {l : List α}
    (h : ∀ a ∈ l, ∃ b, g a = some b) : (l.filterMap g).map some = l.map g := by
  induction l with
  | nil => rfl
  | cons a rest ih =>
    obtain ⟨b, hb⟩ := h a List.mem_cons_self
    rw [List.filterMap_cons_some hb, List.map_cons, List.map_cons, hb,
      ih fun a ha => h a (List.mem_cons_of_mem _ ha)]

/-- A round in which the readers of all fields that changed were told. -/
theorem Begun.report (h : Begun t edited r) (ht : t.AgesBounded)
    (hplayed : Played budget r m es r' m')
    (hedited : ∀ j ∈ edited, ∀ d ∈ t.readersOf m.store.dependents j, r'.template.Told d)
    (hreached : Reached m.store.dependents r es r') :
    Report budget t r m edited es r' m' := by
  have heffect := hplayed.effect
  have htold : ∀ j ∈ edited.toList ++ changedIn es, ∀ d ∈ t.readersOf m.store.dependents j,
      r'.template.Told d := by
    intro j hj d hd
    rcases List.mem_append.1 hj with hj | hj
    · exact hedited j (Option.mem_toList.1 hj) d hd
    · rw [← h.sameShape.readersOf_eq] at hd
      exact hreached j hj d hd
  have hother : ∀ j ∈ changedIn es, j ∉ edited := fun j hj he =>
    h.not_ran hplayed he (mem_ranIn_of_changedIn hj)
  refine ⟨hplayed, heffect.nodup, fun j hj => h.not_ran hplayed hj, fun j hj k hk hmem => ?_,
    fun j hj k hmem => htold j hj ⟨.style, k⟩ hmem, ?_, ?_, fun j hj => ?_, fun j hj => ?_,
    fun j hj => ?_⟩
  · exact h.ran_or_edited ht hplayed hk (htold j hj ⟨.cardField, k⟩ hmem)
  · rw [heffect.names, List.map_append, List.map_append, h.names,
      funext h.sameShape.nameAt?_eq, map_some_filterMap]
    intro j hj
    obtain ⟨c, -, hc, -⟩ := heffect.replaced j hj
    rw [h.other j (hother j hj)] at hc
    exact ⟨c.field.name, by rw [nameAt?, hc]; rfl⟩
  · have hnodup : edited.toList.Nodup := by cases edited <;> simp
    refine List.nodup_append.2 ⟨hnodup, heffect.nodup.sublist (changedIn_sublist es), ?_⟩
    rintro j hj k hk rfl
    exact hother j hk (Option.mem_toList.1 hj)
  · obtain ⟨c, c', hc, hc', hne⟩ := heffect.replaced j hj
    rw [h.other j (hother j hj)] at hc
    exact ⟨c, c', hc, hc', hne⟩
  · exact heffect.left j (h.not_ran hplayed hj)
  · rw [List.mem_append, not_or, Option.mem_toList] at hj
    rw [heffect.kept j hj.2, h.other j hj.1]

/-- A field that ended a round early: it did not run before, it is not the edited one, and its script
does not come back from the machine in which it is run. -/
structure Halt (budget : Nat) (begun : Round) (m : Machine) (edited : Option Nat)
    (es : List RoundEvent) (i : Nat) (s : Script Value) : Prop where
  once : (ranIn es).Nodup
  notEdited : ∀ j ∈ edited, j ∉ ranIn es
  notRan : i ∉ ranIn es
  other : i ∉ edited
  script : ∃ r m₁ m₂ c, Played budget begun m es r m₁ ∧ r.template.fields[i]? = some c ∧
    (r.template.stamp i c.field).bind m₁ = (.ok (), m₂) ∧ c.field.content.script = some s ∧
    ¬Run.Returned (Run.eval budget s true (c.field.inner m₂)).1

theorem Begun.halt (h : Begun t edited r) (hstuck : Stuck budget r m) :
    ∃ es i s, Halt budget r m edited es i s := by
  obtain ⟨es, r', m', m₁, i, c, s, hplayed, hc, hfresh, hbind, hs, hnot⟩ := hstuck
  refine ⟨es, i, s, hplayed.effect.nodup, fun j hj => h.not_ran hplayed hj, fun hi => ?_,
    fun hi => ?_, r', m', m₁, c, hplayed, hc, hbind, hs, hnot⟩
  · obtain ⟨-, d, -, -, hd, hage⟩ := hplayed.effect.ran i hi
    cases hc.symm.trans hd
    rw [hage, hplayed.effect.age] at hfresh
    exact absurd hfresh (Nat.lt_irrefl _)
  · exact absurd (hplayed.effect.told ⟨.cardField, i⟩ (h.ran i hi) c hc) (Nat.not_le_of_lt hfresh)

/-- What comes of a round that is begun in a scope of its own: a report, or a script that does not come
back. -/
def Outcome (budget : Nat) (t : Template) (begun : Round) (m : Machine) (edited : Option Nat)
    (sweeps : Bool) : Except Stop (Template × List String) × Machine → Prop
  | (.ok (t', changed), m') => ∃ es m₁,
      Report budget t begun (Run.enterScope m).2 edited es ⟨t', changed⟩ m₁ ∧
      m' = (Run.leaveScope m.context.env.hiddenCount m₁).2 ∧
      (sweeps = true → ∀ j < t.fields.length, j ∈ ranIn es)
  | (.error _, _) => ∃ es i s, Halt budget begun (Run.enterScope m).2 edited es i s

theorem Begun.outcome {sweeps : Bool} {x : Run Round} (h : Begun t edited r) (ht : t.AgesBounded)
    (hx : Plays budget r (Run.enterScope m).2 (fun a es r' => a = r' ∧
      (∀ j ∈ edited, ∀ d ∈ t.readersOf m.store.dependents j, r'.template.Told d) ∧
      Reached m.store.dependents r es r' ∧
      (sweeps = true → ∀ j < t.fields.length, j ∈ ranIn es)) (x (Run.enterScope m).2)) :
    Outcome budget t r m edited sweeps ((do
      let r ← Run.inScope x
      return (r.template, r.changed)) m) := by
  rcases hrun : x (Run.enterScope m).2 with ⟨stop | a, m₁⟩
  · rw [hrun] at hx
    rcases hscope : Run.inScope x m with ⟨stop' | a, m'⟩
    · rw [Run.run_bind_error hscope]
      exact h.halt hx
    · obtain ⟨m₂, hok, -⟩ := Run.run_inScope_eq_ok hscope
      cases hrun.symm.trans hok
  · rw [hrun] at hx
    obtain ⟨es, r', hplayed, rfl, hedited, hreached, hsweeps⟩ := hx
    have hreport := h.report ht hplayed hedited hreached
    rw [Run.run_bind_ok (Run.run_inScope_ok hrun)]
    exact ⟨es, m₁, hreport, rfl, hsweeps⟩

theorem outcome_refreshFields (ht : t.AgesBounded) (budget : Nat) (m : Machine) :
    Outcome budget t ⟨t.beginRound, []⟩ m none true (t.refreshFields budget m) := by
  refine (begun_round t).outcome ht ?_
  refine (plays_runFields _ _ _).mono fun r₁ es r' m' hplayed hfits => ?_
  obtain ⟨rfl, hran, hreached⟩ := hfits
  refine ⟨rfl, nofun, hreached, fun _ j hj => ?_⟩
  have hj' := (begun_round t).ran_or_edited ht hplayed hj (hran j (List.mem_range.2 hj))
  exact hj'.resolve_right nofun

theorem outcome_edit {i : Nat} {c : FieldCell} {name : String} {v : Value} (ht : t.AgesBounded)
    (m : Machine) (hi : t.fields.findIdx? (fun c => c.field.name = name) = some i)
    (hc : t.fields[i]? = some c) (hne : c.field.value.equal v = false) :
    Outcome budget t ⟨t.beginRound.stamp i { c.field with content := c.field.content.setValue v },
      [name]⟩ m (some i) false (t.edit budget name v m) := by
  obtain ⟨hlt, hname, -⟩ := List.findIdx?_eq_some_iff_getElem.1 hi
  obtain rfl : c.field.name = name := by
    have hget := List.getElem?_eq_getElem hlt
    cases hc.symm.trans hget
    exact of_decide_eq_true hname
  have hset : c.field.setValue v =
      (true, { c.field with content := c.field.content.setValue v }) := by
    unfold Field.setValue
    rw [hne]
    rfl
  have hbegun := begun_edit (f := { c.field with content := c.field.content.setValue v }) hc rfl
  have hedit : t.edit budget c.field.name v m = ((do
      let r ← Run.inScope (spreadAll budget
        ⟨t.beginRound.stamp i { c.field with content := c.field.content.setValue v },
          [c.field.name]⟩ (m.store.dependents[c.field.dependents]?.getD []))
      return (r.template, r.changed)) : Run (Template × List String)) m := by
    unfold edit
    rw [hi]
    dsimp only
    rw [hc]
    dsimp only
    rw [hset]
    rfl
  rw [hedit]
  refine hbegun.outcome ht ((plays_spreadAll _ _ _).mono fun r₁ es r' m' hplayed hfits => ?_)
  obtain ⟨rfl, htold, hreached⟩ := hfits
  refine ⟨rfl, ?_, hreached, nofun⟩
  rintro j ⟨⟩ d hd
  rw [readersOf, hc] at hd
  exact htold d hd

/-- Storing what is stored already, or in a field that is not there, does nothing. -/
theorem edit_of_same {name : String} {v : Value} (m : Machine)
    (h : ∀ i c, t.fields.findIdx? (fun c => c.field.name = name) = some i → t.fields[i]? = some c →
      c.field.value.equal v = true) : t.edit budget name v m = (.ok (t, []), m) := by
  unfold edit
  cases hi : t.fields.findIdx? fun c => c.field.name = name with
  | none => rfl
  | some i =>
    dsimp only
    cases hc : t.fields[i]? with
    | none => rfl
    | some c =>
      have hset : c.field.setValue v = (false, c.field) := by
        unfold Field.setValue
        rw [h i c hi hc]
        rfl
      dsimp only
      rw [hset]
      rfl

/-- What a call to edit a card comes to: the field of that name holds another value and is edited in a
round, or nothing happens. -/
theorem edit_outcome (ht : t.AgesBounded) (budget : Nat) (name : String) (v : Value) (m : Machine) :
    (∃ i c, t.fields.findIdx? (fun c => c.field.name = name) = some i ∧ t.fields[i]? = some c ∧
      c.field.value.equal v = false ∧
      Outcome budget t
        ⟨t.beginRound.stamp i { c.field with content := c.field.content.setValue v }, [name]⟩ m
        (some i) false (t.edit budget name v m)) ∨
    (∀ i c, t.fields.findIdx? (fun c => c.field.name = name) = some i → t.fields[i]? = some c →
      c.field.value.equal v = true) ∧ t.edit budget name v m = (.ok (t, []), m) := by
  by_cases h : ∃ i c, t.fields.findIdx? (fun c => c.field.name = name) = some i ∧
      t.fields[i]? = some c ∧ c.field.value.equal v = false
  · obtain ⟨i, c, hi, hc, hne⟩ := h
    exact .inl ⟨i, c, hi, hc, hne, outcome_edit ht m hi hc hne⟩
  · have hsame : ∀ i c, t.fields.findIdx? (fun c => c.field.name = name) = some i →
        t.fields[i]? = some c → c.field.value.equal v = true := by
      intro i c hi hc
      cases hequal : c.field.value.equal v with
      | true => rfl
      | false => exact absurd ⟨i, c, hi, hc, hequal⟩ h
    exact .inr ⟨hsame, edit_of_same m hsame⟩

/-! ## Ages -/

theorem Effect.agesBounded (h : Effect r m es r' m') (hr : r.template.AgesBounded) :
    r'.template.AgesBounded := by
  intro c hc
  obtain ⟨i, hi⟩ := List.getElem?_of_mem hc
  rw [h.age]
  by_cases hran : i ∈ ranIn es
  · obtain ⟨_, c', -, -, hc', hage⟩ := h.ran i hran
    cases hi.symm.trans hc'
    exact Nat.le_of_eq hage
  · rw [h.left i hran] at hi
    exact hr c (List.mem_of_getElem? hi)

theorem AgesBounded.beginRound (h : t.AgesBounded) : t.beginRound.AgesBounded :=
  fun c hc => Nat.le_succ_of_le (h c hc)

theorem AgesBounded.stamp (h : t.AgesBounded) (i : Nat) (f : Field) : (t.stamp i f).AgesBounded := by
  intro c hc
  rcases List.mem_or_eq_of_mem_set hc with hc | rfl
  · exact h c hc
  · exact Nat.le_refl _

theorem AgesBounded.refreshFields {t' : Template} {changed : List String} (h : t.AgesBounded)
    (hrun : t.refreshFields budget m = (.ok (t', changed), m')) : t'.AgesBounded := by
  have hout := outcome_refreshFields h budget m
  rw [hrun] at hout
  obtain ⟨es, m₁, hreport, -, -⟩ := hout
  exact hreport.played.effect.agesBounded h.beginRound

theorem AgesBounded.edit {t' : Template} {name : String} {v : Value} {changed : List String}
    (h : t.AgesBounded) (hrun : t.edit budget name v m = (.ok (t', changed), m')) :
    t'.AgesBounded := by
  rcases edit_outcome h budget name v m with ⟨i, c, -, -, -, hout⟩ | ⟨-, hsame⟩
  · rw [hrun] at hout
    obtain ⟨es, m₁, hreport, -, -⟩ := hout
    exact hreport.played.effect.agesBounded (h.beginRound.stamp i _)
  · cases hrun.symm.trans hsame
    exact h

theorem AgesBounded.render {measure : Style → Run (Option Measurement)} {rendered : Rendered}
    (h : t.AgesBounded) (hrun : t.render budget measure m = (.ok rendered, m')) :
    rendered.template.AgesBounded := by
  obtain ⟨t₁, changed, m₁, c₁, m₂, c₂, measured, m₃, c₃, m₄, hfields, hfirst, hall, hsecond, rfl,
    -⟩ := render_cases hrun
  have h₁ := sameFields_phase sameFields_visitStructure hfirst
  have h₂ := sameFields_measureAll hall
  have h₃ := sameFields_phase sameFields_visitContent hsecond
  exact ((h₁.trans h₂).trans h₃).agesBounded (h.refreshFields hfields)

/-- No field of a card that came about is ahead of the last round. -/
theorem Made.agesBounded (h : t.Made) : t.AgesBounded := by
  induction h with
  | empty => exact nofun
  | addField f _ ih =>
    intro c hc
    rcases List.mem_append.1 hc with hc | hc
    · exact ih c hc
    · obtain rfl := List.mem_singleton.1 hc
      exact Nat.zero_le _
  | addStyle s _ ih => exact ih
  | setStyle i s _ ih => exact ih
  | markAllDirty _ ih => exact ih
  | link _ hlink ih => exact (sameFields_link hlink).agesBounded ih
  | refreshFields _ hrun ih => exact ih.refreshFields hrun
  | edit _ hrun ih => exact ih.edit hrun
  | render _ hrun ih => exact ih.render hrun

/-! ## Every round -/

/-- Updating the fields of a card runs every field once, and storing another value in a field runs
what follows from it, in any machine and so with any lists of dependents. Either way a round comes to
an end if the scripts that it runs come back; it runs no field twice and not the edited one, tells
every reader of a field that changed, and reports the names of exactly the fields in which another
value was stored. -/
theorem rounds_report (ht : t.Made) (budget : Nat) (m : Machine) :
    Outcome budget t ⟨t.beginRound, []⟩ m none true (t.refreshFields budget m) ∧
    ∀ name v,
      (∃ i c, t.fields.findIdx? (fun c => c.field.name = name) = some i ∧ t.fields[i]? = some c ∧
        c.field.value.equal v = false ∧
        Outcome budget t
          ⟨t.beginRound.stamp i { c.field with content := c.field.content.setValue v }, [name]⟩ m
          (some i) false (t.edit budget name v m)) ∨
      (∀ i c, t.fields.findIdx? (fun c => c.field.name = name) = some i → t.fields[i]? = some c →
        c.field.value.equal v = true) ∧ t.edit budget name v m = (.ok (t, []), m) :=
  ⟨outcome_refreshFields ht.agesBounded budget m, fun name v => edit_outcome ht.agesBounded budget name v m⟩

theorem made_switch : switchSetup.card.Made := by
  have hcard : switchCard =
      (Template.empty.addField (switchCard.fields.get ⟨0, by decide⟩).field).addField
        (switchCard.fields.get ⟨1, by decide⟩).field := rfl
  have hmade : switchCard.Made := hcard ▸ (Made.empty.addField _).addField _
  exact hmade.link Setup.link_switch

/-- Turning the switch runs the label that reads it. -/
theorem rounds_report_switch :
    switchSetup.card.Made ∧ ∃ c t es m₁ m', switchSetup.card.fields[1]? = some c ∧
      switchSetup.card.edit 30 "shown" (.bool true) switchSetup.machine =
        (.ok (t, ["shown", "label"]), m') ∧
      Report 30 switchSetup.card
        ⟨switchSetup.card.beginRound.stamp 1 { c.field with
          content := c.field.content.setValue (.bool true) }, ["shown"]⟩
        (Run.enterScope switchSetup.machine).2 (some 1) es ⟨t, ["shown", "label"]⟩ m₁ := by
  refine ⟨made_switch, ?_⟩
  have hfirst : switchSetup.card.fields.findIdx? (fun c => c.field.name = "shown") = some 1 := by
    rw [Setup.fields_switch]
    decide
  have hnames : (switchSetup.card.edit 30 "shown" (.bool true) switchSetup.machine).1.toOption.map
      Prod.snd = some ["shown", "label"] := by decide +kernel
  rcases (rounds_report made_switch 30 switchSetup.machine).2 "shown" (.bool true) with
    ⟨i, c, hi, hc, -, hout⟩ | ⟨-, hnone⟩
  · cases hi.symm.trans hfirst
    rcases hedit : switchSetup.card.edit 30 "shown" (.bool true) switchSetup.machine with
      ⟨stop | ⟨t, changed⟩, m'⟩
    · rw [hedit] at hnames
      cases hnames
    · rw [hedit] at hnames hout
      cases hnames
      obtain ⟨es, m₁, hreport, -, -⟩ := hout
      exact ⟨c, t, es, m₁, m', hc, rfl, hreport⟩
  · rw [hnone] at hnames
    cases hnames

end ReactiveScript.Template
