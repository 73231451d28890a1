import ReactiveScript.Proofs.Session

/-
  Rounds of field updates.

  Running a field of a round either does nothing, because the field ran before, or updates it in a
  machine that shows the card and gives the readers of its new value (`runField_cases`). Telling
  readers wave by wave comes to an end with nothing left to tell: each wave but the first needs a field
  that ran in the one before, and fields run once (`spread_waves`). So what holds of a round as long as
  some readers are still to be told holds at its end with none left (`RoundInvariant.runFields`).
-/

namespace ReactiveScript

namespace Template

/-- The card with a field that ran in the current round. -/
def stamp (t : Template) (i : Nat) (f : Field) : Template :=
  { t with fields := t.fields.set i ⟨f, t.age⟩ }

theorem getElem?_stamp {t : Template} {i : Nat} {c : FieldCell} (hc : t.fields[i]? = some c)
    (f : Field) (j : Nat) :
    (t.stamp i f).fields[j]? = if i = j then some ⟨f, t.age⟩ else t.fields[j]? := by
  show (t.fields.set i _)[j]? = _
  rw [List.getElem?_set]
  have hi := (List.getElem?_eq_some_iff.1 hc).1
  by_cases hij : i = j
  · subst hij
    rw [if_pos rfl, if_pos rfl, if_pos hi]
  · rw [if_neg hij, if_neg hij]

theorem sameCard_stamp (t : Template) (i : Nat) (f : Field) :
    (t.setField i f).SameCard (t.stamp i f) := by
  refine ⟨List.ext_getElem? fun j => ?_, rfl⟩
  show ((t.setField i f).fields.map _)[j]? = ((t.fields.set i _).map _)[j]?
  rw [List.getElem?_map, List.getElem?_map, getElem?_setField, List.getElem?_set]
  by_cases h : i = j
  · subst h
    rw [if_pos rfl, if_pos rfl]
    by_cases hi : i < t.fields.length
    · rw [if_pos hi, List.getElem?_eq_getElem hi]
      rfl
    · rw [if_neg hi, List.getElem?_eq_none (Nat.le_of_not_lt hi)]
      rfl
  · rw [if_neg h, if_neg h]

theorem setField_self {t : Template} {i : Nat} {c : FieldCell} (hc : t.fields[i]? = some c) :
    t.setField i c.field = t := by
  unfold setField
  have he : t.fields.modify i (fun d => { d with field := c.field }) = t.fields := by
    refine List.ext_getElem? fun j => ?_
    by_cases h : i = j
    · subst h
      rw [List.getElem?_modify_eq, hc]
      rfl
    · rw [List.getElem?_modify_ne _ _ h]
  rw [he]

/-- The field at an index ran in the current round, or there is none. -/
def Ran (t : Template) (i : Nat) : Prop := ∀ c, t.fields[i]? = some c → t.age ≤ c.age

/-- The reader of a dependency was told of a change in the current round: a field ran, or a style is
marked. Other readers need not be told. -/
def Told (t : Template) (dep : Dependency) : Prop :=
  match dep.kind with
  | .cardField => t.Ran dep.index
  | .style => ∀ c, t.styles[dep.index]? = some c → c.dirty = true
  | _ => True

theorem sameCard_markDirty (t : Template) (i : Nat) : t.SameCard (t.markDirty i) := by
  refine ⟨rfl, ?_⟩
  have hstyles : (t.styles.modify i fun c => { c with dirty := true }).map StyleCell.style =
      t.styles.map StyleCell.style := map_modify_of_eq fun _ _ => rfl
  exact hstyles.symm

theorem told_markDirty (t : Template) (i : Nat) : (t.markDirty i).Told ⟨.style, i⟩ := by
  intro c hc
  have hget : (t.styles.modify i fun c => { c with dirty := true })[i]? = some c := hc
  rw [List.getElem?_modify_eq] at hget
  obtain ⟨_, -, rfl⟩ := Option.map_eq_some_iff.1 hget
  rfl

/-- How many fields did not run in the current round yet. -/
def waiting (t : Template) : Nat := t.fields.countP fun c => decide (c.age < t.age)

theorem waiting_stamp {t : Template} {i : Nat} {c : FieldCell} (hc : t.fields[i]? = some c)
    (hfresh : c.age < t.age) (f : Field) : (t.stamp i f).waiting + 1 = t.waiting := by
  obtain ⟨hi, hget⟩ := List.getElem?_eq_some_iff.1 hc
  have hpos : 0 < t.fields.countP fun c => decide (c.age < t.age) :=
    List.countP_pos_iff.2 ⟨c, List.mem_of_getElem? hc, decide_eq_true hfresh⟩
  show (t.fields.set i ⟨f, t.age⟩).countP (fun c => decide (c.age < t.age)) + 1 =
    t.fields.countP _
  rw [List.countP_set hi, hget, if_pos (decide_eq_true hfresh), if_neg (by simp)]
  omega

/-- Storing a value in a field: nothing happens, or the readers of the field are told. -/
theorem edit_cases {budget : Nat} {t t' : Template} {name : String} {v : Value}
    {changed : List String} {m m' : Machine}
    (h : t.edit budget name v m = (.ok (t', changed), m')) :
    (t' = t ∧ m' = m) ∨ ∃ i c r m₁, t.fields[i]? = some c ∧ c.field.name = name ∧
      spreadAll budget ⟨t.beginRound.stamp i (c.field.setValue v).2, [name]⟩
        (m.store.dependents[c.field.dependents]?.getD []) (Run.enterScope m).2 = (.ok r, m₁) ∧
      t' = r.template ∧ changed = r.changed ∧
      m' = (Run.leaveScope m.context.env.hiddenCount m₁).2 := by
  unfold Template.edit at h
  cases hi : t.fields.findIdx? fun c => c.field.name = name with
  | none =>
    rw [hi] at h
    cases h
    exact .inl ⟨rfl, rfl⟩
  | some i =>
    obtain ⟨hlt, hname, -⟩ := List.findIdx?_eq_some_iff_getElem.1 hi
    have hc : t.fields[i]? = some t.fields[i] := List.getElem?_eq_getElem hlt
    rw [hi] at h
    dsimp only at h
    rw [hc] at h
    dsimp only at h
    cases hset : ((t.fields[i]).field.setValue v).1 with
    | false =>
      rw [hset] at h
      cases h
      exact .inl ⟨rfl, rfl⟩
    | true =>
      have hkept : ((t.fields[i]).field.setValue v).2.dependents = (t.fields[i]).field.dependents :=
        congrArg (fun x => x.2.2) (Field.shape_setValue _ v)
      rw [hset] at h
      obtain ⟨readers, m₁, hreaders, h⟩ := Run.run_bind_eq_ok h
      cases hreaders
      obtain ⟨r, m₂, hscope, h⟩ := Run.run_bind_eq_ok h
      cases h
      obtain ⟨m₃, hspread, rfl⟩ := Run.run_inScope_eq_ok hscope
      refine .inr ⟨i, _, r, m₃, hc, of_decide_eq_true hname, ?_, rfl, rfl, rfl⟩
      rw [← hkept]
      exact hspread

end Template

namespace Setup

open Template

/-- A field of a round was run: what it made of the round and of the machine. -/
structure FieldRun (w : Setup) (r : Round) (i : Nat) (m : Machine) (r' : Round)
    (readers : List Dependency) (m' : Machine) (c : FieldCell) (m₁ : Machine) (f : Field)
    (mask : Changes) : Prop where
  cell : r.template.fields[i]? = some c
  fresh : c.age < r.template.age
  proceeds : Proceeds w.budget w.Runs m m₁
  shown : r.template.Shown m₁
  update : c.field.update w.budget false m₁ = (.ok (mask, f), m')
  template : r'.template = r.template.stamp i f
  changed : r'.changed = if mask.isEmpty then r.changed else r.changed ++ [f.name]
  readers : readers = if mask.isEmpty then [] else w.lists[f.dependents]?.getD []

variable {w : Setup} {r r' : Round} {m m' : Machine} {i : Nat} {readers : List Dependency}

/-- Running a field: it ran before, or it is updated. -/
theorem runField_cases (hsession : w.Session r.template m)
    (h : runField w.budget r i m = (.ok (r', readers), m')) :
    (r' = r ∧ readers = [] ∧ m' = m ∧ r.template.Ran i) ∨
      ∃ c m₁ f mask, w.FieldRun r i m r' readers m' c m₁ f mask := by
  unfold runField at h
  cases hc : r.template.fields[i]? with
  | none =>
    rw [hc] at h
    cases h
    exact .inl ⟨rfl, rfl, rfl, fun c h => by cases hc.symm.trans h⟩
  | some c =>
    rw [hc] at h
    dsimp only at h
    by_cases hage : c.age ≥ r.template.age
    · rw [if_pos hage] at h
      cases h
      exact .inl ⟨rfl, rfl, rfl, fun c' h => by cases hc.symm.trans h; exact hage⟩
    · rw [if_neg hage] at h
      have hsame : r.template.SameCard (r.template.stamp i c.field) := by
        have hstamp := r.template.sameCard_stamp i c.field
        rwa [setField_self hc] at hstamp
      obtain ⟨m₁, hbind, hproceeds, hopen⟩ :=
        (r.template.stamp i c.field).run_bind_shown w.budget w.Runs m
      have hshown := hsame.symm.shown hopen.shown
      obtain ⟨u, _, hbind', h⟩ := Run.run_bind_eq_ok h
      cases hbind.symm.trans hbind'
      obtain ⟨⟨mask, f⟩, m₂, hupdate, h⟩ := Run.run_bind_eq_ok h
      have hlists : m₂.store.dependents = w.lists := by
        have hstays := ((hsession.work hproceeds).field_updated hc hupdate).1
        exact hstays.proceeds.later.dependents.trans (hsession.work hproceeds).lists
      have hstamp : ∀ t : Template, t = { r.template with fields :=
          (r.template.fields.set i ⟨c.field, r.template.age⟩).set i ⟨f, r.template.age⟩ } →
            t = r.template.stamp i f := by
        rintro _ rfl
        unfold stamp
        rw [List.set_set]
      refine .inr ⟨c, m₁, f, mask, ?_⟩
      cases hmask : mask.isEmpty with
      | true =>
        rw [hmask] at h
        cases h
        exact ⟨hc, Nat.lt_of_not_le hage, hproceeds, hshown, hupdate, hstamp _ rfl,
          by rw [hmask]; rfl, by rw [hmask]; rfl⟩
      | false =>
        rw [hmask] at h
        cases h
        exact ⟨hc, Nat.lt_of_not_le hage, hproceeds, hshown, hupdate, hstamp _ rfl,
          by rw [hmask]; rfl, by rw [hmask, ← hlists]; rfl⟩

namespace FieldRun

variable {c : FieldCell} {m₁ : Machine} {f : Field} {mask : Changes}

theorem updated (h : w.FieldRun r i m r' readers m' c m₁ f mask)
    (hsession : w.Session r.template m) :
    Stays w.budget w.Runs m₁ m' ∧ ∃ changed content,
      Computed.Updated w.budget (c.field.inner m₁) c.field.content (changed, content) ∧
        f = { c.field with content } ∧ mask = if changed then .otherOnly else .none :=
  (hsession.work h.proceeds).field_updated h.cell h.update

theorem proceedsOn (h : w.FieldRun r i m r' readers m' c m₁ f mask)
    (hsession : w.Session r.template m) : Proceeds w.budget w.Runs m m' :=
  h.proceeds.trans (h.updated hsession).1.proceeds

theorem session (h : w.FieldRun r i m r' readers m' c m₁ f mask)
    (hsession : w.Session r.template m) : w.Session r'.template m' := by
  rw [h.template]
  exact ((hsession.work h.proceeds).field h.shown h.cell h.update).restamp (sameCard_stamp _ _ _)

theorem age (h : w.FieldRun r i m r' readers m' c m₁ f mask) :
    r'.template.age = r.template.age := by rw [h.template]; rfl

theorem getElem? (h : w.FieldRun r i m r' readers m' c m₁ f mask) (j : Nat) :
    r'.template.fields[j]? = if i = j then some ⟨f, r.template.age⟩ else r.template.fields[j]? := by
  rw [h.template, getElem?_stamp h.cell]

/-- The fields that ran are those that ran before and this one. -/
theorem ran (h : w.FieldRun r i m r' readers m' c m₁ f mask) (j : Nat) :
    r'.template.Ran j ↔ i = j ∨ r.template.Ran j := by
  unfold Ran
  rw [h.getElem?, h.age]
  by_cases hij : i = j
  · rw [if_pos hij]
    exact ⟨fun _ => .inl hij, fun _ c hc => by cases hc; exact Nat.le_refl _⟩
  · rw [if_neg hij, or_iff_right hij]

theorem waiting_lt (h : w.FieldRun r i m r' readers m' c m₁ f mask) :
    r'.template.waiting < r.template.waiting := by
  rw [h.template, ← waiting_stamp h.cell h.fresh f]
  exact Nat.lt_succ_self _

/-- Who is not told of the field that ran reads the same as before. -/
theorem agree (h : w.FieldRun r i m r' readers m' c m₁ f mask) {dep : Dependency} {content : Bool}
    (hdep : dep ∈ w.lists[c.field.dependents]?.getD [] → f.value = c.field.value) :
    r.template.Agree w.lists dep content r'.template := by
  rw [h.template]
  exact (agree_setField h.cell hdep).sameCard (sameCard_stamp _ _ _)

theorem sameShape (h : w.FieldRun r i m r' readers m' c m₁ f mask)
    (hsession : w.Session r.template m) : r.template.SameShape r'.template := by
  obtain ⟨-, changed, content, hu, rfl, -⟩ := h.updated hsession
  have hshape : ({ c.field with content } : Field).shape = c.field.shape := by
    unfold Field.shape
    rw [hu.fixes.1]
  rw [h.template]
  exact (sameShape_setField h.cell hshape).trans (sameCard_stamp _ _ _).sameShape

/-- Who is told are those that the field lists. -/
theorem mem_readers (h : w.FieldRun r i m r' readers m' c m₁ f mask)
    (hsession : w.Session r.template m) {d : Dependency} (hd : d ∈ readers) :
    d ∈ w.lists[c.field.dependents]?.getD [] := by
  obtain ⟨-, changed, content, -, rfl, -⟩ := h.updated hsession
  rw [h.readers] at hd
  split at hd
  · exact absurd hd List.not_mem_nil
  · exact hd

/-- Who reads the field is told, unless its value is the same. -/
theorem told_or_eq (h : w.FieldRun r i m r' readers m' c m₁ f mask)
    (hsession : w.Session r.template m) {d : Dependency}
    (hd : d ∈ w.lists[c.field.dependents]?.getD []) : d ∈ readers ∨ f.value = c.field.value := by
  obtain ⟨-, changed, content, hu, rfl, rfl⟩ := h.updated hsession
  cases changed with
  | true =>
    rw [h.readers]
    exact .inl hd
  | false =>
    right
    show content.value = c.field.content.value
    rw [hu.eq_of_unchanged]

end FieldRun

/-! ## What rounds keep -/

/-- What holds of a round and its pending readers, and is kept when one of them is told or when it is
the turn of a field, before which all earlier ones ran. -/
structure RoundInvariant (w : Setup) (I : Round → (Dependency → Prop) → Prop) : Prop where
  /-- Readers that were told may be forgotten. -/
  forget : ∀ {r} {P Q : Dependency → Prop}, I r P → (∀ d, Q d → P d) →
    (∀ d, P d → Q d ∨ r.template.Told d) → I r Q
  run : ∀ {r m} {P : Dependency → Prop} {i r' readers m' c m₁ f mask}, I r P →
    w.Session r.template m → (P ⟨.cardField, i⟩ ∨ ∀ j < i, r.template.Ran j) →
    w.FieldRun r i m r' readers m' c m₁ f mask → I r' (fun d => P d ∨ d ∈ readers)
  mark : ∀ {r} {P : Dependency → Prop} {m i}, I r P → w.Session r.template m → P ⟨.style, i⟩ →
    I { r with template := r.template.markDirty i } P

/-- What a part of a round makes of it and of the machine. -/
structure Goes (w : Setup) (I : Round → (Dependency → Prop) → Prop) (r : Round) (m : Machine)
    (r' : Round) (pending : Dependency → Prop) (m' : Machine) : Prop where
  session : w.Session r'.template m'
  proceeds : Proceeds w.budget w.Runs m m'
  holds : I r' pending
  age : r'.template.age = r.template.age
  length : r'.template.fields.length = r.template.fields.length
  ran : ∀ j, r.template.Ran j → r'.template.Ran j
  waiting : r'.template.waiting ≤ r.template.waiting

theorem Goes.trans {I : Round → (Dependency → Prop) → Prop} {r₁ : Round} {m₁ : Machine}
    {P Q : Dependency → Prop} (h : w.Goes I r m r₁ P m₁) (h' : w.Goes I r₁ m₁ r' Q m') :
    w.Goes I r m r' Q m' :=
  ⟨h'.session, h.proceeds.trans h'.proceeds, h'.holds, h'.age.trans h.age, h'.length.trans h.length,
    fun j hj => h'.ran j (h.ran j hj), Nat.le_trans h'.waiting h.waiting⟩

namespace RoundInvariant

variable {I : Round → (Dependency → Prop) → Prop} {P : Dependency → Prop}

theorem congr (hI : w.RoundInvariant I) {Q : Dependency → Prop} (h : I r P) (hQ : ∀ d, Q d ↔ P d) :
    I r Q :=
  hI.forget h (fun d => (hQ d).1) fun d hd => .inl ((hQ d).2 hd)

theorem goes_refl (h : I r P) (hsession : w.Session r.template m) : w.Goes I r m r P m :=
  ⟨hsession, .refl _, h, rfl, rfl, fun _ => id, Nat.le_refl _⟩

theorem runField (hI : w.RoundInvariant I) (h : I r P) (hsession : w.Session r.template m)
    (hturn : P ⟨.cardField, i⟩ ∨ ∀ j < i, r.template.Ran j)
    (hrun : Template.runField w.budget r i m = (.ok (r', readers), m')) :
    w.Goes I r m r' (fun d => P d ∨ d ∈ readers) m' ∧ r'.template.Ran i ∧
      (readers ≠ [] → r'.template.waiting < r.template.waiting) := by
  rcases runField_cases hsession hrun with ⟨rfl, rfl, rfl, hran⟩ | ⟨c, m₁, f, mask, hfield⟩
  · refine ⟨goes_refl (hI.congr h fun d => ?_) hsession, hran, fun h => absurd rfl h⟩
    rw [or_iff_left List.not_mem_nil]
  · have hlength : r'.template.fields.length = r.template.fields.length := by
      rw [hfield.template]
      exact List.length_set
    exact ⟨⟨hfield.session hsession, hfield.proceedsOn hsession, hI.run h hsession hturn hfield,
      hfield.age, hlength, fun j hj => (hfield.ran j).2 (.inr hj), Nat.le_of_lt hfield.waiting_lt⟩,
      (hfield.ran i).2 (.inl rfl), fun _ => hfield.waiting_lt⟩

/-- A reader that was told is no longer pending. -/
theorem told (hI : w.RoundInvariant I) {dep : Dependency} {rest : List Dependency}
    {Q : Dependency → Prop} (h : I r fun d => (d ∈ dep :: rest ∨ P d) ∨ Q d)
    (htold : r.template.Told dep) : I r fun d => d ∈ rest ∨ P d ∨ Q d := by
  refine hI.forget h (fun d hd => ?_) fun d hd => ?_
  · rcases hd with hd | hd | hd
    · exact .inl (.inl (List.mem_cons_of_mem _ hd))
    · exact .inl (.inr hd)
    · exact .inr hd
  · rcases hd with (hd | hd) | hd
    · rcases List.mem_cons.1 hd with rfl | hd
      · exact .inr htold
      · exact .inl (.inl hd)
    · exact .inl (.inr (.inl hd))
    · exact .inl (.inr (.inr hd))

/-- Telling readers: those of the fields that changed on the way take their place. -/
theorem tellReaders (hI : w.RoundInvariant I) {deps : List Dependency}
    (h : I r fun d => d ∈ deps ∨ P d) (hsession : w.Session r.template m)
    (hrun : Template.tellReaders w.budget r deps m = (.ok (r', readers), m')) :
    w.Goes I r m r' (fun d => d ∈ readers ∨ P d) m' ∧
      (readers ≠ [] → r'.template.waiting < r.template.waiting) := by
  induction deps generalizing r m P readers with
  | nil =>
    cases hrun
    exact ⟨goes_refl h hsession, fun h => absurd rfl h⟩
  | cons dep rest ih =>
    -- Without a field to run, the rest are told next.
    have hskip : ∀ r₁ : Round, w.Goes I r m r₁ (fun d => d ∈ dep :: rest ∨ P d) m →
        r₁.template.Told dep → Template.tellReaders w.budget r₁ rest m = (.ok (r', readers), m') →
        w.Goes I r m r' (fun d => d ∈ readers ∨ P d) m' ∧
          (readers ≠ [] → r'.template.waiting < r.template.waiting) := by
      intro r₁ hgoes htold hrun
      have hrest : I r₁ fun d => d ∈ rest ∨ P d := by
        have h₁ := hI.told (Q := fun _ => False)
          (hI.congr hgoes.holds fun d => by rw [or_false]) htold
        exact hI.congr h₁ fun d => by rw [or_false]
      obtain ⟨hgoes', hless⟩ := ih hrest hgoes.session hrun
      exact ⟨hgoes.trans hgoes', fun hne => Nat.lt_of_lt_of_le (hless hne) hgoes.waiting⟩
    obtain ⟨kind, i⟩ := dep
    cases kind with
    | cardField =>
      obtain ⟨⟨r₁, readers₁⟩, m₁, hfield, hrun⟩ := Run.run_bind_eq_ok hrun
      obtain ⟨⟨r₂, readers₂⟩, m₂, htell, hrun⟩ := Run.run_bind_eq_ok hrun
      cases hrun
      obtain ⟨hgoes₁, hran, hless₁⟩ := hI.runField h hsession (.inl (.inl List.mem_cons_self)) hfield
      obtain ⟨hgoes₂, hless₂⟩ := ih (hI.told hgoes₁.holds hran) hgoes₁.session htell
      have hgoes := hgoes₁.trans hgoes₂
      refine ⟨{ hgoes with holds := hI.congr hgoes.holds fun d => ?_ }, fun hne => ?_⟩
      · rw [List.mem_append, or_assoc, or_comm, or_assoc]
      · by_cases hne₁ : readers₁ = []
        · rw [hne₁, List.nil_append] at hne
          exact Nat.lt_of_lt_of_le (hless₂ hne) hgoes₁.waiting
        · exact Nat.lt_of_le_of_lt hgoes₂.waiting (hless₁ hne₁)
    | style =>
      have hmarked := hI.mark h hsession (.inl List.mem_cons_self)
      have hgoes : w.Goes I r m { r with template := r.template.markDirty i }
          (fun d => d ∈ ⟨.style, i⟩ :: rest ∨ P d) m :=
        ⟨hsession.restamp (sameCard_markDirty _ _), .refl _, hmarked, rfl, rfl, fun _ => id,
          Nat.le_refl _⟩
      exact hskip _ hgoes (told_markDirty _ _) hrun
    | cardsField => exact hskip r (goes_refl h hsession) trivial hrun
    | fieldEdit => exact hskip r (goes_refl h hsession) trivial hrun
    | copyDependencies => exact hskip r (goes_refl h hsession) trivial hrun
    | dummy => exact hskip r (goes_refl h hsession) trivial hrun

/-- Telling readers wave by wave leaves none to be told. -/
theorem spread (hI : w.RoundInvariant I) {waves : Nat} {deps : List Dependency}
    (h : I r fun d => d ∈ deps ∨ P d) (hsession : w.Session r.template m)
    (hwaves : r.template.waiting < waves ∨ deps = [])
    (hrun : Template.spread w.budget waves r deps m = (.ok r', m')) : w.Goes I r m r' P m' := by
  have hdone : deps = [] → w.Goes I r m r P m := by
    rintro rfl
    refine goes_refl (hI.congr h fun d => ?_) hsession
    rw [or_iff_right List.not_mem_nil]
  induction waves generalizing r m deps with
  | zero =>
    cases hrun
    exact hdone (hwaves.resolve_left (Nat.not_lt_zero _))
  | succ waves ih =>
    cases deps with
    | nil =>
      cases hrun
      exact hdone rfl
    | cons dep rest =>
      obtain ⟨⟨r₁, readers⟩, m₁, htell, hrun⟩ := Run.run_bind_eq_ok hrun
      obtain ⟨hgoes, hless⟩ := hI.tellReaders h hsession htell
      have hwaiting := hwaves.resolve_right (List.cons_ne_nil _ _)
      have hwaves₁ : r₁.template.waiting < waves ∨ readers = [] := by
        by_cases hne : readers = []
        · exact .inr hne
        · exact .inl (Nat.lt_of_lt_of_le (hless hne) (Nat.le_of_lt_succ hwaiting))
      refine hgoes.trans (ih hgoes.holds hgoes.session hwaves₁ hrun ?_)
      rintro rfl
      refine goes_refl (hI.congr hgoes.holds fun d => ?_) hgoes.session
      rw [or_iff_right List.not_mem_nil]

theorem spreadAll (hI : w.RoundInvariant I) {deps : List Dependency}
    (h : I r fun d => d ∈ deps ∨ P d) (hsession : w.Session r.template m)
    (hrun : Template.spreadAll w.budget r deps m = (.ok r', m')) : w.Goes I r m r' P m' :=
  hI.spread h hsession (.inl (Nat.lt_succ_of_le List.countP_le_length)) hrun

/-- Running the fields in order runs every one of them. -/
theorem runFields (hI : w.RoundInvariant I) {k n : Nat} (h : I r P)
    (hsession : w.Session r.template m) (hran : ∀ j < k, r.template.Ran j)
    (hrun : Template.runFields w.budget r (List.range' k n) m = (.ok r', m')) :
    w.Goes I r m r' P m' ∧ ∀ j < k + n, r'.template.Ran j := by
  induction n generalizing k r m with
  | zero =>
    cases hrun
    exact ⟨goes_refl h hsession, hran⟩
  | succ n ih =>
    rw [List.range'_succ] at hrun
    obtain ⟨⟨r₁, readers⟩, m₁, hfield, hrun⟩ := Run.run_bind_eq_ok hrun
    obtain ⟨r₂, m₂, hspread, hrun⟩ := Run.run_bind_eq_ok hrun
    obtain ⟨hgoes₁, hran₁, -⟩ := hI.runField h hsession (.inr hran) hfield
    have hgoes₂ := hI.spreadAll (hI.congr hgoes₁.holds fun d => or_comm) hgoes₁.session hspread
    have hran₂ : ∀ j < k + 1, r₂.template.Ran j := by
      intro j hj
      rcases Nat.lt_succ_iff_lt_or_eq.1 hj with hj | rfl
      · exact hgoes₂.ran j (hgoes₁.ran j (hran j hj))
      · exact hgoes₂.ran j hran₁
    obtain ⟨hgoes₃, hran₃⟩ := ih hgoes₂.holds hgoes₂.session hran₂ hrun
    exact ⟨(hgoes₁.trans hgoes₂).trans hgoes₃, fun j hj => hran₃ j (by omega)⟩

/-- Updating the fields of a card runs all of them, and tells all readers of those that changed. -/
theorem refreshFields (hI : w.RoundInvariant I) {t t' : Template} {changed : List String}
    (h : I ⟨t.beginRound, []⟩ fun _ => False) (hsession : w.Session t m)
    (hrun : t.refreshFields w.budget m = (.ok (t', changed), m')) :
    w.Session t' m' ∧ I ⟨t', changed⟩ (fun _ => False) ∧ ∀ j, t'.Ran j := by
  obtain ⟨r, m₁, hscope, hrun⟩ := Run.run_bind_eq_ok hrun
  cases hrun
  obtain ⟨m₂, hfields, rfl⟩ := Run.run_inScope_eq_ok hscope
  rw [List.range_eq_range'] at hfields
  have hbegin : w.Session t.beginRound (Run.enterScope m).2 := hsession.enter.restamp ⟨rfl, rfl⟩
  obtain ⟨hgoes, hran⟩ := hI.runFields h hbegin (fun j hj => absurd hj (Nat.not_lt_zero _)) hfields
  refine ⟨hsession.leave hgoes.proceeds hgoes.session, hgoes.holds, fun j c hc => ?_⟩
  have hj := (List.getElem?_eq_some_iff.1 hc).1
  rw [hgoes.length] at hj
  exact hran j (by rw [Nat.zero_add]; exact hj) c hc

/-- Storing a value: it was stored before, or all readers of the field are told. -/
theorem edit (hI : w.RoundInvariant I) {t t' : Template} {name : String} {v : Value}
    {changed : List String} (hv : w.usage.edits name v)
    (h : ∀ i c, t.fields[i]? = some c → c.field.name = name →
      I ⟨t.beginRound.stamp i (c.field.setValue v).2, [name]⟩
        (· ∈ w.lists[c.field.dependents]?.getD []))
    (hsession : w.Session t m) (hrun : t.edit w.budget name v m = (.ok (t', changed), m')) :
    (t' = t ∧ m' = m) ∨ w.Session t' m' ∧ I ⟨t', changed⟩ fun _ => False := by
  rcases edit_cases hrun with ⟨rfl, rfl⟩ | ⟨i, c, r, m₁, hc, hname, hspread, rfl, rfl, rfl⟩
  · exact .inl ⟨rfl, rfl⟩
  · right
    have hset : w.Session (t.beginRound.setField i (c.field.setValue v).2) m :=
      (hsession.edit hc (hname ▸ hv)).restamp ⟨rfl, rfl⟩
    have hstamped : w.Session (t.beginRound.stamp i (c.field.setValue v).2) m :=
      hset.restamp (sameCard_stamp _ _ _)
    rw [hsession.lists] at hspread
    have hstart := hI.congr (Q := fun d => d ∈ w.lists[c.field.dependents]?.getD [] ∨ False)
      (h i c hc hname) fun d => by rw [or_false]
    have hgoes := hI.spreadAll hstart hstamped.enter hspread
    exact ⟨hsession.leave hgoes.proceeds hgoes.session, hgoes.holds⟩

end RoundInvariant

/-! ## Rounds come to an end -/

/-- Every script that is run comes back, with a value or an error. -/
def Returns (w : Setup) : Prop :=
  ∀ ⦃t : Template⦄ ⦃m : Machine⦄ ⦃s : Script Value⦄, w.Session t m → w.Runs s →
    Run.Returned (Run.eval w.budget s true m).1

theorem roundInvariant_true (w : Setup) : w.RoundInvariant fun _ _ => True :=
  ⟨fun _ _ _ => trivial, fun _ _ _ _ => trivial, fun _ _ _ => trivial⟩

namespace Returns

variable {t : Template}

theorem field_update (h : w.Returns) (hsession : w.Session t m) {c : FieldCell}
    (hc : t.fields[i]? = some c) :
    ∃ mask f m', c.field.update w.budget false m = (.ok (mask, f), m') := by
  obtain ⟨r, m₁, hupdate⟩ := Computed.attempt_update_returns (p := c.field.content)
    (m := c.field.inner m) fun s hs => h (hsession.inner c.field) (hsession.runs_field hc hs)
  exact c.field.update_returns hupdate

theorem runField (h : w.Returns) (hsession : w.Session r.template m) (i : Nat) :
    ∃ r' readers m', Template.runField w.budget r i m = (.ok (r', readers), m') := by
  unfold Template.runField
  cases hc : r.template.fields[i]? with
  | none => exact ⟨r, [], m, rfl⟩
  | some c =>
    dsimp only
    by_cases hage : c.age ≥ r.template.age
    · rw [if_pos hage]
      exact ⟨r, [], m, rfl⟩
    · rw [if_neg hage]
      obtain ⟨m₁, hbind, hproceeds, -⟩ :=
        (r.template.stamp i c.field).run_bind_shown w.budget w.Runs m
      obtain ⟨mask, f, m₂, hupdate⟩ := h.field_update (hsession.work hproceeds) hc
      unfold stamp at hbind
      rw [Run.run_bind_ok hbind, Run.run_bind_ok hupdate]
      dsimp only
      split
      · exact ⟨_, _, _, rfl⟩
      · exact ⟨_, _, _, rfl⟩

theorem tellReaders (h : w.Returns) (hsession : w.Session r.template m) (deps : List Dependency) :
    ∃ r' readers m', Template.tellReaders w.budget r deps m = (.ok (r', readers), m') := by
  induction deps generalizing r m with
  | nil => exact ⟨r, [], m, rfl⟩
  | cons dep rest ih =>
    obtain ⟨kind, i⟩ := dep
    cases kind with
    | cardField =>
      obtain ⟨r₁, readers₁, m₁, hfield⟩ := h.runField hsession i
      obtain ⟨hgoes, -⟩ := w.roundInvariant_true.runField (P := fun _ => True) trivial hsession
        (.inl trivial) hfield
      obtain ⟨r₂, readers₂, m₂, htell⟩ := ih hgoes.session
      refine ⟨r₂, readers₁ ++ readers₂, m₂, ?_⟩
      exact (Run.run_bind_ok hfield).trans (Run.run_bind_ok htell)
    | style => exact ih (hsession.restamp (sameCard_markDirty _ _))
    | cardsField => exact ih hsession
    | fieldEdit => exact ih hsession
    | copyDependencies => exact ih hsession
    | dummy => exact ih hsession

theorem spread (h : w.Returns) (hsession : w.Session r.template m) (waves : Nat)
    (deps : List Dependency) :
    ∃ r' m', Template.spread w.budget waves r deps m = (.ok r', m') := by
  induction waves generalizing r m deps with
  | zero => exact ⟨r, m, rfl⟩
  | succ waves ih =>
    cases deps with
    | nil => exact ⟨r, m, rfl⟩
    | cons dep rest =>
      obtain ⟨r₁, readers, m₁, htell⟩ := h.tellReaders hsession (dep :: rest)
      obtain ⟨hgoes, -⟩ := w.roundInvariant_true.tellReaders (P := fun _ => True) trivial hsession
        htell
      obtain ⟨r₂, m₂, hspread⟩ := ih hgoes.session readers
      exact ⟨r₂, m₂, (Run.run_bind_ok htell).trans hspread⟩

theorem runFields (h : w.Returns) (hsession : w.Session r.template m) (indices : List Nat) :
    ∃ r' m', Template.runFields w.budget r indices m = (.ok r', m') := by
  induction indices generalizing r m with
  | nil => exact ⟨r, m, rfl⟩
  | cons i rest ih =>
    obtain ⟨r₁, readers, m₁, hfield⟩ := h.runField hsession i
    obtain ⟨hgoes₁, -⟩ := w.roundInvariant_true.runField (P := fun _ => True) trivial hsession
      (.inl trivial) hfield
    obtain ⟨r₂, m₂, hspread⟩ := h.spread hgoes₁.session (r₁.template.fields.length + 1) readers
    have hgoes₂ := w.roundInvariant_true.spreadAll (P := fun _ => True) trivial hgoes₁.session hspread
    obtain ⟨r₃, m₃, hfields⟩ := ih hgoes₂.session
    refine ⟨r₃, m₃, ?_⟩
    exact (Run.run_bind_ok hfield).trans ((Run.run_bind_ok hspread).trans hfields)

/-- Updating the fields of a card comes to an end. -/
theorem refreshFields (h : w.Returns) (hsession : w.Session t m) :
    ∃ t' changed m', t.refreshFields w.budget m = (.ok (t', changed), m') := by
  have hbegin : w.Session t.beginRound (Run.enterScope m).2 := hsession.enter.restamp ⟨rfl, rfl⟩
  obtain ⟨r, m₁, hfields⟩ :=
    h.runFields (r := ⟨t.beginRound, []⟩) hbegin (List.range t.fields.length)
  exact ⟨r.template, r.changed, _, Run.run_bind_ok (Run.run_inScope_ok hfields)⟩

end Returns

end Setup

end ReactiveScript
