import ReactiveScript.Proofs.Cycle
import ReactiveScript.Proofs.Decision

/-
  No update of a style is lost.

  Between calls the dirty marks of a card say which styles are not up to date (`Clean`). A round of
  fields marks the styles that read a field that changed (`roundInvariant_clean`). A render cycle takes
  the marks over, keeps that styles without one are up to date through both phases and the measuring
  in between (`Underway`), and hands what is left to the next cycle. So however a card is edited,
  updated and rendered, a style without a mark is up to date (`clean_upToDate`).
-/

namespace ReactiveScript

namespace Template

/-! ## Sweeps -/

namespace Cycle

section Sweeps

variable {visit : Cycle → Nat → Run (Cycle × Bool)} {c c' : Cycle} {m m' : Machine} {ran : Bool}
  {k n : Nat}

/-- What visits keep, of the next index and of whether a style ran, is kept by sweeps. -/
theorem sweep_keeps {J : Nat → Bool → Cycle → Machine → Prop} {b : Bool}
    (hvisit : ∀ {i b c m c' ran m'}, J i b c m → visit c i m = (.ok (c', ran), m') →
      J (i + 1) (b || ran) c' m')
    (h : J k b c m) (hrun : sweep visit c (List.range' k n) m = (.ok (c', ran), m')) :
    J (k + n) (b || ran) c' m' := by
  induction n generalizing k b c m ran with
  | zero =>
    cases hrun
    rw [Bool.or_false]
    exact h
  | succ n ih =>
    rw [List.range'_succ] at hrun
    obtain ⟨⟨c₁, ran₁⟩, m₁, hfirst, hrun⟩ := Run.run_bind_eq_ok hrun
    obtain ⟨⟨c₂, ran₂⟩, m₂, hrest, hrun⟩ := Run.run_bind_eq_ok hrun
    cases hrun
    have hend := ih (hvisit h hfirst) hrest
    rw [Bool.or_assoc, Nat.add_right_comm] at hend
    exact hend

/-- What sweeps keep, of their number, holds when they end: after the last one allowed, or after one in
which no style ran. -/
theorem sweeps_cases {J : Nat → Cycle → Machine → Prop} {E : Cycle → Machine → Prop}
    (hsweep : ∀ {k c m c' ran m'}, J k c m →
      sweep visit c (List.range c.template.styles.length) m = (.ok (c', ran), m') →
      J (k + 1) c' m' ∧ (ran = false → E c' m'))
    (h : J k c m) (hrun : sweeps visit n c m = (.ok c', m')) :
    ∃ j, J j c' m' ∧ (j = k + n ∨ E c' m') := by
  induction n generalizing k c m with
  | zero =>
    cases hrun
    exact ⟨k, h, .inl rfl⟩
  | succ n ih =>
    obtain ⟨⟨c₁, ran₁⟩, m₁, hfirst, hrun⟩ := Run.run_bind_eq_ok hrun
    obtain ⟨h₁, hdone⟩ := hsweep h hfirst
    cases ran₁ with
    | true =>
      obtain ⟨j, hend, hj⟩ := ih h₁ hrun
      exact ⟨j, hend, hj.imp_left (Nat.add_right_comm k 1 n ▸ ·)⟩
    | false =>
      cases hrun
      exact ⟨k + 1, h₁, .inr (hdone rfl)⟩

theorem sweeps_keeps {J : Cycle → Machine → Prop}
    (hvisit : ∀ {c m i c' ran m'}, J c m → visit c i m = (.ok (c', ran), m') → J c' m')
    (h : J c m) (hrun : sweeps visit n c m = (.ok c', m')) : J c' m' := by
  obtain ⟨-, hend, -⟩ := sweeps_cases (k := 0) (J := fun _ => J) (E := fun _ _ => True)
    (fun {k c m c' ran m'} hc hsweep => by
      rw [List.range_eq_range'] at hsweep
      exact ⟨sweep_keeps (J := fun _ _ => J) (b := false) hvisit hc hsweep, fun _ => trivial⟩)
    h hrun
  exact hend

/-- Sweeps come to an end if visits do. -/
theorem sweep_returns {J : Cycle → Machine → Prop}
    (hvisit : ∀ {c m} i, J c m → ∃ c' ran m', visit c i m = (.ok (c', ran), m') ∧ J c' m')
    (h : J c m) (indices : List Nat) :
    ∃ c' ran m', sweep visit c indices m = (.ok (c', ran), m') ∧ J c' m' := by
  induction indices generalizing c m with
  | nil => exact ⟨c, false, m, rfl, h⟩
  | cons i rest ih =>
    obtain ⟨c₁, ran₁, m₁, hfirst, h₁⟩ := hvisit i h
    obtain ⟨c₂, ran₂, m₂, hrest, h₂⟩ := ih h₁
    exact ⟨c₂, ran₁ || ran₂, m₂, (Run.run_bind_ok hfirst).trans (Run.run_bind_ok hrest), h₂⟩

theorem sweeps_returns {J : Cycle → Machine → Prop}
    (hvisit : ∀ {c m} i, J c m → ∃ c' ran m', visit c i m = (.ok (c', ran), m') ∧ J c' m')
    (h : J c m) (n : Nat) : ∃ c' m', sweeps visit n c m = (.ok c', m') ∧ J c' m' := by
  induction n generalizing c m with
  | zero => exact ⟨c, m, rfl, h⟩
  | succ n ih =>
    obtain ⟨c₁, ran₁, m₁, hsweep, h₁⟩ := sweep_returns hvisit h (List.range c.template.styles.length)
    cases ran₁ with
    | true =>
      obtain ⟨c₂, m₂, hrest, h₂⟩ := ih h₁
      exact ⟨c₂, m₂, (Run.run_bind_ok hsweep).trans hrest, h₂⟩
    | false => exact ⟨c₁, m₁, Run.run_bind_ok hsweep, h₁⟩

end Sweeps

/-! ## Measuring -/

/-- The cycle after a style was measured: who reads its content is marked if that changed. -/
def storeMeasured (lists : Array (List Dependency)) (c : Cycle) (i : Nat) (s : Style)
    (measured : Measurement) : Cycle :=
  let next : Cycle := { c with template := c.template.setStyle i (s.storeContent measured).2 }
  if (s.storeContent measured).1 then
    (next.readersIn (lists[s.dependents]?.getD [])).foldl markContentReader next
  else next

section Measuring

variable {lists : Array (List Dependency)} {c c' : Cycle} {i j : Nat} {s : Style}
  {measured : Measurement} {a : Bool} {m m' : Machine}
  {measure : Style → Run (Option Measurement)} {styles : List Style} {rest : List Nat}

theorem template_storeMeasured (lists : Array (List Dependency)) (c : Cycle) (i : Nat) (s : Style)
    (measured : Measurement) : (storeMeasured lists c i s measured).template =
      c.template.setStyle i (s.storeContent measured).2 := by
  unfold storeMeasured
  dsimp only
  split
  · exact (foldl_modifyCell _ _ _).1
  · rfl

theorem length_storeMeasured (lists : Array (List Dependency)) (c : Cycle) (i : Nat) (s : Style)
    (measured : Measurement) :
    (storeMeasured lists c i s measured).cells.length = c.cells.length := by
  unfold storeMeasured
  dsimp only
  split
  · exact (foldl_modifyCell _ _ _).2
  · rfl

theorem marked_storeMeasured (hlength : c.cells.length = c.template.styles.length) :
    (storeMeasured lists c i s measured).Marked j a ↔ c.Marked j a ∨
      (s.storeContent measured).1 = true ∧ a = true ∧ ⟨.style, j⟩ ∈ lists[s.dependents]?.getD [] ∧
        j < c.cells.length := by
  unfold storeMeasured
  dsimp only
  cases (s.storeContent measured).1 with
  | true =>
    rw [if_pos rfl]
    have hcells : ({ c with template := c.template.setStyle i (s.storeContent measured).2 } :
        Cycle).cells.length = (c.template.setStyle i (s.storeContent measured).2).styles.length :=
      hlength.trans (List.length_modify ..).symm
    refine (marked_readersIn a (fun cell => ?_) hcells).trans ?_
    · cases a <;> simp [CycleCell.marked]
    · exact or_congr Iff.rfl (and_iff_right rfl).symm
  | false =>
    rw [if_neg (by decide)]
    exact (or_iff_left fun h => absurd h.1 (by decide)).symm

/-- Measuring one style after the other. -/
theorem measureAll_cons_of_some {result : Option Measurement} {m₁ : Machine}
    (hs : c.template.styleAt? i = some s) (hmeasure : measure s m = (.ok result, m₁)) :
    c.measureAll measure (i :: rest) m = (do
      let (c', styles) ← (result.elim c (storeMeasured m₁.store.dependents c i s)).measureAll measure
        rest
      return (c', s :: styles)) m₁ := by
  rw [measureAll, hs]
  dsimp only
  rw [Run.run_bind_ok hmeasure]
  cases result with
  | none => rfl
  | some measured =>
    unfold storeMeasured
    dsimp only [Option.elim]
    cases (s.storeContent measured).1 with
    | true =>
      rw [← s.dependents_storeContent measured]
      rfl
    | false => rfl

theorem measureAll_cons_of_none (hs : c.template.styleAt? i = none) :
    c.measureAll measure (i :: rest) m = c.measureAll measure rest m := by
  rw [measureAll, hs]

theorem measureAll_cons (h : c.measureAll measure (i :: rest) m = (.ok (c', styles), m')) :
    (c.template.styleAt? i = none ∧ c.measureAll measure rest m = (.ok (c', styles), m')) ∨
      ∃ s result m₁ styles', c.template.styleAt? i = some s ∧ measure s m = (.ok result, m₁) ∧
        (result.elim c (storeMeasured m₁.store.dependents c i s)).measureAll measure rest m₁ =
          (.ok (c', styles'), m') := by
  cases hs : c.template.styleAt? i with
  | none =>
    rw [measureAll_cons_of_none hs] at h
    exact .inl ⟨rfl, h⟩
  | some s =>
    rcases hmeasure : measure s m with ⟨stop | result, m₁⟩
    · rw [measureAll, hs] at h
      cases (Run.run_bind_error hmeasure).symm.trans h
    · rw [measureAll_cons_of_some hs hmeasure] at h
      obtain ⟨⟨c₁, styles'⟩, m₂, hrest, h⟩ := Run.run_bind_eq_ok h
      cases h
      exact .inr ⟨s, result, m₁, styles', rfl, hmeasure, hrest⟩

end Measuring

end Cycle

/-! ## From one cycle to the next -/

/-- The style reads something that changed since it was rendered. -/
def Dirty (t : Template) (i : Nat) : Prop := (t.styles[i]?).any (·.dirty) = true

theorem Dirty.markDirty {t : Template} {j : Nat} (h : t.Dirty j) (i : Nat) :
    (t.markDirty i).Dirty j := by
  unfold Dirty at h ⊢
  show ((t.styles.modify i _)[j]?).any _ = true
  by_cases hij : i = j
  · subst hij
    rw [List.getElem?_modify_eq, Option.map_eq_map, Option.any_map]
    cases hc : t.styles[i]? with
    | none =>
      rw [hc] at h
      cases h
    | some c => rfl
  · rwa [List.getElem?_modify_ne _ _ hij]

namespace Cycle

variable {c : Cycle} {i : Nat} {b : Bool}

theorem marked_start (t : Template) : (start t).Marked i b ↔ t.Dirty i := by
  unfold Marked start Dirty
  dsimp only
  rw [List.getElem?_map, Option.any_map]
  cases b <;> rfl

theorem dirty_carryOver (hlength : c.cells.length = c.template.styles.length) :
    c.carryOver.Dirty i ↔ ∃ b, c.Marked i b := by
  unfold Dirty carryOver Marked
  dsimp only
  rw [List.getElem?_zipWith, Bool.exists_bool]
  by_cases hi : i < c.cells.length
  · rw [List.getElem?_eq_getElem hi, List.getElem?_eq_getElem (hlength ▸ hi)]
    exact Bool.or_eq_true_iff
  · rw [List.getElem?_eq_none (Nat.le_of_not_lt hi)]
    cases c.template.styles[i]? <;> simp

theorem sameCard_carryOver (hlength : c.cells.length = c.template.styles.length) :
    c.template.SameCard c.carryOver := by
  refine ⟨rfl, List.ext_getElem? fun i => ?_⟩
  unfold carryOver
  rw [List.getElem?_map, List.getElem?_map, List.getElem?_zipWith]
  by_cases hi : i < c.cells.length
  · rw [List.getElem?_eq_getElem hi, List.getElem?_eq_getElem (hlength ▸ hi)]
    rfl
  · rw [List.getElem?_eq_none (hlength ▸ Nat.le_of_not_lt hi)]

/-- Telling listeners only writes to the log. -/
theorem announce_log (styles : List (StyleCell × CycleCell)) (st : Store) :
    ∃ log, (announce styles st).2 = { st with log } := by
  have hnotify : ∀ (s : Style) (mask : Changes) (st : Store),
      ∃ log, (s.notify mask st).2 = { st with log } := by
    intro s mask st
    unfold Style.notify
    induction s.listeners generalizing st with
    | nil => exact ⟨st.log, rfl⟩
    | cons listener rest ih => exact ih { st with log := st.log.push _ }
  induction styles generalizing st with
  | nil => exact ⟨st.log, rfl⟩
  | cons head rest ih =>
    obtain ⟨s, cell⟩ := head
    cases hmask : cell.mask.isEmpty with
    | true =>
      have hrest : (announce ((s, cell) :: rest) st).2 = (announce rest st).2 := by
        rw [announce, hmask]
        rfl
      rw [hrest]
      exact ih st
    | false =>
      have hrest : (announce ((s, cell) :: rest) st).2 =
          (announce rest (s.style.notify cell.mask st).2).2 := by
        rw [announce, hmask]
        rfl
      obtain ⟨log, hlog⟩ := hnotify s.style cell.mask st
      rw [hrest, hlog]
      exact ih { st with log }

theorem announce_aside (styles : List (StyleCell × CycleCell)) (m : Machine) :
    m.Aside ⟨m.context, (announce styles m.store).2⟩ := by
  obtain ⟨log, hlog⟩ := announce_log styles m.store
  exact ⟨⟨m.context.backtrace, rfl⟩, m.store.nextIdent, log, m.store.reports, Nat.le_refl _, hlog⟩

end Cycle

/-- What is done with a card. -/
inductive Call
  /-- The user stores a value in a field. -/
  | edit (name : String) (v : Value)
  /-- The fields are updated. -/
  | refresh
  /-- The card is rendered. -/
  | render (measure : Style → Run (Option Measurement))

/-- The card after a call. -/
def Call.run (budget : Nat) (t : Template) : Call → Run Template
  | .edit name v => do return (← t.edit budget name v).1
  | .refresh => do return (← t.refreshFields budget).1
  | .render measure => do return (← t.render budget measure).template

/-- The card after calls in order. -/
def runCalls (budget : Nat) (t : Template) (calls : List Call) : Run Template :=
  calls.foldlM (fun t call => call.run budget t) t

/-- Linking marks every style. -/
theorem dirty_of_link {budget : Nat} {t₀ t : Template} {m₀ m : Machine} {i : Nat} {s : Style}
    (h : t₀.link budget m₀ = (.ok (t, none), m)) (hs : t.styleAt? i = some s) : t.Dirty i := by
  obtain ⟨styles, m₁, -, rfl⟩ := link_cases h
  obtain ⟨c, hc, -⟩ := styleAt?_eq_some.1 hs
  have hmap : (styles.map fun c => { c with dirty := true : StyleCell })[i]? = some c := hc
  obtain ⟨c₀, -, rfl⟩ := Option.map_eq_some_iff.1 ((List.getElem?_map ..).symm.trans hmap)
  unfold Dirty
  rw [hc]
  rfl

/-- The parts of a render cycle. -/
theorem render_cases {budget : Nat} {t : Template} {measure : Style → Run (Option Measurement)}
    {m m' : Machine} {rendered : Rendered}
    (h : t.render budget measure m = (.ok rendered, m')) :
    ∃ t₁ changed m₁ c₁ m₂ c₂ measured m₃ c₃ m₄,
      t.refreshFields budget m = (.ok (t₁, changed), m₁) ∧
      Cycle.phase (Cycle.visitStructure budget) (.start t₁) (Run.enterScope m₁).2 = (.ok c₁, m₂) ∧
      c₁.measureAll measure (List.range t₁.styles.length) m₂ = (.ok (c₂, measured), m₃) ∧
      Cycle.phase (Cycle.visitContent budget) c₂ m₃ = (.ok c₃, m₄) ∧
      rendered = ⟨c₃.carryOver, (Cycle.announce (c₃.carryOver.styles.zip c₃.cells)
        (Run.leaveScope m₁.context.env.hiddenCount m₄).2.store).1, measured⟩ ∧
      m' = ⟨(Run.leaveScope m₁.context.env.hiddenCount m₄).2.context,
        (Cycle.announce (c₃.carryOver.styles.zip c₃.cells)
          (Run.leaveScope m₁.context.env.hiddenCount m₄).2.store).2⟩ := by
  obtain ⟨⟨t₁, changed⟩, m₁, hfields, h⟩ := Run.run_bind_eq_ok h
  obtain ⟨⟨c₃, measured⟩, m₅, hscope, h⟩ := Run.run_bind_eq_ok h
  obtain ⟨m₄, hinner, rfl⟩ := Run.run_inScope_eq_ok hscope
  obtain ⟨c₁, m₂, hfirst, hinner⟩ := Run.run_bind_eq_ok hinner
  obtain ⟨⟨c₂, measured'⟩, m₃, hall, hinner⟩ := Run.run_bind_eq_ok hinner
  obtain ⟨c₃', m₄', hsecond, hinner⟩ := Run.run_bind_eq_ok hinner
  cases hinner
  cases h
  exact ⟨t₁, changed, m₁, c₁, m₂, c₂, measured, m₃, c₃, m₄, hfields, hfirst, hall, hsecond, rfl, rfl⟩

end Template

namespace Setup

open Template

variable {w : Setup} {m₀ m m' : Machine} {c c' : Cycle} {i : Nat} {b : Bool}

/-- The layout measures every style, and does nothing else but note something. -/
def Measures (w : Setup) (measure : Style → Run (Option Measurement)) : Prop :=
  ∀ s m, ∃ result m', measure s m = (.ok result, m') ∧ m.Aside m' ∧
    ∀ measured, result = some measured → w.usage.measures measured

namespace Underway

theorem sweeps (h : w.Underway m₀ c m) (hr : w.usage.renders)
    (hpure : ∀ i p, w.PureProperty i p) {visit : Cycle → Nat → Run (Cycle × Bool)}
    (hvisits : w.Visits b visit) {n : Nat} (hrun : Cycle.sweeps visit n c m = (.ok c', m')) :
    w.Underway m₀ c' m' :=
  Cycle.sweeps_keeps (fun hc hvisit => hc.visit hr hpure (hvisits hc.session hc.length hvisit))
    h hrun

/-- Sweeps come to an end if visits do. -/
theorem sweeps_returns (h : w.Underway m₀ c m) (hr : w.usage.renders)
    (hpure : ∀ i p, w.PureProperty i p) {visit : Cycle → Nat → Run (Cycle × Bool)}
    (hvisits : w.Visits b visit)
    (hreturns : ∀ {c m} i, w.Session c.template m → ∃ c' ran m', visit c i m = (.ok (c', ran), m'))
    (n : Nat) : ∃ c' m', Cycle.sweeps visit n c m = (.ok c', m') ∧ w.Underway m₀ c' m' := by
  refine Cycle.sweeps_returns (fun {c m} i hc => ?_) h n
  obtain ⟨c', ran, m', hvisit⟩ := hreturns i hc.session
  exact ⟨c', ran, m', hvisit, hc.visit hr hpure (hvisits hc.session hc.length hvisit)⟩

theorem aside (h : w.Underway m₀ c m) (ha : m.Aside m') : w.Underway m₀ c m' :=
  { h with
    session := h.session.work ((Proceeds.refl m).aside ha)
    proceeds := h.proceeds.aside ha }

theorem storeMeasured (h : w.Underway m₀ c m) (hr : w.usage.renders)
    (hpure : ∀ i p, w.PureProperty i p) {s : Style} (hs : c.template.styleAt? i = some s)
    {measured : Measurement} (hm : w.usage.measures measured) :
    w.Underway m₀ (c.storeMeasured w.lists i s measured) m := by
  refine ⟨?_, h.proceeds, ?_, ?_⟩
  · rw [Cycle.template_storeMeasured]
    exact h.session.measure hr hs hm
  · rw [Cycle.length_storeMeasured, Cycle.template_storeMeasured, h.length]
    exact (List.length_modify ..).symm
  · rw [Cycle.template_storeMeasured]
    refine h.current.measure hpure h.session hs (fun j a hmarked => ?_) fun hchanged j htells hlt => ?_
    · exact (Cycle.marked_storeMeasured h.length).2 (.inl hmarked)
    · exact (Cycle.marked_storeMeasured h.length).2 (.inr ⟨hchanged, rfl, htells, h.length ▸ hlt⟩)

/-- One style was measured, or the layout has no sizes for it. -/
theorem measured (h : w.Underway m₀ c m) (hr : w.usage.renders)
    (hpure : ∀ i p, w.PureProperty i p) {measure : Style → Run (Option Measurement)}
    (hmeasure : w.Measures measure) {s : Style} (hs : c.template.styleAt? i = some s)
    {result : Option Measurement} (hresult : measure s m = (.ok result, m')) :
    w.Underway m₀ (result.elim c (Cycle.storeMeasured m'.store.dependents c i s)) m' := by
  obtain ⟨_, _, hm', haside, hall⟩ := hmeasure s m
  cases hresult.symm.trans hm'
  have h' := h.aside haside
  rw [h'.session.lists]
  cases result with
  | none => exact h'
  | some measured => exact h'.storeMeasured hr hpure hs (hall measured rfl)

theorem measureAll (h : w.Underway m₀ c m) (hr : w.usage.renders)
    (hpure : ∀ i p, w.PureProperty i p) {measure : Style → Run (Option Measurement)}
    (hmeasure : w.Measures measure) {indices : List Nat} {styles : List Style}
    (hrun : c.measureAll measure indices m = (.ok (c', styles), m')) : w.Underway m₀ c' m' := by
  induction indices generalizing c m styles with
  | nil =>
    cases hrun
    exact h
  | cons i rest ih =>
    rcases Cycle.measureAll_cons hrun with ⟨-, hrest⟩ | ⟨s, result, m₁, styles', hs, hm, hrest⟩
    · exact ih h hrest
    · exact ih (h.measured hr hpure hmeasure hs hm) hrest

/-- Measuring comes to an end. -/
theorem measureAll_returns (h : w.Underway m₀ c m) (hr : w.usage.renders)
    (hpure : ∀ i p, w.PureProperty i p) {measure : Style → Run (Option Measurement)}
    (hmeasure : w.Measures measure) (indices : List Nat) :
    ∃ c' styles m', c.measureAll measure indices m = (.ok (c', styles), m') := by
  induction indices generalizing c m with
  | nil => exact ⟨c, [], m, rfl⟩
  | cons i rest ih =>
    cases hs : c.template.styleAt? i with
    | none =>
      rw [Cycle.measureAll_cons_of_none hs]
      exact ih h
    | some s =>
      obtain ⟨result, m₁, hm, -⟩ := hmeasure s m
      obtain ⟨c', styles, m', hrest⟩ := ih (h.measured hr hpure hmeasure hs hm)
      rw [Cycle.measureAll_cons_of_some hs hm]
      exact ⟨c', s :: styles, m', Run.run_bind_ok hrest⟩

end Underway

/-- A layout that always measures the same. -/
theorem measures_const {result : Option Measurement}
    (h : ∀ measured, result = some measured → w.usage.measures measured) :
    w.Measures fun _ => return result :=
  fun _ m => ⟨result, m, rfl, ⟨⟨m.context.backtrace, rfl⟩, _, _, _, Nat.le_refl _, rfl⟩, h⟩

/-- The user may store such a value, the card is rendered and the layout measures such sizes. -/
def Allows (w : Setup) : Call → Prop
  | .edit name v => w.usage.edits name v
  | .refresh => True
  | .render measure => w.usage.renders ∧ w.Measures measure

/-! ## What calls keep -/

/-- Every property is up to date unless its style is marked. -/
def Clean (w : Setup) (t : Template) : Prop := w.Current t fun i _ => t.Dirty i

section Calls

variable {t t' : Template} {changed : List String}

/-- Rounds mark the styles that read a field that changed, or will do so. -/
theorem roundInvariant_clean (hpure : ∀ i p, w.PureProperty i p) :
    w.RoundInvariant fun r pending =>
      w.Current r.template fun i _ => r.template.Dirty i ∨ pending ⟨.style, i⟩ where
  forget {r P Q} h _ htold i s p hs hclear := by
    refine h hs ?_
    rintro (hdirty | hpending)
    · exact hclear (.inl hdirty)
    · rcases htold _ hpending with hQ | hmarked
      · exact hclear (.inr hQ)
      · obtain ⟨c, hc, -⟩ := styleAt?_eq_some.1 hs
        refine hclear (.inl ?_)
        unfold Dirty
        rw [hc]
        exact hmarked c hc
  run {r m P i r' readers m' c m₁ f mask} h hsession _ hrun j s p hs hclear := by
    have hstyles : r'.template.styles = r.template.styles := by
      rw [hrun.template]
      rfl
    have hat : ∀ k, r'.template.styleAt? k = r.template.styleAt? k := fun k => by
      unfold styleAt?
      rw [hstyles]
    rw [hat] at hs
    have hdirty : r'.template.Dirty j ↔ r.template.Dirty j := by
      unfold Dirty
      rw [hstyles]
    refine (h hs fun hmarked => hclear ?_).of_agree (hpure j p) hsession
      (hrun.sameShape hsession) (fun _ _ => hrun.agree fun hmem => ?_) fun s₁ s₂ hs₁ hs₂ => ?_
    · exact hmarked.imp hdirty.2 .inl
    · exact (hrun.told_or_eq hsession hmem).resolve_left fun htold => hclear (.inr (.inr htold))
    · rw [hat] at hs₂
      cases hs₁.symm.trans hs₂
      rfl
  mark {r P m i} h hsession _ j s p hs hclear := by
    have hsame := sameCard_markDirty r.template i
    rw [hsame.styleAt?_eq] at hs
    exact (h hs fun hmarked => hclear (hmarked.imp_left (·.markDirty i))).sameCard hsame

theorem Clean.refreshFields (h : w.Clean t) (hpure : ∀ i p, w.PureProperty i p)
    (hsession : w.Session t m) (hrun : t.refreshFields w.budget m = (.ok (t', changed), m')) :
    w.Session t' m' ∧ w.Clean t' := by
  obtain ⟨hsession', hend, -⟩ := (roundInvariant_clean hpure).refreshFields
    (fun i s p hs hclear => (h hs fun hdirty => hclear (.inl hdirty)).sameCard ⟨rfl, rfl⟩)
    hsession hrun
  exact ⟨hsession', hend.mono fun _ _ hmarked => hmarked.resolve_right id⟩

theorem Clean.edit (h : w.Clean t) (hpure : ∀ i p, w.PureProperty i p) (hsession : w.Session t m)
    {name : String} {v : Value} (hv : w.usage.edits name v)
    (hrun : t.edit w.budget name v m = (.ok (t', changed), m')) : w.Session t' m' ∧ w.Clean t' := by
  have hstart : ∀ i c, t.fields[i]? = some c → c.field.name = name →
      w.Current (t.beginRound.stamp i (c.field.setValue v).2) fun j _ =>
        (t.beginRound.stamp i (c.field.setValue v).2).Dirty j ∨
          ⟨.style, j⟩ ∈ w.lists[c.field.dependents]?.getD [] := by
    intro i c hc _ j s p hs hclear
    have hset : w.PropertyUpToDate (t.setField i (c.field.setValue v).2) j p := by
      refine (h hs fun hdirty => hclear (.inl hdirty)).of_agree (hpure j p) hsession
        (sameShape_setField hc (Field.shape_setValue _ _))
        (fun _ _ => agree_setField hc fun hmem => absurd (.inr hmem) hclear)
        fun s₁ s₂ hs₁ hs₂ => ?_
      cases hs₁.symm.trans hs₂
      rfl
    have hbegun : w.PropertyUpToDate (t.beginRound.setField i (c.field.setValue v).2) j p :=
      hset.sameCard ⟨rfl, rfl⟩
    exact hbegun.sameCard (sameCard_stamp _ _ _)
  rcases (roundInvariant_clean hpure).edit hv hstart hsession hrun with ⟨rfl, rfl⟩ | ⟨hsession', hend⟩
  · exact ⟨hsession, h⟩
  · exact ⟨hsession', hend.mono fun _ _ hmarked => hmarked.resolve_right id⟩

variable {measure : Style → Run (Option Measurement)} {rendered : Rendered}

/-- A cycle begins after the fields were updated. -/
theorem Clean.underway (h : w.Clean t) (hsession : w.Session t m) :
    w.Underway (Run.enterScope m).2 (Cycle.start t) (Run.enterScope m).2 :=
  ⟨hsession.enter, .refl _, List.length_map .., h.mono fun _ _ => (Cycle.marked_start t).2⟩

/-- A cycle keeps that styles without a mark are up to date. -/
theorem Clean.render (h : w.Clean t) (hr : w.usage.renders)
    (hpure : ∀ i p, w.PureProperty i p) (hsession : w.Session t m) (hmeasure : w.Measures measure)
    (hrun : t.render w.budget measure m = (.ok rendered, m')) :
    w.Session rendered.template m' ∧ w.Clean rendered.template := by
  obtain ⟨t₁, changed, m₁, c₁, m₂, c₂, measured, m₃, c₃, m₄, hfields, hfirst, hall, hsecond,
    rfl, rfl⟩ := render_cases hrun
  obtain ⟨hsession₁, h₁⟩ := h.refreshFields hpure hsession hfields
  have hsettled := (h₁.underway hsession₁).sweeps hr hpure (visits_structure hr) hfirst
  have hmeasured := hsettled.measureAll hr hpure hmeasure hall
  have hend := hmeasured.sweeps hr hpure (visits_content hr) hsecond
  have hsame := Cycle.sameCard_carryOver hend.length
  refine ⟨((hsession₁.leave hend.proceeds hend.session).restamp hsame).work
    ((Proceeds.refl _).aside (Cycle.announce_aside _ _)), fun i s p hs hclear => ?_⟩
  rw [hsame.styleAt?_eq] at hs
  exact (hend.current hs fun hmarked =>
    hclear ((Cycle.dirty_carryOver hend.length).2 ⟨_, hmarked⟩)).sameCard hsame

/-- A cycle comes to an end if the scripts do. -/
theorem Clean.render_returns (h : w.Clean t) (hr : w.usage.renders)
    (hpure : ∀ i p, w.PureProperty i p) (hsession : w.Session t m) (hmeasure : w.Measures measure)
    (hreturns : w.Returns) :
    ∃ rendered m', t.render w.budget measure m = (.ok rendered, m') := by
  obtain ⟨t₁, changed, m₁, hfields⟩ := hreturns.refreshFields hsession
  obtain ⟨hsession₁, h₁⟩ := h.refreshFields hpure hsession hfields
  obtain ⟨c₁, m₂, hfirst, hsettled⟩ := (h₁.underway hsession₁).sweeps_returns hr hpure
    (visits_structure hr) (fun i hc => hreturns.visitStructure hr hc i) t₁.styles.length
  obtain ⟨c₂, measured, m₃, hall⟩ :=
    hsettled.measureAll_returns hr hpure hmeasure (List.range t₁.styles.length)
  obtain ⟨c₃, m₄, hsecond, -⟩ := (hsettled.measureAll hr hpure hmeasure hall).sweeps_returns hr hpure
    (visits_content hr) (fun i hc => hreturns.visitContent hr hc i) c₂.template.styles.length
  have hinner : (do
      let c ← Cycle.phase (Cycle.visitStructure w.budget) (.start t₁)
      let (c, measured) ← c.measureAll measure (List.range t₁.styles.length)
      return (← Cycle.phase (Cycle.visitContent w.budget) c, measured)) (Run.enterScope m₁).2 =
        (.ok (c₃, measured), m₄) :=
    (Run.run_bind_ok hfirst).trans ((Run.run_bind_ok hall).trans (Run.run_bind_ok hsecond))
  exact ⟨_, _, (Run.run_bind_ok hfields).trans (Run.run_bind_ok (Run.run_inScope_ok hinner))⟩

/-- Every call keeps that styles without a mark are up to date. -/
theorem Clean.call (h : w.Clean t) (hpure : ∀ i p, w.PureProperty i p) (hsession : w.Session t m)
    {call : Call} (hcall : w.Allows call) (hrun : call.run w.budget t m = (.ok t', m')) :
    w.Session t' m' ∧ w.Clean t' := by
  cases call with
  | edit name v =>
    obtain ⟨⟨t₁, changed⟩, m₁, hedit, hrun⟩ := Run.run_bind_eq_ok hrun
    cases hrun
    exact h.edit hpure hsession hcall hedit
  | refresh =>
    obtain ⟨⟨t₁, changed⟩, m₁, hfields, hrun⟩ := Run.run_bind_eq_ok hrun
    cases hrun
    exact h.refreshFields hpure hsession hfields
  | render measure =>
    obtain ⟨rendered, m₁, hrender, hrun⟩ := Run.run_bind_eq_ok hrun
    cases hrun
    exact h.render hcall.1 hpure hsession hcall.2 hrender

theorem Clean.calls (h : w.Clean t) (hpure : ∀ i p, w.PureProperty i p) (hsession : w.Session t m)
    {calls : List Call} (hcalls : ∀ call ∈ calls, w.Allows call)
    (hrun : t.runCalls w.budget calls m = (.ok t', m')) : w.Session t' m' ∧ w.Clean t' := by
  induction calls generalizing t m with
  | nil =>
    cases hrun
    exact ⟨hsession, h⟩
  | cons call rest ih =>
    obtain ⟨t₁, m₁, hfirst, hrun⟩ := Run.run_bind_eq_ok hrun
    obtain ⟨hcall, hrest⟩ := List.forall_mem_cons.1 hcalls
    obtain ⟨hsession₁, h₁⟩ := h.call hpure hsession hcall hfirst
    exact ih h₁ hsession₁ hrest hrun

/-- **No update of a style is lost.** However a linked card is edited, updated and rendered, every
property of a style without a mark is up to date: running its script again in a machine that shows the
card gives the stored value, unless it fails. This is so in any context, also where scopes were left
with foreign marks: the card is bound in a scope that is open, and a script retains what is. -/
theorem clean_upToDate {t₀ : Template} {m₀ : Machine}
    (hlink : t₀.link w.budget m₀ = (.ok (w.card, none), w.machine))
    (hpure : ∀ i p, w.PureProperty i p) {calls : List Call}
    (hcalls : ∀ call ∈ calls, w.Allows call)
    (hrun : w.card.runCalls w.budget calls w.machine = (.ok t, m)) {c : StyleCell}
    (hc : t.styles[i]? = some c) (hclean : c.dirty = false) (p : Property) :
    w.PropertyUpToDate t i p := by
  have hstart : w.Clean w.card := fun j s q hs hclear => absurd (dirty_of_link hlink hs) hclear
  obtain ⟨-, hend⟩ := hstart.calls hpure .start hcalls hrun
  refine hend (styleAt?_eq_some.2 ⟨c, hc, rfl⟩) fun hdirty => ?_
  have hany : (t.styles[i]?).any (·.dirty) = true := hdirty
  rw [hc, Option.any_some, hclean] at hany
  cases hany

end Calls

end Setup

/-! ## A shade before its frame -/

/-- A style that is visible if a decision says so, with a list of dependents. -/
def decidedStyle (name : String) (ident : Ident) (d : Decision) (dependents : OwnerId) : Style :=
  ⟨name, .fixed 0, .fixed 0, .fixed 0, .fixed 0, .fixed 0, ⟨true, some (d.script ident ⟨0⟩ ⟨1⟩), false⟩,
    .fixed "", none, dependents, []⟩

/-- Whether something is seen. -/
def visibleWith (view : View) : Decision := .test view (.leaf (.bool true)) (.leaf (.bool false))

/-- A card with a shade that is visible if a later frame is, and that if the card is shown. -/
def shadeCard : Template where
  fields := [⟨⟨"shown", ⟨.bool false, none, false⟩, 0⟩, 0⟩]
  styles := [
    ⟨decidedStyle "shade" 0 (visibleWith (.property "frame" .visible)) 1, true⟩,
    ⟨decidedStyle "frame" 1 (visibleWith (.field "shown")) 2, true⟩]
  age := 0

/-- The card linked, to be used in any way. -/
def shadeSetup : Setup :=
  .ofLink ⟨fun _ _ => True, True, fun _ => True⟩ 30 shadeCard (.forCard 3)

/-- Render the card, show it and render it again. -/
def shadeCalls : List Template.Call :=
  [.render fun _ => return none, .edit "shown" (.bool true), .render fun _ => return none]

namespace Setup

theorem link_shade : shadeCard.link shadeSetup.budget (.forCard 3) =
    (.ok (shadeSetup.card, none), shadeSetup.machine) := link_ofLink (by decide +kernel)

/-- What linking the card makes of the machine. -/
theorem machine_shade :
    shadeSetup.machine.store.names = ⟨#["card", "card style"]⟩ ∧
      shadeSetup.machine.store.dependents = #[[⟨.style, 1⟩], [], [⟨.style, 0⟩]] := by
  decide +kernel

theorem lists_shade : shadeSetup.lists = #[[⟨.style, 1⟩], [], [⟨.style, 0⟩]] := machine_shade.2

theorem views_shade :
    shadeSetup.Lists ⟨.style, 0⟩ (.property "frame" .visible) ∧
      shadeSetup.Lists ⟨.style, 1⟩ (.field "shown") := by
  unfold Lists
  rw [lists_shade]
  decide +kernel

theorem decided_shade : shadeSetup.Decided ⟨0⟩ ⟨1⟩ where
  card := by
    rw [machine_shade.1]
    decide +kernel
  styles := by
    rw [machine_shade.1]
    decide +kernel
  field i c s hc hs := by
    rw [(Template.owner_link link_shade).1] at hc
    obtain _ | i := i
    · cases hc
      cases hs
    · cases hc
  property i st p s hst hs := by
    obtain ⟨s₀, hs₀, howner⟩ := Template.exists_owner (Template.owner_link link_shade).2.2 hst
    have hscript : (Property.get s₀ p).script = some s :=
      (congrArg (fun x => x.2.2 p) howner).symm.trans hs
    obtain _ | _ | i := i
    · cases hs₀
      cases p <;> cases hscript
      refine ⟨visibleWith (.property "frame" .visible), ⟨⟨.empty, _, _, rfl⟩, by decide,
        List.forall_mem_singleton.2 views_shade.1⟩, fun _ _ b _ => ?_⟩
      exact beq_self_eq_true b
    · cases hs₀
      cases p <;> cases hscript
      refine ⟨visibleWith (.field "shown"), ⟨⟨{ Store.empty with nextIdent := 1 }, _, _, rfl⟩,
        by decide, List.forall_mem_singleton.2 views_shade.2⟩, fun _ _ b _ => ?_⟩
      exact beq_self_eq_true b
    · cases hs₀

theorem clean_upToDate_shade :
    ∃ t m, shadeSetup.card.runCalls shadeSetup.budget shadeCalls shadeSetup.machine = (.ok t, m) ∧
      t.styles.map (·.dirty) = [false, false] ∧
      ∀ i < 2, ∀ p, shadeSetup.PropertyUpToDate t i p := by
  have hdirty : ((shadeSetup.card.runCalls shadeSetup.budget shadeCalls
      shadeSetup.machine).1.toOption.map fun t => t.styles.map (·.dirty)) = some [false, false] := by
    decide +kernel
  rcases hrun : shadeSetup.card.runCalls shadeSetup.budget shadeCalls shadeSetup.machine with
    ⟨stop | t, m⟩
  · rw [hrun] at hdirty
    cases hdirty
  · rw [hrun] at hdirty
    have hclean : t.styles.map (·.dirty) = [false, false] := Option.some.inj hdirty
    have hcalls : ∀ call ∈ shadeCalls, shadeSetup.Allows call := by
      have hnone : shadeSetup.Measures fun _ => return none := measures_const fun _ h => by cases h
      refine List.forall_mem_cons.2 ⟨⟨trivial, hnone⟩, List.forall_mem_cons.2 ⟨trivial, ?_⟩⟩
      exact List.forall_mem_singleton.2 ⟨trivial, hnone⟩
    refine ⟨t, m, rfl, hclean, fun i hi p => ?_⟩
    have hlength : t.styles.length = 2 := by simpa using congrArg List.length hclean
    have hget := List.getElem?_eq_getElem (hlength ▸ hi : i < t.styles.length)
    refine clean_upToDate link_shade decided_shade.pureProperty hcalls hrun hget ?_ p
    have hmem : (t.styles[i]).dirty ∈ t.styles.map (·.dirty) :=
      List.mem_map_of_mem (List.getElem_mem _)
    rw [hclean] at hmem
    simpa using hmem

end Setup

end ReactiveScript
