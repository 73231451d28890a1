import ReactiveScript.Proofs.Round

/-
  Render cycles.

  A cycle keeps for each style whether scripts of either kind must still run. Visiting a style that is
  not marked does nothing; visiting one that is marked clears the mark and updates the style, and if
  that changed it, marks those who read it (`Visit`). So a style
  whose mark is clear is up to date at any time of a cycle (`Current`), through sweeps and
  measurements, and when the marks are handed over to the next cycle.
-/

namespace ReactiveScript

namespace Template

/-! ## Marks -/

/-- Whether scripts must run that read measured content, or those that do not. -/
def CycleCell.marked (cell : CycleCell) : Bool → Bool
  | true => cell.contentDirty
  | false => cell.structureDirty

/-- Clear a mark. -/
def CycleCell.clear (cell : CycleCell) : Bool → CycleCell
  | true => { cell with contentDirty := false }
  | false => { cell with structureDirty := false }

theorem CycleCell.marked_clear (cell : CycleCell) (a b : Bool) :
    (cell.clear a).marked b = (cell.marked b && a != b) := by
  cases a <;> cases b <;> simp [clear, marked]

namespace Cycle

variable {c : Cycle} {i j : Nat} {a b : Bool}

/-- The scripts of a style that read measured content must run, or those that do not. -/
def Marked (c : Cycle) (i : Nat) (b : Bool) : Prop := (c.cells[i]?).any (·.marked b) = true

theorem marked_iff {cell : CycleCell} (hcell : c.cells[i]? = some cell) :
    c.Marked i b ↔ cell.marked b = true := by
  unfold Marked
  rw [hcell]
  rfl

theorem not_marked_of_none (hcell : c.cells[i]? = none) : ¬c.Marked i b := by
  unfold Marked
  rw [hcell]
  exact Bool.false_ne_true

theorem Marked.lt (h : c.Marked i b) : i < c.cells.length :=
  Nat.lt_of_not_le fun hle => not_marked_of_none (List.getElem?_eq_none hle) h

theorem length_modifyCell (c : Cycle) (i : Nat) (f : CycleCell → CycleCell) :
    (c.modifyCell i f).cells.length = c.cells.length := List.length_modify ..

theorem marked_modifyCell (c : Cycle) (i j : Nat) (b : Bool) (f : CycleCell → CycleCell) :
    (c.modifyCell i f).Marked j b ↔
      if i = j then (c.cells[j]?).any (fun cell => (f cell).marked b) = true else c.Marked j b := by
  unfold Marked modifyCell
  by_cases h : i = j
  · subst h
    rw [if_pos rfl, List.getElem?_modify_eq, Option.map_eq_map, Option.any_map]
  · rw [if_neg h, List.getElem?_modify_ne _ _ h]

/-- Changing a cell in a way that leaves its marks. -/
theorem marked_modifyCell_of_eq {f : CycleCell → CycleCell}
    (hf : ∀ cell, (f cell).marked b = cell.marked b) :
    (c.modifyCell i f).Marked j b ↔ c.Marked j b := by
  rw [marked_modifyCell]
  simp only [hf]
  exact ite_self _ |>.to_iff

theorem marked_clear :
    (c.modifyCell i (·.clear a)).Marked j b ↔ c.Marked j b ∧ ¬(i = j ∧ a = b) := by
  rw [marked_modifyCell]
  unfold Marked
  by_cases hij : i = j
  · rw [if_pos hij]
    cases c.cells[j]? with
    | none => simp
    | some cell => simp [CycleCell.marked_clear, hij]
  · rw [if_neg hij, and_iff_left fun h => hij h.1]

/-- Marking a list of styles. -/
theorem marked_foldl {g : CycleCell → CycleCell} (sets : Bool)
    (hg : ∀ cell, (g cell).marked b = (cell.marked b || sets)) (indices : List Nat) (c : Cycle) :
    (indices.foldl (fun c i => c.modifyCell i g) c).Marked j b ↔
      c.Marked j b ∨ (sets = true ∧ j ∈ indices ∧ j < c.cells.length) := by
  induction indices generalizing c with
  | nil => simp
  | cons i rest ih =>
    have hstep : (c.modifyCell i g).Marked j b ↔
        c.Marked j b ∨ (sets = true ∧ i = j ∧ j < c.cells.length) := by
      rw [marked_modifyCell]
      unfold Marked
      by_cases hij : i = j
      · rw [if_pos hij]
        by_cases hj : j < c.cells.length
        · rw [List.getElem?_eq_getElem hj]
          simp [hg, hij, hj]
        · rw [List.getElem?_eq_none (Nat.le_of_not_lt hj)]
          simp [hj]
      · rw [if_neg hij]
        simp [hij]
    rw [List.foldl_cons, ih, hstep, length_modifyCell, List.mem_cons, or_assoc, eq_comm (a := i)]
    constructor
    · rintro (h | ⟨hs, rfl, hj⟩ | ⟨hs, hmem, hj⟩)
      · exact .inl h
      · exact .inr ⟨hs, .inl rfl, hj⟩
      · exact .inr ⟨hs, .inr hmem, hj⟩
    · rintro (h | ⟨hs, hmem | hmem, hj⟩)
      · exact .inl h
      · exact .inr (.inl ⟨hs, hmem, hj⟩)
      · exact .inr (.inr ⟨hs, hmem, hj⟩)

theorem foldl_modifyCell (g : CycleCell → CycleCell) (indices : List Nat) (c : Cycle) :
    (indices.foldl (fun c i => c.modifyCell i g) c).template = c.template ∧
      (indices.foldl (fun c i => c.modifyCell i g) c).cells.length = c.cells.length := by
  induction indices generalizing c with
  | nil => exact ⟨rfl, rfl⟩
  | cons i rest ih =>
    rw [List.foldl_cons, (ih _).1, (ih _).2, length_modifyCell]
    exact ⟨rfl, rfl⟩

/-- The readers of a style. -/
def readersIn (c : Cycle) (list : List Dependency) : List Nat :=
  (list.filter fun d => d.kind == .style && d.index < c.template.styles.length).map Dependency.index

theorem mem_readersIn {list : List Dependency} :
    j ∈ c.readersIn list ↔ ⟨.style, j⟩ ∈ list ∧ j < c.template.styles.length := by
  unfold readersIn
  simp only [List.mem_map, List.mem_filter, Bool.and_eq_true, decide_eq_true_eq]
  constructor
  · rintro ⟨⟨kind, k⟩, ⟨hmem, hkind, hlt⟩, rfl⟩
    have hstyle : kind = .style := by simpa using hkind
    exact ⟨hstyle ▸ hmem, hlt⟩
  · rintro ⟨hmem, hlt⟩
    exact ⟨⟨.style, j⟩, ⟨hmem, rfl, hlt⟩, rfl⟩

/-- Marking the readers of a style. -/
theorem marked_readersIn {g : CycleCell → CycleCell} (sets : Bool)
    (hg : ∀ cell, (g cell).marked b = (cell.marked b || sets)) {list : List Dependency}
    (hlength : c.cells.length = c.template.styles.length) :
    ((c.readersIn list).foldl (fun c i => c.modifyCell i g) c).Marked j b ↔
      c.Marked j b ∨ (sets = true ∧ ⟨.style, j⟩ ∈ list ∧ j < c.cells.length) := by
  rw [marked_foldl sets hg, mem_readersIn, and_assoc, hlength, and_self]

theorem run_readers (c : Cycle) (s : Style) (m : Machine) :
    c.readers s m = (.ok (c.readersIn (m.store.dependents[s.dependents]?.getD [])), m) := rfl

end Cycle

end Template

namespace Setup

open Template

variable {w : Setup} {c c' : Cycle} {m m' : Machine} {i : Nat} {b : Bool}

/-- The styles that are told when a style changes. -/
def Tells (w : Setup) (s : Style) (j : Nat) : Prop :=
  ⟨.style, j⟩ ∈ w.lists[s.dependents]?.getD []

/-- A style was updated in a cycle: what that made of the cycle and of the machine. -/
structure StyleRun (w : Setup) (b : Bool) (i : Nat) (c : Cycle) (m : Machine) (c' : Cycle)
    (m' : Machine) (s : Style) (m₁ : Machine) (mask : Changes) (s' : Style) : Prop where
  style : c.template.styleAt? i = some s
  proceeds : Proceeds w.budget w.Runs m m₁
  shown : c.template.ShownOpen m₁
  update : s.update w.budget b m₁ = (.ok (mask, s'), m')
  template : c'.template = c.template.setStyle i s'
  length : c'.cells.length = c.cells.length
  marked : ∀ j a, c'.Marked j a ↔ (c.Marked j a ∧ ¬(i = j ∧ b = a)) ∨
    (mask.isEmpty = false ∧ w.Tells s j ∧ j < c.cells.length)

theorem runStyle_cases (hr : w.usage.renders) (hsession : w.Session c.template m)
    (hlength : c.cells.length = c.template.styles.length) {s : Style}
    (hs : c.template.styleAt? i = some s)
    (h : (c.modifyCell i (·.clear b)).runStyle w.budget b i m = (.ok c', m')) :
    ∃ m₁ mask s', w.StyleRun b i c m c' m' s m₁ mask s' := by
  unfold Cycle.runStyle at h
  rw [show (c.modifyCell i (·.clear b)).template.styleAt? i = some s from hs] at h
  obtain ⟨m₁, hbind, hproceeds, hshown⟩ :=
    c.template.run_bind_shown w.budget w.Runs m
  obtain ⟨u, _, hbind', h⟩ := Run.run_bind_eq_ok h
  cases hbind.symm.trans hbind'
  obtain ⟨⟨mask, s'⟩, m₂, hupdate, h⟩ := Run.run_bind_eq_ok h
  have hrestyled := (hsession.work hproceeds).restyled hr hs hupdate
  dsimp only at h
  cases hmask : mask.isEmpty with
  | true =>
    rw [hmask] at h
    cases h
    refine ⟨m₁, mask, s', hs, hproceeds, hshown, hupdate, rfl, Cycle.length_modifyCell ..,
      fun j a => ?_⟩
    rw [hmask, or_iff_left fun h => absurd h.1 (by decide)]
    exact Cycle.marked_clear
  | false =>
    rw [hmask] at h
    obtain ⟨readers, m₃, hreaders, h⟩ := Run.run_bind_eq_ok h
    cases hreaders
    cases h
    have hlists : m₂.store.dependents = w.lists :=
      hrestyled.stays.proceeds.later.dependents.trans (hsession.work hproceeds).lists
    refine ⟨m₁, mask, s', hs, hproceeds, hshown, hupdate, (Cycle.foldl_modifyCell _ _ _).1, ?_,
      fun j a => ?_⟩
    · exact (Cycle.foldl_modifyCell _ _ _).2.trans
        ((Cycle.length_modifyCell ..).trans (Cycle.length_modifyCell ..))
    · refine (Cycle.marked_readersIn true (fun cell => ?_) ?_).trans ?_
      · cases a <;> simp [CycleCell.marked]
      · exact (Cycle.length_modifyCell ..).trans
          ((Cycle.length_modifyCell ..).trans (hlength.trans (List.length_modify ..).symm))
      · rw [Cycle.length_modifyCell, Cycle.marked_modifyCell_of_eq fun cell => by cases a <;> rfl]
        rw [hmask, hlists, hrestyled.frame.dependents]
        refine or_congr Cycle.marked_clear (and_congr (iff_of_true rfl rfl) (and_congr Iff.rfl ?_))
        show j < (c.modifyCell i _).cells.length ↔ _
        rw [Cycle.length_modifyCell]

/-- A style was visited in one of the phases: it was not marked, or has no script to run in this
phase, or was updated. -/
inductive Visit (w : Setup) (b : Bool) (i : Nat) (c : Cycle) (m : Machine) :
    Cycle → Bool → Machine → Prop
  | unmarked (h : ¬c.Marked i b) : Visit w b i c m c false m
  | unread {s : Style} (hs : c.template.styleAt? i = some s) (h : s.readsContent = false)
    (hb : b = true) : Visit w b i c m (c.modifyCell i (·.clear b)) false m
  | ran {c' : Cycle} {m' : Machine} {s : Style} {m₁ : Machine} {mask : Changes} {s' : Style}
    (h : c.Marked i b) (hreads : b = true → s.readsContent = true)
    (hrun : w.StyleRun b i c m c' m' s m₁ mask s') : Visit w b i c m c' true m'

theorem styleAt?_of_lt {c : Cycle} (hlength : c.cells.length = c.template.styles.length)
    (hlt : i < c.cells.length) : ∃ s, c.template.styleAt? i = some s := by
  rw [hlength] at hlt
  exact ⟨_, styleAt?_eq_some.2 ⟨_, List.getElem?_eq_getElem hlt, rfl⟩⟩

/-- Visits of a phase. -/
def Visits (w : Setup) (b : Bool) (visit : Cycle → Nat → Run (Cycle × Bool)) : Prop :=
  ∀ ⦃c m i c' ran m'⦄, w.Session c.template m → c.cells.length = c.template.styles.length →
    visit c i m = (.ok (c', ran), m') → w.Visit b i c m c' ran m'

theorem visits_structure (hr : w.usage.renders) :
    w.Visits false (Cycle.visitStructure w.budget) := by
  intro c m i c' ran m' hsession hlength h
  unfold Cycle.visitStructure at h
  cases hcell : c.cells[i]? with
  | none =>
    rw [hcell] at h
    cases h
    exact .unmarked (Cycle.not_marked_of_none hcell)
  | some cell =>
    have hmarked : c.Marked i false ↔ cell.structureDirty = true := Cycle.marked_iff hcell
    rw [hcell] at h
    dsimp only at h
    by_cases hdirty : cell.structureDirty = true
    · rw [if_pos hdirty] at h
      obtain ⟨c₁, m₁, hrun, h⟩ := Run.run_bind_eq_ok h
      cases h
      obtain ⟨s, hs⟩ := styleAt?_of_lt hlength (hmarked.2 hdirty).lt
      obtain ⟨_, _, _, hstyle⟩ := runStyle_cases hr hsession hlength hs hrun
      exact .ran (hmarked.2 hdirty) (fun hb => by cases hb) hstyle
    · rw [if_neg hdirty] at h
      cases h
      exact .unmarked (mt hmarked.1 hdirty)

theorem visits_content (hr : w.usage.renders) : w.Visits true (Cycle.visitContent w.budget) := by
  intro c m i c' ran m' hsession hlength h
  unfold Cycle.visitContent at h
  cases hcell : c.cells[i]? with
  | none =>
    rw [hcell] at h
    cases h
    exact .unmarked (Cycle.not_marked_of_none hcell)
  | some cell =>
    have hmarked : c.Marked i true ↔ cell.contentDirty = true := Cycle.marked_iff hcell
    obtain ⟨s, hs⟩ := styleAt?_of_lt hlength (List.getElem?_eq_some_iff.1 hcell).1
    rw [hcell, hs] at h
    dsimp only at h
    by_cases hdirty : cell.contentDirty = true
    · rw [if_pos hdirty] at h
      by_cases hreads : s.readsContent = true
      · rw [if_pos hreads] at h
        obtain ⟨c₁, m₁, hrun, h⟩ := Run.run_bind_eq_ok h
        cases h
        obtain ⟨_, _, _, hstyle⟩ := runStyle_cases hr hsession hlength hs hrun
        exact .ran (hmarked.2 hdirty) (fun _ => hreads) hstyle
      · rw [if_neg hreads] at h
        cases h
        exact .unread hs (Bool.eq_false_iff.2 hreads) rfl
    · rw [if_neg hdirty] at h
      cases h
      exact .unmarked (mt hmarked.1 hdirty)

/-! ## Visits come to an end -/

namespace Returns

theorem style_update (h : w.Returns) (hr : w.usage.renders) {t : Template}
    (hsession : w.Session t m) {s : Style} (hs : t.styleAt? i = some s) (b : Bool) :
    ∃ mask s' m', s.update w.budget b m = (.ok (mask, s'), m') :=
  s.update_returns b (fun _ _ hp => hsession.runs_style hr hs hp)
    fun _ _ hruns hstays => h (hsession.stays hstays) hruns

theorem runStyle (h : w.Returns) (hr : w.usage.renders) (hsession : w.Session c.template m)
    (b : Bool) (i : Nat) : ∃ c' m', c.runStyle w.budget b i m = (.ok c', m') := by
  unfold Cycle.runStyle
  cases hs : c.template.styleAt? i with
  | none => exact ⟨c, m, rfl⟩
  | some s =>
    obtain ⟨m₁, hbind, hproceeds, -⟩ := c.template.run_bind_shown w.budget w.Runs m
    obtain ⟨mask, s', m₂, hupdate⟩ := h.style_update hr (hsession.work hproceeds) hs b
    dsimp only
    rw [Run.run_bind_ok hbind, Run.run_bind_ok hupdate]
    dsimp only
    split
    · exact ⟨_, _, rfl⟩
    · exact ⟨_, _, Run.run_bind_ok (Cycle.run_readers _ _ _)⟩

theorem visitStructure (h : w.Returns) (hr : w.usage.renders) (hsession : w.Session c.template m)
    (i : Nat) : ∃ c' ran m', c.visitStructure w.budget i m = (.ok (c', ran), m') := by
  unfold Cycle.visitStructure
  cases c.cells[i]? with
  | none => exact ⟨c, false, m, rfl⟩
  | some cell =>
    dsimp only
    split
    · obtain ⟨c', m', hrun⟩ := h.runStyle (c := c.modifyCell i (·.clear false)) hr hsession false i
      exact ⟨c', true, m', Run.run_bind_ok hrun⟩
    · exact ⟨c, false, m, rfl⟩

theorem visitContent (h : w.Returns) (hr : w.usage.renders) (hsession : w.Session c.template m)
    (i : Nat) : ∃ c' ran m', c.visitContent w.budget i m = (.ok (c', ran), m') := by
  unfold Cycle.visitContent
  cases c.cells[i]? with
  | none => exact ⟨c, false, m, rfl⟩
  | some cell =>
    cases c.template.styleAt? i with
    | none => exact ⟨c, false, m, rfl⟩
    | some s =>
      dsimp only
      split
      · split
        · obtain ⟨c', m', hrun⟩ := h.runStyle (c := c.modifyCell i (·.clear true)) hr hsession true i
          exact ⟨c', true, m', Run.run_bind_ok hrun⟩
        · exact ⟨_, false, m, rfl⟩
      · exact ⟨c, false, m, rfl⟩

end Returns

end Setup

namespace Style.Restyled

variable {budget : Nat} {runs : Script Value → Prop} {b noFlags : Bool} {s s' : Style}
  {m m' : Machine}

theorem readsContent_eq (h : s.Restyled budget runs b (fun _ => True) m noFlags s' m')
    (p : Property) : (Property.get s' p).readsContent = (Property.get s p).readsContent := by
  obtain ⟨_, _, _, htouched, _⟩ := h.touches p trivial
  exact htouched.fixes.2

/-- Properties of the other phase stay as they are. -/
theorem get_eq_of_ne {p : Property} (h : s.Restyled budget runs b (fun _ => True) m noFlags s' m')
    (hne : (Property.get s p).readsContent ≠ b) : Property.get s' p = Property.get s p := by
  obtain ⟨_, changed, _, htouched, _⟩ := h.touches p trivial
  unfold Touched at htouched
  rw [if_neg hne] at htouched
  exact congrArg Prod.snd htouched

end Style.Restyled

namespace Style

variable {s : Style}

theorem view_mem_properties (s : Style) (p : Property) :
    (Property.get s p).view p.name ∈ s.properties := by
  cases p <;> simp [properties, Property.get, Property.name]

theorem readsContent_eq_false (h : s.readsContent = false) (p : Property) :
    (Property.get s p).readsContent = false :=
  Bool.eq_false_iff.2 fun hreads =>
    absurd (List.any_eq_true.2 ⟨_, s.view_mem_properties p, hreads⟩) (Bool.eq_false_iff.1 h)

theorem get_storeContent (s : Style) (measured : Measurement) (p : Property) :
    Property.get (s.storeContent measured).2 p = Property.get s p := by
  unfold storeContent
  split
  · rfl
  · cases p <;> rfl

/-- A measurement that is the same as the last changes nothing. -/
theorem storeContent_unchanged {measured : Measurement} (h : (s.storeContent measured).1 = false) :
    (s.storeContent measured).2 = s := by
  unfold storeContent at h ⊢
  split
  · rfl
  · next hne =>
    rw [if_neg hne] at h
    cases h

theorem dependents_storeContent (s : Style) (measured : Measurement) :
    (s.storeContent measured).2.dependents = s.dependents := by
  unfold storeContent
  split <;> rfl

end Style

namespace Setup

open Template

variable {w : Setup} {c c' : Cycle} {m m' : Machine} {i : Nat} {b : Bool}

/-! ## Styles that are not marked are up to date -/

/-- Every property is up to date unless its style is marked for the scripts of its kind. -/
def Current (w : Setup) (t : Template) (marked : Nat → Bool → Prop) : Prop :=
  ∀ ⦃i : Nat⦄ ⦃s : Style⦄ ⦃p : Property⦄, t.styleAt? i = some s →
    ¬marked i (Property.get s p).readsContent → w.PropertyUpToDate t i p

section Current

variable {t t' : Template} {marked marked' : Nat → Bool → Prop} {s s' : Style}

theorem Current.mono (h : w.Current t marked) (hle : ∀ i a, marked i a → marked' i a) :
    w.Current t marked' := fun _ _ _ hs hclear => h hs fun hmarked => hclear (hle _ _ hmarked)

theorem lt_of_styleAt? (hs : t.styleAt? i = some s) : i < t.styles.length := by
  obtain ⟨c, hc, -⟩ := styleAt?_eq_some.1 hs
  exact (List.getElem?_eq_some_iff.1 hc).1

/-- Whoever is not told of a style, or if the style is the same, reads the same. -/
theorem agree_restyled {mask : Changes} {j : Nat} {content : Bool} (hs : t.styleAt? i = some s)
    {m₁ m₂ : Machine} {runs : Script Value → Prop}
    (h : s.Restyled w.budget runs b (fun _ => True) m₁ mask.isEmpty s' m₂)
    (hj : mask.isEmpty = false → ¬w.Tells s j) :
    t.Agree w.lists ⟨.style, j⟩ content (t.setStyle i s') := by
  refine agree_setStyle hs fun hmem => ?_
  cases hmask : mask.isEmpty with
  | true =>
    rw [hmask] at h
    rw [h.eq]
    exact ⟨fun _ => rfl, fun _ => rfl⟩
  | false => exact absurd hmem (hj hmask)

/-- Updating a style whose mark is cleared, when all who read it are marked if it changed. -/
theorem Current.restyle (h : w.Current t marked) (hr : w.usage.renders)
    (hpure : ∀ i p, w.PureProperty i p) (hsession : w.Session t m) (hshown : t.ShownOpen m)
    (hs : t.styleAt? i = some s) {mask : Changes}
    (hupdate : s.update w.budget b m = (.ok (mask, s'), m'))
    (hkept : ∀ j a, marked j a → marked' j a ∨ (i = j ∧ b = a))
    (htold : ∀ j a, mask.isEmpty = false → w.Tells s j → j < t.styles.length → marked' j a) :
    w.Current (t.setStyle i s') marked' := by
  have hrestyled := hsession.restyled hr hs hupdate
  intro j sⱼ p hget hclear
  have hlt : j < t.styles.length := by
    have hlt := lt_of_styleAt? hget
    rwa [show (t.setStyle i s').styles.length = t.styles.length from List.length_modify ..] at hlt
  have hagree : ∀ content, t.Agree w.lists ⟨.style, j⟩ content (t.setStyle i s') := fun content =>
    agree_restyled hs hrestyled fun hmask htells => hclear (htold j _ hmask htells hlt)
  by_cases hself : i = j ∧ b = (Property.get sⱼ p).readsContent
  · obtain ⟨rfl, hphase⟩ := hself
    rw [styleAt?_setStyle, if_pos rfl, hs] at hget
    cases hget
    rw [hrestyled.readsContent_eq] at hphase
    refine propertyUpToDate_of_restyled (hpure i p) hsession hshown hs hrestyled hphase.symm
      (hagree b) fun s₁ hs₁ => ?_
    rw [styleAt?_setStyle, if_pos rfl, hs] at hs₁
    cases hs₁
    rfl
  · obtain ⟨s₀, hs₀, hsame⟩ : ∃ s₀, t.styleAt? j = some s₀ ∧
        ((Property.get sⱼ p).readsContent = (Property.get s₀ p).readsContent) ∧
          (Property.get sⱼ p).value = (Property.get s₀ p).value := by
      rw [styleAt?_setStyle] at hget
      by_cases hij : i = j
      · subst hij
        rw [if_pos rfl, hs] at hget
        cases hget
        have hphase := hrestyled.readsContent_eq p
        refine ⟨s, hs, hphase, ?_⟩
        rw [hrestyled.get_eq_of_ne fun he => hself ⟨rfl, he.symm.trans hphase.symm⟩]
      · rw [if_neg hij] at hget
        exact ⟨sⱼ, hget, rfl, rfl⟩
    rw [hsame.1] at hself hclear
    have hunmarked : ¬marked j (Property.get s₀ p).readsContent := fun hmarked =>
      (hkept j _ hmarked).elim hclear hself
    refine (h hs₀ hunmarked).of_agree (hpure j p) hsession
      (sameShape_setStyle hs hrestyled.shape) (fun s₁ _ => hagree _) fun s₁ s₂ hs₁ hs₂ => ?_
    cases hs₀.symm.trans hs₁
    cases hget.symm.trans hs₂
    exact hsame.2

/-- Measuring a style, when all who read its content are marked if that changed. -/
theorem Current.measure (h : w.Current t marked) (hpure : ∀ i p, w.PureProperty i p)
    (hsession : w.Session t m) (hs : t.styleAt? i = some s) {measured : Measurement}
    (hkept : ∀ j a, marked j a → marked' j a)
    (htold : (s.storeContent measured).1 = true → ∀ j, w.Tells s j → j < t.styles.length →
      marked' j true) : w.Current (t.setStyle i (s.storeContent measured).2) marked' := by
  intro j sⱼ p hget hclear
  obtain ⟨s₀, hs₀, hsame⟩ : ∃ s₀, t.styleAt? j = some s₀ ∧ Property.get sⱼ p = Property.get s₀ p := by
    rw [styleAt?_setStyle] at hget
    by_cases hij : i = j
    · subst hij
      rw [if_pos rfl, hs] at hget
      cases hget
      exact ⟨s, hs, s.get_storeContent measured p⟩
    · rw [if_neg hij] at hget
      exact ⟨sⱼ, hget, rfl⟩
  rw [hsame] at hclear
  refine (h hs₀ fun hmarked => hclear (hkept _ _ hmarked)).of_agree (hpure j p) hsession
    (sameShape_setStyle hs (s.shape_storeContent measured)) (fun s₁ hs₁ => ?_)
    fun s₁ s₂ hs₁ hs₂ => ?_
  · cases hs₀.symm.trans hs₁
    refine agree_setStyle hs fun hmem => ⟨fun q => by rw [s.get_storeContent], fun hreads => ?_⟩
    cases hchanged : (s.storeContent measured).1 with
    | false => rw [Style.storeContent_unchanged hchanged]
    | true =>
      rw [hreads] at hclear
      exact absurd (htold hchanged j hmem (lt_of_styleAt? hs₀)) hclear
  · cases hs₀.symm.trans hs₁
    cases hget.symm.trans hs₂
    rw [hsame]

end Current

/-! ## Sweeps and measurements -/

/-- A cycle that began in a machine and got this far. -/
structure Underway (w : Setup) (m₀ : Machine) (c : Cycle) (m : Machine) : Prop where
  session : w.Session c.template m
  proceeds : Proceeds w.budget w.Runs m₀ m
  length : c.cells.length = c.template.styles.length
  current : w.Current c.template c.Marked

variable {m₀ : Machine} {ran : Bool}

theorem StyleRun.underway (h : w.Underway m₀ c m) (hr : w.usage.renders)
    (hpure : ∀ i p, w.PureProperty i p) {s s' : Style} {m₁ : Machine} {mask : Changes}
    (hrun : w.StyleRun b i c m c' m' s m₁ mask s') : w.Underway m₀ c' m' := by
  have hsession₁ := h.session.work hrun.proceeds
  have hrestyled := hsession₁.restyled hr hrun.style hrun.update
  have hstyles : c'.template.styles.length = c.template.styles.length := by
    rw [hrun.template]
    exact List.length_modify ..
  refine ⟨?_, h.proceeds.trans (hrun.proceeds.trans hrestyled.stays.proceeds), ?_, ?_⟩
  · rw [hrun.template]
    exact hsession₁.style hr hrun.shown.shown hrun.style hrun.update
  · rw [hrun.length, hstyles, h.length]
  · rw [hrun.template]
    refine h.current.restyle hr hpure hsession₁ hrun.shown hrun.style hrun.update
      (fun j a hmarked => ?_) fun j a hmask htells hlt => ?_
    · rw [hrun.marked]
      by_cases hself : i = j ∧ b = a
      · exact .inr hself
      · exact .inl (.inl ⟨hmarked, hself⟩)
    · rw [hrun.marked, h.length]
      exact .inr ⟨hmask, htells, hlt⟩

theorem Underway.visit (h : w.Underway m₀ c m) (hr : w.usage.renders)
    (hpure : ∀ i p, w.PureProperty i p) (hvisit : w.Visit b i c m c' ran m') :
    w.Underway m₀ c' m' := by
  cases hvisit with
  | unmarked => exact h
  | @unread s hs hreads hphase =>
    subst hphase
    refine ⟨h.session, h.proceeds, (Cycle.length_modifyCell ..).trans h.length, ?_⟩
    intro j sⱼ p hget hclear
    refine h.current hget fun hmarked => hclear (Cycle.marked_clear.2 ⟨hmarked, ?_⟩)
    rintro ⟨rfl, hphase⟩
    cases hs.symm.trans hget
    rw [Style.readsContent_eq_false hreads] at hphase
    cases hphase
  | ran _ _ hrun => exact hrun.underway h hr hpure

end Setup

end ReactiveScript
