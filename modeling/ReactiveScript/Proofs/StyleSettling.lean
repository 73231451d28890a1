import ReactiveScript.Proofs.FieldRounds
import ReactiveScript.Proofs.Rendering

/-
  How a cycle settles styles.

  Styles that read each other in no circle are ranked, each above those it reads. A style that ran in a
  sweep marks only styles of greater rank, so each sweep clears the marks of one more rank
  (`Underway.sweep_ahead`). There are no more ranks than styles, and a phase may sweep once per style,
  so its marks are clear in the end (`Underway.phase_clear`). If no script reads measured content, what
  follows marks no style for the first phase again and changes none (`Quiets`). So one cycle brings
  every style up to date, and the next has nothing to do (`styles_settle`).
-/

namespace ReactiveScript

/-! ## Styles whose scripts read no measured content -/

namespace Style

theorem readsContent_congr {s s' : Style}
    (h : ∀ p, (Property.get s' p).readsContent = (Property.get s p).readsContent) :
    s'.readsContent = s.readsContent := by
  have hleft := h .left
  have htop := h .top
  have hwidth := h .width
  have hheight := h .height
  have hangle := h .angle
  have hvisible := h .visible
  have hmask := h .mask
  dsimp only [Property.get] at *
  simp only [readsContent, properties, Computed.view, List.any_cons, List.any_nil, hleft, htop, hwidth,
    hheight, hangle, hvisible, hmask]

theorem readsContent_eq_of_shape {s s' : Style} (h : s'.shape = s.shape) :
    s'.readsContent = s.readsContent :=
  readsContent_congr fun p => congrArg (fun x => (x.2.2 p).2) h

end Style

namespace Template

/-! ## Changing nothing but marks of the second phase -/

namespace Cycle

variable {c c' c'' : Cycle} {i j k : Nat} {b : Bool}

/-- No style changed, and no style was marked for the first phase. -/
structure Quiets (c c' : Cycle) : Prop where
  masks : c'.cells.map CycleCell.mask = c.cells.map CycleCell.mask
  marked : ∀ i, c'.Marked i false → c.Marked i false

theorem Quiets.refl (c : Cycle) : c.Quiets c := ⟨rfl, fun _ => id⟩

theorem Quiets.trans (h : c.Quiets c') (h' : c'.Quiets c'') : c.Quiets c'' :=
  ⟨h'.masks.trans h.masks, fun i hi => h.marked i (h'.marked i hi)⟩

theorem quiets_modifyCell (f : CycleCell → CycleCell) (hmask : ∀ cell, (f cell).mask = cell.mask)
    (hmarked : ∀ cell, (f cell).marked false = true → cell.marked false = true) (c : Cycle) (i : Nat) :
    c.Quiets (c.modifyCell i f) := by
  refine ⟨map_modify_of_eq fun cell _ => hmask cell, fun j hj => ?_⟩
  rw [marked_modifyCell] at hj
  split at hj
  · unfold Marked
    cases hcell : c.cells[j]? with
    | none =>
      rw [hcell] at hj
      cases hj
    | some cell =>
      rw [hcell] at hj
      exact hmarked cell hj
  · exact hj

theorem quiets_foldl (f : CycleCell → CycleCell) (hmask : ∀ cell, (f cell).mask = cell.mask)
    (hmarked : ∀ cell, (f cell).marked false = true → cell.marked false = true)
    (indices : List Nat) (c : Cycle) :
    c.Quiets (indices.foldl (fun c i => c.modifyCell i f) c) := by
  induction indices generalizing c with
  | nil => exact .refl c
  | cons i rest ih => exact (quiets_modifyCell f hmask hmarked c i).trans (ih _)

theorem quiets_storeMeasured (lists : Array (List Dependency)) (c : Cycle) (i : Nat) (s : Style)
    (measured : Measurement) : c.Quiets (storeMeasured lists c i s measured) := by
  unfold storeMeasured
  dsimp only
  split
  · have hstored : c.Quiets { c with template := c.template.setStyle i (s.storeContent measured).2 } :=
      ⟨rfl, fun _ => id⟩
    exact hstored.trans (quiets_foldl (fun cell => { cell with contentDirty := true })
      (fun _ => rfl) (fun _ => id) _ _)
  · exact ⟨rfl, fun _ => id⟩

theorem quiets_measureAll {measure : Style → Run (Option Measurement)} {indices : List Nat}
    {styles : List Style} {m m' : Machine}
    (h : c.measureAll measure indices m = (.ok (c', styles), m')) : c.Quiets c' := by
  induction indices generalizing c m styles with
  | nil =>
    cases h
    exact .refl _
  | cons i rest ih =>
    rcases measureAll_cons h with ⟨-, hrest⟩ | ⟨s, result, m₁, styles', -, -, hrest⟩
    · exact ih hrest
    · refine Quiets.trans ?_ (ih hrest)
      cases result with
      | none => exact .refl c
      | some measured => exact quiets_storeMeasured _ c i s measured

/-- Listeners are told of nothing if no style changed. -/
theorem announce_none {styles : List (StyleCell × CycleCell)}
    (h : ∀ x ∈ styles, x.2.mask = .none) (st : Store) : (announce styles st).1 = .none := by
  induction styles with
  | nil => rfl
  | cons x rest ih =>
    obtain ⟨hx, hrest⟩ := List.forall_mem_cons.1 h
    obtain ⟨s, cell⟩ := x
    have hcell : cell.mask = .none := hx
    have hstep : (announce ((s, cell) :: rest) st).1 = cell.mask ∪ (announce rest st).1 := by
      rw [announce, hcell]
      rfl
    rw [hstep, ih hrest, hcell]
    rfl

/-! ## Ranks -/

/-- Marked styles have at least this rank, and those of this rank their turn still to come. -/
def Ahead (c : Cycle) (rank : Nat → Nat) (b : Bool) (k turn : Nat) : Prop :=
  ∀ i, c.Marked i b → k ≤ rank i ∧ (rank i = k → turn ≤ i)

end Cycle

end Template

namespace Setup

open Template

variable {w : Setup} {t : Template} {m m' m₀ : Machine} {c c' : Cycle} {i j k : Nat} {b ran : Bool}

/-- A style reads another: it is told when that changes. -/
def StyleReads (w : Setup) (i j : Nat) : Prop := ∃ s, w.card.styleAt? j = some s ∧ w.Tells s i

theorem Session.styleReads (h : w.Session t m) {s : Style} (hs : t.styleAt? i = some s)
    (htells : w.Tells s j) : w.StyleReads j i := by
  obtain ⟨s₀, hs₀, hshape⟩ := h.sameShape.style hs
  have hdependents : s.dependents = s₀.dependents := congrArg (fun x => x.2.1) hshape
  refine ⟨s₀, hs₀, ?_⟩
  unfold Tells at htells ⊢
  rwa [← hdependents]

/-- No script of a style reads measured content. -/
def NoContent (w : Setup) : Prop := ∀ c ∈ w.card.styles, c.style.readsContent = false

instance (w : Setup) : Decidable w.NoContent :=
  inferInstanceAs (Decidable (∀ c ∈ w.card.styles, c.style.readsContent = false))

theorem NoContent.style (h : w.NoContent) (hsession : w.Session t m) {s : Style}
    (hs : t.styleAt? i = some s) : s.readsContent = false := by
  obtain ⟨s₀, hs₀, hshape⟩ := hsession.sameShape.style hs
  obtain ⟨c, hc, rfl⟩ := styleAt?_eq_some.1 hs₀
  rw [Style.readsContent_eq_of_shape hshape]
  exact h c (List.mem_of_getElem? hc)

/-- A visit to a style has the turn pass on. -/
theorem Visit.ahead {rank : Nat → Nat} (h : w.Visit b i c m c' ran m')
    (hrank : ∀ i j, w.StyleReads i j → rank j < rank i) (hsession : w.Session c.template m)
    (hahead : c.Ahead rank b k i) : c'.Ahead rank b k (i + 1) := by
  have hkept : ∀ j, c.Marked j b → i ≠ j → k ≤ rank j ∧ (rank j = k → i + 1 ≤ j) := by
    intro j hj hne
    obtain ⟨hle, hturn⟩ := hahead j hj
    exact ⟨hle, fun heq => Nat.lt_of_le_of_ne (hturn heq) hne⟩
  intro j hj
  cases h with
  | unmarked h =>
    refine hkept j hj ?_
    rintro rfl
    exact h hj
  | unread =>
    obtain ⟨hj, hne⟩ := Cycle.marked_clear.1 hj
    exact hkept j hj fun heq => hne ⟨heq, rfl⟩
  | ran h _ hrun =>
    rcases (hrun.marked j b).1 hj with ⟨hj, hne⟩ | ⟨-, htells, -⟩
    · exact hkept j hj fun heq => hne ⟨heq, rfl⟩
    · -- A style that is told ranks above the one that ran.
      have hlt := hrank j i (hsession.styleReads hrun.style htells)
      have hle := (hahead i h).1
      exact ⟨Nat.le_of_lt (Nat.lt_of_le_of_lt hle hlt),
        fun heq => absurd (heq ▸ hlt) (Nat.not_lt_of_le hle)⟩

/-- Where no script ran, no mark was added and that of the style is clear. -/
theorem Visit.clear (h : w.Visit b i c m c' false m') :
    ¬c'.Marked i b ∧ ∀ j, c'.Marked j b → c.Marked j b := by
  cases h with
  | unmarked h => exact ⟨h, fun _ => id⟩
  | unread =>
    exact ⟨fun h => (Cycle.marked_clear.1 h).2 ⟨rfl, rfl⟩, fun _ h => (Cycle.marked_clear.1 h).1⟩

/-- Nothing runs if no style is marked for the first phase and none has a script for the second. -/
theorem Visit.quiets (h : w.Visit b i c m c' ran m') (hsession : w.Session c.template m)
    (hcontent : w.NoContent) (hclear : ∀ j, ¬c.Marked j false) : c.Quiets c' := by
  cases h with
  | unmarked => exact .refl c
  | unread _ _ hb =>
    subst hb
    exact Cycle.quiets_modifyCell (·.clear true) (fun _ => rfl) (fun _ => id) c i
  | ran h hreads hrun =>
    cases b with
    | false => exact absurd h (hclear i)
    | true =>
      rw [hcontent.style hsession hrun.style] at hreads
      cases hreads rfl

namespace Underway

variable {visit : Cycle → Nat → Run (Cycle × Bool)}

theorem lt_of_marked (h : w.Underway m₀ c m) (hmarked : c.Marked i b) : i < w.card.styles.length := by
  rw [← h.session.sameShape.length_styles, ← h.length]
  exact hmarked.lt

/-- A sweep clears the marks of one more rank, and all of them if no style ran. -/
theorem sweep_ahead {rank : Nat → Nat} (h : w.Underway m₀ c m)
    (hr : w.usage.renders) (hpure : ∀ i p, w.PureProperty i p)
    (hrank : ∀ i j, w.StyleReads i j → rank j < rank i)
    (hvisits : w.Visits b visit) (hahead : c.Ahead rank b k 0)
    (hrun : Cycle.sweep visit c (List.range c.template.styles.length) m = (.ok (c', ran), m')) :
    (w.Underway m₀ c' m' ∧ c'.Ahead rank b (k + 1) 0) ∧ (ran = false → ∀ i, ¬c'.Marked i b) := by
  rw [List.range_eq_range'] at hrun
  obtain ⟨h', hahead', hclear⟩ := Cycle.sweep_keeps (b := false)
    (J := fun i ran c m => w.Underway m₀ c m ∧ c.Ahead rank b k i ∧
      (ran = false → ∀ j < i, ¬c.Marked j b))
    (fun {i ran₀ c m c' ran m'} hc hvisit => by
      obtain ⟨hc, hcahead, hcclear⟩ := hc
      have hv := hvisits hc.session hc.length hvisit
      refine ⟨hc.visit hr hpure hv, hv.ahead hrank hc.session hcahead, fun hran j hj => ?_⟩
      obtain ⟨hran₀, rfl⟩ := Bool.or_eq_false_iff.1 hran
      obtain ⟨hi, hle⟩ := hv.clear
      rcases Nat.lt_succ_iff_lt_or_eq.1 hj with hj | rfl
      · exact fun hmarked => hcclear hran₀ j hj (hle j hmarked)
      · exact hi)
    ⟨h, hahead, fun _ j hj => absurd hj (Nat.not_lt_zero j)⟩ hrun
  have hlt : ∀ i, c'.Marked i b → i < 0 + c.template.styles.length := fun i hi => by
    rw [Nat.zero_add, h.session.sameShape.length_styles]
    exact h'.lt_of_marked hi
  refine ⟨⟨h', fun i hi => ?_⟩, fun hran i hi => ?_⟩
  · obtain ⟨hle, hturn⟩ := hahead' i hi
    refine ⟨Nat.lt_of_le_of_ne hle fun heq => ?_, fun _ => Nat.zero_le i⟩
    exact absurd (hlt i hi) (Nat.not_lt_of_le (hturn heq.symm))
  · exact hclear hran i (hlt i hi) hi

/-- The sweeps of a phase clear all its marks. -/
theorem phase_clear (h : w.Underway m₀ c m) (hr : w.usage.renders)
    (hpure : ∀ i p, w.PureProperty i p) (hacyclic : Acyclic w.StyleReads)
    (hvisits : w.Visits b visit) (hrun : Cycle.phase visit c m = (.ok c', m')) :
    ∀ i, ¬c'.Marked i b := by
  obtain ⟨rank, hrank, hbound⟩ := hacyclic.exists_rank (n := w.card.styles.length)
    fun i j ⟨s, hs, _⟩ => lt_of_styleAt? hs
  obtain ⟨k, ⟨h', hahead⟩, hk | hclear⟩ := Cycle.sweeps_cases (k := 0)
    (J := fun k c m => w.Underway m₀ c m ∧ c.Ahead rank b k 0) (E := fun c _ => ∀ i, ¬c.Marked i b)
    (fun hc hsweep => hc.1.sweep_ahead hr hpure hrank hvisits hc.2 hsweep)
    ⟨h, fun i _ => ⟨Nat.zero_le _, fun _ => Nat.zero_le i⟩⟩ hrun
  · intro i hi
    have hle := (hahead i hi).1
    rw [hk, Nat.zero_add, h.session.sameShape.length_styles] at hle
    exact absurd (hbound i (h'.lt_of_marked hi)) (Nat.not_lt_of_le hle)
  · exact hclear

theorem sweeps_quiets (h : w.Underway m₀ c m) (hr : w.usage.renders)
    (hpure : ∀ i p, w.PureProperty i p) (hcontent : w.NoContent)
    (hclear : ∀ i, ¬c.Marked i false) (hvisits : w.Visits b visit) {n : Nat}
    (hrun : Cycle.sweeps visit n c m = (.ok c', m')) : c.Quiets c' := by
  obtain ⟨-, hquiets⟩ := Cycle.sweeps_keeps
    (J := fun c' m => w.Underway m₀ c' m ∧ c.Quiets c')
    (fun ⟨hc, hquiets⟩ hvisit => by
      have hv := hvisits hc.session hc.length hvisit
      exact ⟨hc.visit hr hpure hv, hquiets.trans (hv.quiets hc.session hcontent fun j hj =>
        hclear j (hquiets.marked j hj))⟩)
    ⟨h, .refl c⟩ hrun
  exact hquiets

end Underway

/-! ## One cycle is enough -/

section Settle

variable {measure : Style → Run (Option Measurement)} {rendered : Rendered}

/-- Without scripted fields, a round changes nothing. -/
theorem refreshFields_unscripted (hfields : ∀ i, ¬w.Scripted i) {t' : Template}
    {changed : List String} (hsession : w.Session t m)
    (hrun : t.refreshFields w.budget m = (.ok (t', changed), m')) : t'.styles = t.styles :=
  (refreshFields_unchanged (fun i => fieldUpToDate_of_unscripted t (hfields i)) hsession hrun).2.2

/-- A cycle leaves no style dirty. -/
theorem Clean.render_clear (h : w.Clean t) (hr : w.usage.renders)
    (hpure : ∀ i p, w.PureProperty i p) (hcontent : w.NoContent)
    (hacyclic : Acyclic w.StyleReads) (hsession : w.Session t m) (hmeasure : w.Measures measure)
    (hrun : t.render w.budget measure m = (.ok rendered, m')) (i : Nat) :
    ¬rendered.template.Dirty i := by
  obtain ⟨t₁, changed, m₁, c₁, m₂, c₂, measured, m₃, c₃, m₄, hfields, hfirst, hall, hsecond,
    rfl, -⟩ := render_cases hrun
  obtain ⟨hsession₁, h₁⟩ := h.refreshFields hpure hsession hfields
  have hstart := h₁.underway hsession₁
  have hsettled := hstart.sweeps hr hpure (visits_structure hr) hfirst
  have hclear := hstart.phase_clear hr hpure hacyclic (visits_structure hr) hfirst
  have hmeasured := hsettled.measureAll hr hpure hmeasure hall
  have hclear' : ∀ i, ¬c₂.Marked i false := fun i hi =>
    hclear i ((Cycle.quiets_measureAll hall).marked i hi)
  have hquiets := hmeasured.sweeps_quiets hr hpure hcontent hclear' (visits_content hr) hsecond
  have hend := hmeasured.sweeps hr hpure (visits_content hr) hsecond
  rw [Cycle.dirty_carryOver hend.length]
  rintro ⟨_ | _, hmarked⟩
  · exact hclear' i (hquiets.marked i hmarked)
  · exact hmeasured.phase_clear hr hpure hacyclic (visits_content hr) hsecond i hmarked

/-- A cycle that begins with no style dirty changes no style. -/
theorem Clean.render_none (h : w.Clean t) (hr : w.usage.renders)
    (hpure : ∀ i p, w.PureProperty i p) (hfields : ∀ i, ¬w.Scripted i)
    (hcontent : w.NoContent) (hsession : w.Session t m) (hmeasure : w.Measures measure)
    (hclean : ∀ i, ¬t.Dirty i) (hrun : t.render w.budget measure m = (.ok rendered, m')) :
    rendered.changes = .none := by
  obtain ⟨t₁, changed, m₁, c₁, m₂, c₂, measured, m₃, c₃, m₄, hrefresh, hfirst, hall, hsecond,
    rfl, -⟩ := render_cases hrun
  obtain ⟨hsession₁, h₁⟩ := h.refreshFields hpure hsession hrefresh
  have hstyles := refreshFields_unscripted hfields hsession hrefresh
  have hstart := h₁.underway hsession₁
  have hclear₀ : ∀ i, ¬(Cycle.start t₁).Marked i false := by
    intro i hi
    have hdirty := (Cycle.marked_start t₁).1 hi
    unfold Dirty at hdirty
    rw [hstyles] at hdirty
    exact hclean i hdirty
  have hquiets₁ := hstart.sweeps_quiets hr hpure hcontent hclear₀ (visits_structure hr) hfirst
  have hquiets₂ := hquiets₁.trans (Cycle.quiets_measureAll hall)
  have hmeasured := (hstart.sweeps hr hpure (visits_structure hr) hfirst).measureAll hr hpure
    hmeasure hall
  have hquiets := hquiets₂.trans (hmeasured.sweeps_quiets hr hpure hcontent
    (fun i hi => hclear₀ i (hquiets₂.marked i hi)) (visits_content hr) hsecond)
  refine Cycle.announce_none (fun x hx => ?_) _
  have hmem : x.2.mask ∈ c₃.cells.map CycleCell.mask :=
    List.mem_map_of_mem (List.of_mem_zip hx).2
  rw [hquiets.masks] at hmem
  obtain ⟨cell, hcell, hmask⟩ := List.mem_map.1 hmem
  obtain ⟨_, -, rfl⟩ := List.mem_map.1 hcell
  exact hmask.symm

/-- **One cycle settles acyclic styles.** On a linked card without scripted fields and without scripts
that read measured content, whose styles read each other in no circle, after any calls one cycle brings
every property up to date and leaves no style dirty, and the next changes nothing. -/
theorem styles_settle {t₀ : Template} {m₀ : Machine}
    (hlink : t₀.link w.budget m₀ = (.ok (w.card, none), w.machine))
    (hr : w.usage.renders) (hpure : ∀ i p, w.PureProperty i p)
    (hreturns : w.Returns) (hfields : ∀ i, ¬w.Scripted i)
    (hcontent : w.NoContent) (hacyclic : Acyclic w.StyleReads) {calls : List Call}
    (hcalls : ∀ call ∈ calls, w.Allows call)
    (hrun : w.card.runCalls w.budget calls w.machine = (.ok t, m)) (hmeasure : w.Measures measure) :
    ∃ rendered m', t.render w.budget measure m = (.ok rendered, m') ∧
      (∀ i p, w.PropertyUpToDate rendered.template i p) ∧
      (∀ c ∈ rendered.template.styles, c.dirty = false) ∧
      ∀ measure', w.Measures measure' → ∃ rendered' m'',
        rendered.template.render w.budget measure' m' = (.ok rendered', m'') ∧
          rendered'.changes = .none := by
  have hstart : w.Clean w.card := fun j s q hs hclear => absurd (dirty_of_link hlink hs) hclear
  obtain ⟨hsession, h⟩ := hstart.calls hpure .start hcalls hrun
  obtain ⟨rendered, m', hrender⟩ := h.render_returns hr hpure hsession hmeasure hreturns
  obtain ⟨hsession', h'⟩ := h.render hr hpure hsession hmeasure hrender
  have hclear := h.render_clear hr hpure hcontent hacyclic hsession hmeasure hrender
  refine ⟨rendered, m', hrender, fun i p => ?_, fun c hc => ?_, fun measure' hmeasure' => ?_⟩
  · intro m₁ s hsession₁ hshown₁ hs
    exact h' hs (hclear i) hsession₁ hshown₁ hs
  · obtain ⟨i, hi⟩ := List.mem_iff_getElem?.1 hc
    refine Bool.eq_false_iff.2 fun hdirty => hclear i ?_
    unfold Dirty
    rw [hi]
    exact hdirty
  · obtain ⟨rendered', m'', hrender'⟩ :=
      h'.render_returns hr hpure hsession' hmeasure' hreturns
    exact ⟨rendered', m'', hrender',
      h'.render_none hr hpure hfields hcontent hsession' hmeasure' hclear hrender'⟩

theorem styles_settle_shade :
    ∃ rendered m, shadeSetup.card.render shadeSetup.budget (fun _ => return some ⟨40, 20, 1⟩)
        shadeSetup.machine = (.ok rendered, m) ∧
      (∀ i p, shadeSetup.PropertyUpToDate rendered.template i p) ∧
      (∀ c ∈ rendered.template.styles, c.dirty = false) ∧
      ∀ measure, shadeSetup.Measures measure → ∃ rendered' m',
        rendered.template.render shadeSetup.budget measure m = (.ok rendered', m') ∧
          rendered'.changes = .none := by
  refine styles_settle link_shade trivial decided_shade.pureProperty
    decided_shade.returns ?_ (by decide +kernel) (acyclic_of_lt ?_) (List.forall_mem_nil _) rfl
    (measures_const fun _ _ => trivial)
  · rintro i ⟨c, hc, hscripted⟩
    rw [(owner_link link_shade).1] at hc
    obtain _ | i := i
    · cases hc
      cases hscripted
    · cases hc
  · -- Only the shade reads a style, the frame.
    rintro i j ⟨s, hs, htells⟩
    obtain ⟨s₀, hs₀, howner⟩ := exists_owner (owner_link link_shade).2.2 hs
    have hdependents : s.dependents = s₀.dependents := congrArg (fun x => x.2.1) howner
    unfold Tells at htells
    rw [lists_shade, hdependents] at htells
    obtain _ | _ | j := j
    · cases hs₀
      cases htells
    · cases hs₀
      rw [show i = 0 from congrArg Dependency.index (List.mem_singleton.1 htells)]
      exact Nat.zero_lt_one
    · cases hs₀

end Settle

end Setup

end ReactiveScript
