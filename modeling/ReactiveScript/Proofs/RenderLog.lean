import ReactiveScript.Proofs.Rendering
import ReactiveScript.Proofs.RoundLog
import ReactiveScript.Proofs.Watched

/-
  What is seen of a render cycle.

  Each evaluation says what is seen of it whatever the machine is, and what is seen if it comes to a
  value (`Emits`). Before the styles are measured, and after that, only the scripts of one kind are
  evaluated (`Evaluates`). Throughout a cycle the cells hold the flags of all properties replaced so far
  (`Tracks`): this is kept by every visit, every sweep and every measurement, so in the end listeners
  are told of just these (`Template.render_protocol`).
-/

namespace ReactiveScript

/-! ## Replaced properties -/

/-- The flags of properties together. -/
def Property.flags (ps : List Property) : Changes := ps.foldr (fun p mask => p.flag ∪ mask) .none

theorem Property.flags_append (ps qs : List Property) : flags (ps ++ qs) = flags ps ∪ flags qs := by
  induction ps with
  | nil => exact (Changes.none_union _).symm
  | cons p rest ih =>
    show p.flag ∪ flags (rest ++ qs) = p.flag ∪ flags rest ∪ flags qs
    rw [ih, Changes.union_assoc]

theorem Property.isEmpty_flags (ps : List Property) : (flags ps).isEmpty = ps.isEmpty := by
  cases ps with
  | nil => rfl
  | cons p rest =>
    show (p.flag ∪ flags rest).isEmpty = false
    rw [Changes.isEmpty_union, p.isEmpty_flag]
    rfl

/-- The property of the style at an index in which an event stores another value. -/
def RenderEvent.replaced? (i : Nat) : RenderEvent → Option Property
  | .evaluated j p true => if j = i then some p else none
  | _ => none

/-- The properties of the style at an index in which events store another value, each as often as
they do. -/
def replacedIn (i : Nat) (events : List RenderEvent) : List Property :=
  events.filterMap (RenderEvent.replaced? i)

theorem replacedIn_append (i : Nat) (es es' : List RenderEvent) :
    replacedIn i (es ++ es') = replacedIn i es ++ replacedIn i es' := List.filterMap_append ..

/-- What updates leave of a style, of which they replaced some properties. -/
structure Style.Kept (replaced : List Property) (s s' : Style) : Prop where
  listeners : s'.listeners = s.listeners
  script : ∀ p, (Property.get s' p).script = (Property.get s p).script
  readsContent : ∀ p, (Property.get s' p).readsContent = (Property.get s p).readsContent
  same : ∀ p, p ∉ replaced → Property.get s' p = Property.get s p

namespace Style.Kept

variable {s s' s'' : Style} {ps qs : List Property}

theorem refl (s : Style) : s.Kept [] s := ⟨rfl, fun _ => rfl, fun _ => rfl, fun _ _ => rfl⟩

theorem trans (h : s.Kept ps s') (h' : s'.Kept qs s'') : s.Kept (ps ++ qs) s'' where
  listeners := h'.listeners.trans h.listeners
  script p := (h'.script p).trans (h.script p)
  readsContent p := (h'.readsContent p).trans (h.readsContent p)
  same p hp := by
    obtain ⟨hps, hqs⟩ := not_or.1 (mt List.mem_append.2 hp)
    exact (h'.same p hqs).trans (h.same p hps)

end Style.Kept

/-- Storing a measurement leaves all properties as they are. -/
theorem Style.kept_storeContent (s : Style) (measured : Measurement) :
    s.Kept [] (s.storeContent measured).2 := by
  have hget := s.get_storeContent measured
  refine ⟨?_, fun p => by rw [hget], fun p => by rw [hget], fun p _ => hget p⟩
  unfold storeContent
  split <;> rfl

namespace Watched

open Template

variable {α β : Type}

/-! ## What is seen whatever the machine is -/

/-- `A` holds of the events that are seen, and `B` of them and the value, if it comes to one. -/
def Emits (A : List RenderEvent → Prop) (B : α → List RenderEvent → Prop) (x : Watched α) : Prop :=
  ∀ m, A (x.events m) ∧ ∀ a m', x.run m = (.ok a, m') → B a (x.events m)

variable {A A' : List RenderEvent → Prop} {B : α → List RenderEvent → Prop}
  {B' : β → List RenderEvent → Prop}

theorem events_bind (x : Watched α) (f : α → Watched β) (m : Machine) :
    (x >>= f).events m = x.events m ++ match x.run m with
      | (.ok a, m') => (f a).events m'
      | (.error _, _) => [] := rfl

/-- A sequence shows what its parts show; if it stops early it shows what its first part did. -/
theorem Emits.bind {x : Watched α} {f : α → Watched β} (hx : Emits A B x) (hstop : ∀ es, A es → A' es)
    (hf : ∀ a es, A es → B a es →
      Emits (fun es' => A' (es ++ es')) (fun b es' => B' b (es ++ es')) (f a)) :
    Emits A' B' (x >>= f) := by
  intro m
  obtain ⟨hA, hB⟩ := hx m
  rw [events_bind, run_bind]
  rcases hrun : x.run m with ⟨stop | a, m₁⟩
  · rw [List.append_nil, Run.run_bind_error hrun]
    exact ⟨hstop _ hA, fun _ _ h => by cases h⟩
  · rw [Run.run_bind_ok hrun]
    exact hf a _ hA (hB a m₁ hrun) m₁

theorem emits_pure {a : α} (hA : A []) (hB : B a []) : Emits A B (pure a) := by
  refine fun m => ⟨hA, fun b m' h => ?_⟩
  cases h
  exact hB

theorem emits_quiet {x : Run α} (hA : A []) (hB : ∀ a m m', x m = (.ok a, m') → B a []) :
    Emits A B (quiet x) := fun m => ⟨hA, fun a m' h => hB a m m' h⟩

theorem emits_seen {event : Option α → RenderEvent} {x : Run α} (hA : ∀ out, A [event out])
    (hB : ∀ a m m', x m = (.ok a, m') → B a [event (some a)]) : Emits A B (seen event x) := by
  refine fun m => ⟨hA _, fun a m' h => ?_⟩
  have hevents : (seen event x).events m = [event (some a)] := by
    show [event (x m).1.toOption] = _
    rw [show x m = (.ok a, m') from h]
    rfl
  rw [hevents]
  exact hB a m m' h

theorem Emits.mono {A₀ : List RenderEvent → Prop} {B₀ : α → List RenderEvent → Prop} {x : Watched α}
    (h : Emits A₀ B₀ x) (hA : ∀ es, A₀ es → A es) (hB : ∀ a es, A₀ es → B₀ a es → B a es) :
    Emits A B x :=
  fun m => ⟨hA _ (h m).1, fun a m' hrun => hB a _ (h m).1 ((h m).2 a m' hrun)⟩

theorem Emits.inScope {x : Watched α} (h : Emits A B x) : Emits A B (inScope x) := by
  refine fun m => ⟨(h _).1, fun a m' hrun => ?_⟩
  obtain ⟨m₁, hinner, -⟩ := Run.run_inScope_eq_ok hrun
  exact (h _).2 a m₁ hinner

/-! ## One style -/

variable {budget : Nat} {content : Bool} {s : Style} {i : Nat}

/-- The script of the property is one of those that read measured content, or that do not. -/
def InPhase (content : Bool) (s : Style) (p : Property) : Prop :=
  (Property.get s p).isScripted = true ∧ (Property.get s p).readsContent = content

/-- Scripts of the style of one kind are evaluated, and nothing else is seen. -/
def EvaluatesStyle (content : Bool) (i : Nat) (s : Style) (events : List RenderEvent) : Prop :=
  ∀ e ∈ events, ∃ p replaced, e = .evaluated i p replaced ∧ InPhase content s p

/-- What an update makes of a style: the flags of what it replaced are added. -/
structure Updates (i : Nat) (r : Changes × Style) (r' : Changes × Style) (events : List RenderEvent) :
    Prop where
  flags : r'.1 = r.1 ∪ Property.flags (replacedIn i events)
  kept : r.2.Kept (replacedIn i events) r'.2

theorem Updates.refl (i : Nat) (r : Changes × Style) : Updates i r r [] :=
  ⟨(Changes.union_none _).symm, .refl _⟩

theorem Updates.trans {r r' r'' : Changes × Style} {es es' : List RenderEvent}
    (h : Updates i r r' es) (h' : Updates i r' r'' es') : Updates i r r'' (es ++ es') := by
  constructor
  · rw [h'.flags, h.flags, replacedIn_append, Property.flags_append, Changes.union_assoc]
  · rw [replacedIn_append]
    exact h.kept.trans h'.kept

/-- Putting in what the update of a property gave. -/
theorem kept_put {p : Property} {c : Computed p.Carrier} {m : Machine} {changed : Bool}
    (h : Computed.Updated budget m (Property.get s p) (changed, c)) :
    s.Kept (if changed then [p] else []) (Property.put s p c) := by
  have hframe := s.sameFrame_put p c
  have hother : ∀ q, p ≠ q → Property.get (Property.put s p c) q = Property.get s q :=
    fun q hpq => Property.get_put_of_ne s hpq c
  refine ⟨hframe.listeners, fun q => ?_, fun q => ?_, fun q hq => ?_⟩
  · by_cases hpq : p = q
    · subst hpq
      rw [Property.get_put_self, h.fixes.1]
    · rw [hother q hpq]
  · by_cases hpq : p = q
    · subst hpq
      rw [Property.get_put_self, h.fixes.2]
    · rw [hother q hpq]
  · by_cases hpq : p = q
    · subst hpq
      rw [Property.get_put_self]
      cases changed with
      | true => exact absurd (List.mem_singleton.2 rfl) hq
      | false => exact h.eq_of_unchanged
    · exact hother q hpq

theorem emits_updateProperty (r : Changes × Style) (style : String) (p : Property) :
    Emits (EvaluatesStyle content i r.2) (Updates i r)
      (updateProperty budget i content style r p) := by
  unfold updateProperty
  by_cases hskip : (!(Property.get r.2 p).isScripted ||
      (Property.get r.2 p).readsContent != content) = true
  · simp only [if_pos hskip]
    exact emits_pure (fun _ h => by cases h) (.refl i r)
  · simp only [if_neg hskip]
    have hphase : InPhase content r.2 p := by simpa [InPhase] using hskip
    have hseen : ∀ replaced, EvaluatesStyle content i r.2 [.evaluated i p replaced] :=
      fun replaced => List.forall_mem_singleton.2 ⟨p, replaced, rfl, hphase⟩
    refine Emits.bind (A := EvaluatesStyle content i r.2) (B := fun out es =>
      es = [.evaluated i p out.1] ∧ ∃ m, Computed.Updated budget m (Property.get r.2 p) out)
      (emits_seen (fun out => hseen _) fun out m m' h => ⟨rfl, m, ?_⟩) (fun _ h => h) ?_
    · have hruns : ∀ s, (Property.get r.2 p).script = some s → True := fun _ _ => trivial
      exact (Style.updateProperty_updated hruns h).2
    · rintro ⟨changed, c⟩ es - ⟨rfl, m, hu⟩
      have hreplaced : replacedIn i [.evaluated i p changed] = if changed then [p] else [] := by
        cases changed <;> simp [replacedIn, RenderEvent.replaced?]
      refine emits_pure (hseen changed) ⟨?_, ?_⟩
      · rw [List.append_nil, hreplaced]
        cases changed with
        | true => exact congrArg (r.1 ∪ ·) (Changes.union_none _).symm
        | false => exact (Changes.union_none _).symm
      · rw [List.append_nil, hreplaced]
        exact kept_put hu

theorem InPhase.of_kept {s' : Style} {ps : List Property} {p : Property} (h : InPhase content s' p)
    (hs : s.Kept ps s') : InPhase content s p := by
  unfold InPhase Computed.isScripted at h ⊢
  rw [hs.script, hs.readsContent] at h
  exact h

theorem emits_update (s : Style) :
    Emits (EvaluatesStyle content i s) (Updates i (.none, s)) (update budget i s content) := by
  have hfold : ∀ (ps : List Property) (r : Changes × Style),
      Emits (EvaluatesStyle content i r.2) (Updates i r)
        (ps.foldlM (updateProperty budget i content s.name) r) := by
    intro ps
    induction ps with
    | nil => exact fun r => emits_pure (fun _ h => by cases h) (.refl i r)
    | cons p rest ih =>
      intro r
      rw [List.foldlM_cons]
      refine (emits_updateProperty r s.name p).bind (fun _ h => h) fun r' es hes hr => ?_
      refine (ih r').mono (fun es' hes' => ?_) fun r'' es' _ hr' => hr.trans hr'
      refine List.forall_mem_append.2 ⟨hes, fun e he => ?_⟩
      obtain ⟨q, replaced, rfl, hq⟩ := hes' e he
      exact ⟨q, replaced, rfl, hq.of_kept hr.kept⟩
  exact hfold Property.all (.none, s)

theorem replacedIn_of_ne {j : Nat} {es : List RenderEvent} (h : EvaluatesStyle content i s es)
    (hj : i ≠ j) : replacedIn j es = [] := by
  refine List.filterMap_eq_nil_iff.2 fun e he => ?_
  obtain ⟨p, replaced, rfl, -⟩ := h e he
  cases replaced with
  | true => exact if_neg hj
  | false => rfl

/-! ## Cycles on track -/

/-- Scripts of one kind are evaluated, and nothing else is seen. -/
def Evaluates (t : Template) (content : Bool) (events : List RenderEvent) : Prop :=
  ∀ e ∈ events, ∃ i s p replaced, e = .evaluated i p replaced ∧ t.styleAt? i = some s ∧
    InPhase content s p

/-- After events, the cells of a cycle hold the flags of all properties that were replaced, and its
styles are those of the card but for these properties. -/
structure Tracks (t : Template) (events : List RenderEvent) (c : Cycle) : Prop where
  length : c.template.styles.length = t.styles.length
  cells : c.cells.length = t.styles.length
  masks : ∀ i cell, c.cells[i]? = some cell → cell.mask = Property.flags (replacedIn i events)
  styles : ∀ i s', c.template.styleAt? i = some s' →
    ∃ s, t.styleAt? i = some s ∧ s.Kept (replacedIn i events) s'

variable {t : Template} {c : Cycle} {es : List RenderEvent}

theorem exists_of_modifyCell {f : CycleCell → CycleCell} {i j : Nat} {cell' : CycleCell}
    (h : (c.modifyCell i f).cells[j]? = some cell') :
    ∃ cell, c.cells[j]? = some cell ∧ cell' = if i = j then f cell else cell := by
  unfold Cycle.modifyCell at h
  rw [List.getElem?_modify] at h
  obtain ⟨cell, hcell, he⟩ := Option.map_eq_some_iff.1 h
  exact ⟨cell, hcell, he.symm⟩

theorem Tracks.modifyCell (h : Tracks t es c) {f : CycleCell → CycleCell}
    (hf : ∀ cell, (f cell).mask = cell.mask) (i : Nat) : Tracks t es (c.modifyCell i f) := by
  refine ⟨h.length, (Cycle.length_modifyCell c i f).trans h.cells, fun j cell hcell => ?_, h.styles⟩
  obtain ⟨cell₀, hcell₀, rfl⟩ := exists_of_modifyCell hcell
  by_cases hij : i = j
  · rw [if_pos hij]
    exact (hf cell₀).trans (h.masks j cell₀ hcell₀)
  · rw [if_neg hij]
    exact h.masks j cell₀ hcell₀

theorem Tracks.foldl (h : Tracks t es c) {f : CycleCell → CycleCell}
    (hf : ∀ cell, (f cell).mask = cell.mask) (indices : List Nat) :
    Tracks t es (indices.foldl (fun c i => c.modifyCell i f) c) := by
  induction indices generalizing c with
  | nil => exact h
  | cons i rest ih => exact ih (h.modifyCell hf i)

/-- A style was replaced by what an update made of it, and the flags of that joined those of its
cell. -/
theorem Tracks.setStyle {c' : Cycle} {es' : List RenderEvent} {s' : Style} (h : Tracks t es c)
    (hs : c.template.styleAt? i = some s) (hes : ∀ j, i ≠ j → replacedIn j es' = [])
    (hkept : s.Kept (replacedIn i es') s') (htemplate : c'.template = c.template.setStyle i s')
    (hlength : c'.cells.length = c.cells.length)
    (hmasks : ∀ j cell', c'.cells[j]? = some cell' → ∃ cell, c.cells[j]? = some cell ∧
      cell'.mask = cell.mask ∪ Property.flags (replacedIn j es')) : Tracks t (es ++ es') c' := by
  refine ⟨?_, hlength.trans h.cells, fun j cell' hcell' => ?_, fun j s'' hs'' => ?_⟩
  · rw [htemplate]
    exact (List.length_modify ..).trans h.length
  · obtain ⟨cell, hcell, hmask⟩ := hmasks j cell' hcell'
    rw [hmask, h.masks j cell hcell, replacedIn_append, Property.flags_append]
  · rw [htemplate, styleAt?_setStyle] at hs''
    rw [replacedIn_append]
    by_cases hij : i = j
    · subst hij
      rw [if_pos rfl, hs] at hs''
      cases hs''
      obtain ⟨s₀, hs₀, hkept₀⟩ := h.styles i s hs
      exact ⟨s₀, hs₀, hkept₀.trans hkept⟩
    · rw [if_neg hij] at hs''
      rw [hes j hij, List.append_nil]
      exact h.styles j s'' hs''

/-- An update of a style joins its flags to those of the cell. -/
theorem Tracks.update {c' : Cycle} {es' : List RenderEvent} {r : Changes × Style}
    (h : Tracks t es c) (hs : c.template.styleAt? i = some s) (hes : EvaluatesStyle content i s es')
    (hr : Updates i (.none, s) r es') (htemplate : c'.template = c.template.setStyle i r.2)
    (hlength : c'.cells.length = c.cells.length)
    (hmasks : ∀ j cell', c'.cells[j]? = some cell' → ∃ cell, c.cells[j]? = some cell ∧
      cell'.mask = cell.mask ∪ if i = j then r.1 else .none) : Tracks t (es ++ es') c' := by
  have hother : ∀ j, i ≠ j → replacedIn j es' = [] := fun j hj => replacedIn_of_ne hes hj
  refine h.setStyle hs hother hr.kept htemplate hlength fun j cell' hcell' => ?_
  obtain ⟨cell, hcell, hmask⟩ := hmasks j cell' hcell'
  refine ⟨cell, hcell, hmask.trans (congrArg (cell.mask ∪ ·) ?_)⟩
  by_cases hij : i = j
  · subst hij
    rw [if_pos rfl, hr.flags, Changes.none_union]
  · rw [if_neg hij, hother j hij]
    rfl

theorem emits_runStyle (h : Tracks t es c) (i : Nat) :
    Emits (Evaluates t content) (fun c' es' => Tracks t (es ++ es') c')
      (runStyle budget content c i) := by
  have hnone : Evaluates t content [] := fun _ he => by cases he
  unfold runStyle
  cases hs : c.template.styleAt? i with
  | none =>
    refine emits_pure hnone ?_
    rwa [List.append_nil]
  | some s =>
    dsimp only
    refine Emits.bind (A := (· = [])) (B := fun _ es => es = []) (emits_quiet rfl fun _ _ _ _ => rfl)
      (fun _ he => he ▸ hnone) ?_
    rintro u _ - rfl
    obtain ⟨s₀, hs₀, hkept₀⟩ := h.styles i s hs
    have hevaluates : ∀ es', EvaluatesStyle content i s es' → Evaluates t content es' := by
      intro es' hes' e he
      obtain ⟨p, replaced, rfl, hp⟩ := hes' e he
      exact ⟨i, s₀, p, replaced, rfl, hs₀, hp.of_kept hkept₀⟩
    refine (emits_update s).bind hevaluates fun r es' hes' hr => ?_
    have hall := hevaluates es' hes'
    by_cases hmask : r.1.isEmpty = true
    -- Without flags there is nothing to join to the cell.
    · rw [if_pos hmask]
      refine emits_pure ((List.append_nil _).symm ▸ hall) ?_
      rw [List.nil_append, List.append_nil]
      refine h.update hs hes' hr rfl rfl fun j cell hcell => ⟨cell, hcell, ?_⟩
      rw [beq_iff_eq.1 hmask, ite_self]
      exact (Changes.union_none _).symm
    · rw [if_neg hmask]
      refine Emits.bind (A := (· = [])) (B := fun _ es => es = [])
        (emits_quiet rfl fun _ _ _ _ => rfl) (fun _ he => ?_) ?_
      · rw [he, List.append_nil]
        exact hall
      · rintro readers _ - rfl
        refine emits_pure ((List.append_nil _).symm ▸ hall) (Tracks.foldl
          (f := fun cell => { cell with structureDirty := true, contentDirty := true }) ?_
          (fun _ => rfl) readers)
        rw [List.nil_append, List.append_nil, List.append_nil]
        refine h.update hs hes' hr rfl (Cycle.length_modifyCell ..) fun j cell' hcell' => ?_
        obtain ⟨cell, hcell, rfl⟩ := exists_of_modifyCell hcell'
        refine ⟨cell, hcell, ?_⟩
        by_cases hij : i = j
        · rw [if_pos hij, if_pos hij]
        · rw [if_neg hij, if_neg hij]
          exact (Changes.union_none _).symm

/-! ## Phases -/

/-- Visits that evaluate scripts of one kind and keep the cycle on track. -/
def Visits (t : Template) (content : Bool) (visit : Cycle → Nat → Watched (Cycle × Bool)) : Prop :=
  ∀ ⦃c es⦄ i, Tracks t es c →
    Emits (Evaluates t content) (fun r es' => Tracks t (es ++ es') r.1) (visit c i)

/-- A visit in which nothing runs. -/
theorem emits_idle {ran : Bool} (h : Tracks t es c) :
    Emits (Evaluates t content) (fun r es' => Tracks t (es ++ es') r.1)
      (pure (c, ran) : Watched (Cycle × Bool)) := by
  refine emits_pure (fun _ he => by cases he) ?_
  rwa [List.append_nil]

/-- A visit in which the style ran. -/
theorem emits_ran (h : Tracks t es c) (i : Nat) :
    Emits (Evaluates t content) (fun r es' => Tracks t (es ++ es') r.1)
      (do return (← runStyle budget content c i, true) : Watched (Cycle × Bool)) := by
  refine (emits_runStyle h i).bind (fun _ he => he) fun c' es' hes' hc' => ?_
  refine emits_pure ?_ ?_
  · rwa [List.append_nil]
  · rwa [List.append_nil]

theorem visits_structure : Visits t false (visitStructure budget) := by
  intro c es i h
  unfold visitStructure
  cases c.cells[i]? with
  | none => exact emits_idle h
  | some cell =>
    dsimp only
    split
    · exact emits_ran (h.modifyCell (f := (·.clear false)) (fun _ => rfl) i) i
    · exact emits_idle h

theorem visits_content : Visits t true (visitContent budget) := by
  intro c es i h
  unfold visitContent
  split
  · split
    · dsimp only
      split
      · exact emits_ran (h.modifyCell (f := (·.clear true)) (fun _ => rfl) i) i
      · exact emits_idle (h.modifyCell (f := (·.clear true)) (fun _ => rfl) i)
    · exact emits_idle h
  · exact emits_idle h

variable {visit : Cycle → Nat → Watched (Cycle × Bool)}

theorem emits_sweep (hvisit : Visits t content visit) (h : Tracks t es c) (indices : List Nat) :
    Emits (Evaluates t content) (fun r es' => Tracks t (es ++ es') r.1) (sweep visit c indices) := by
  induction indices generalizing c es with
  | nil => exact emits_idle h
  | cons i rest ih =>
    refine (hvisit i h).bind (fun _ he => he) fun r es₁ hes₁ hr => ?_
    refine (ih hr).bind (fun es₂ hes₂ => List.forall_mem_append.2 ⟨hes₁, hes₂⟩) fun r' es₂ hes₂ hr' => ?_
    refine emits_pure ?_ ?_
    · rw [List.append_nil]
      exact List.forall_mem_append.2 ⟨hes₁, hes₂⟩
    · rwa [List.append_nil, ← List.append_assoc]

theorem emits_sweeps (hvisit : Visits t content visit) (h : Tracks t es c) (tries : Nat) :
    Emits (Evaluates t content) (fun c' es' => Tracks t (es ++ es') c') (sweeps visit tries c) := by
  induction tries generalizing c es with
  | zero =>
    refine emits_pure (fun _ he => by cases he) ?_
    rwa [List.append_nil]
  | succ tries ih =>
    refine (emits_sweep hvisit h _).bind (fun _ he => he) fun r es₁ hes₁ hr => ?_
    dsimp only
    split
    · refine (ih hr).mono (fun es₂ hes₂ => List.forall_mem_append.2 ⟨hes₁, hes₂⟩) fun c' es₂ _ hc' => ?_
      rwa [← List.append_assoc]
    · refine emits_pure ?_ ?_
      · rwa [List.append_nil]
      · rwa [List.append_nil]

/-! ## Measuring -/

theorem Tracks.congr {es' : List RenderEvent} (h : Tracks t es c)
    (hes : ∀ i, replacedIn i es' = replacedIn i es) : Tracks t es' c := by
  refine ⟨h.length, h.cells, fun i cell hcell => ?_, fun i s' hs' => ?_⟩
  · rw [hes]
    exact h.masks i cell hcell
  · rw [hes]
    exact h.styles i s' hs'

theorem tracks_storeMeasured {c' : Cycle} {result : Option Measurement} {m m' : Machine}
    (h : Tracks t es c) (hs : c.template.styleAt? i = some s)
    (hrun : storeMeasured c i s result m = (.ok c', m')) : Tracks t es c' := by
  cases result with
  | none =>
    cases hrun
    exact h
  | some measured =>
    have hstored : Tracks t (es ++ []) ⟨c.template.setStyle i (s.storeContent measured).2, c.cells⟩ :=
      h.setStyle hs (fun _ _ => rfl) (s.kept_storeContent measured) rfl rfl fun j cell hcell =>
        ⟨cell, hcell, (Changes.union_none _).symm⟩
    rw [List.append_nil] at hstored
    unfold storeMeasured at hrun
    dsimp only at hrun
    split at hrun
    · obtain ⟨readers, m₁, -, hrun⟩ := Run.run_bind_eq_ok hrun
      cases hrun
      exact hstored.foldl (f := fun cell => { cell with contentDirty := true }) (fun _ => rfl) readers
    · cases hrun
      exact hstored

theorem Tracks.exists_style (h : Tracks t es c) (hi : i < t.styles.length) :
    ∃ s, c.template.styleAt? i = some s := by
  rw [← h.length] at hi
  exact ⟨_, styleAt?_eq_some.2 ⟨_, List.getElem?_eq_getElem hi, rfl⟩⟩

/-- Measuring styles calls the layout once for each, in order, and keeps the cycle on track. -/
theorem emits_measureAll {measure : Style → Run (Option Measurement)} (h : Tracks t es c)
    {indices : List Nat} (hindices : ∀ i ∈ indices, i < t.styles.length) :
    Emits (· <+: indices.map .measured)
      (fun r es' => es' = indices.map .measured ∧ Tracks t (es ++ es') r.1)
      (measureAll measure c indices) := by
  induction indices generalizing c es with
  | nil =>
    refine emits_pure (List.prefix_refl _) ⟨rfl, ?_⟩
    rwa [List.append_nil]
  | cons i rest ih =>
    obtain ⟨hi, hrest⟩ := List.forall_mem_cons.1 hindices
    obtain ⟨s, hs⟩ := h.exists_style hi
    unfold measureAll
    rw [hs]
    dsimp only
    refine Emits.bind (A := (· = [.measured i])) (B := fun _ es' => es' = [.measured i])
      (emits_seen (fun _ => rfl) fun _ _ _ _ => rfl) (fun es' he => ?_) ?_
    · rw [he]
      exact List.cons_prefix_cons.2 ⟨rfl, List.nil_prefix⟩
    rintro result _ - rfl
    refine Emits.bind (A := (· = [])) (B := fun c' es' => es' = [] ∧ Tracks t es c')
      (emits_quiet rfl fun c' m m' hrun => ⟨rfl, tracks_storeMeasured h hs hrun⟩) (fun es' he => ?_) ?_
    · rw [he]
      exact List.cons_prefix_cons.2 ⟨rfl, List.nil_prefix⟩
    rintro c' _ - ⟨rfl, hc'⟩
    have hmeasured : Tracks t (es ++ [.measured i]) c' := hc'.congr fun j => by
      rw [replacedIn_append]
      exact List.append_nil _
    refine (ih hmeasured hrest).bind (fun es' hes' => ?_) fun r es' hes' hr => ?_
    · exact List.cons_prefix_cons.2 ⟨rfl, hes'⟩
    · refine emits_pure ?_ ⟨?_, ?_⟩
      · rw [List.append_nil]
        exact List.cons_prefix_cons.2 ⟨rfl, hes'⟩
      · rw [List.append_nil, hr.1]
        rfl
      · have htracks := hr.2
        rw [List.append_assoc] at htracks
        rwa [List.append_nil]

/-! ## Listeners -/

theorem events_bind_ok {x : Watched α} {f : α → Watched β} {m m' : Machine} {a : α}
    (h : x.run m = (.ok a, m')) : (x >>= f).events m = x.events m ++ (f a).events m' := by
  rw [events_bind, h]

/-- What listeners of the style at an index are told. -/
def tellings (x : (StyleCell × CycleCell) × Nat) : List RenderEvent :=
  if x.1.2.mask.isEmpty then [] else x.1.1.style.listeners.map (.told x.2 · x.1.2.mask)

theorem notify_ends (i : Nat) (s : Style) (mask : Changes) (m : Machine) :
    ∃ m', (notify i s mask).run m = (.ok (), m') ∧
      (notify i s mask).events m = s.listeners.map (.told i · mask) := by
  unfold notify
  induction s.listeners generalizing m with
  | nil => exact ⟨m, rfl, rfl⟩
  | cons listener rest ih =>
    let noted := m.store.log.push (.styleChanged listener s.name mask)
    obtain ⟨m', hrun, hevents⟩ := ih ⟨m.context, { m.store with log := noted }⟩
    exact ⟨m', hrun, congrArg (RenderEvent.told i listener mask :: ·) hevents⟩

/-- Telling listeners always comes to an end. -/
theorem announce_ends (k : Nat) (styles : List (StyleCell × CycleCell)) (m : Machine) :
    ∃ m', (announce k styles).run m = (.ok ((styles.map (·.2.mask)).foldr (· ∪ ·) .none), m') ∧
      (announce k styles).events m = (styles.zipIdx k).flatMap tellings := by
  induction styles generalizing k m with
  | nil => exact ⟨m, rfl, rfl⟩
  | cons x rest ih =>
    obtain ⟨s, cell⟩ := x
    unfold announce
    rw [List.map_cons, List.foldr_cons, List.zipIdx_cons, List.flatMap_cons]
    cases hmask : cell.mask.isEmpty with
    | true =>
      obtain ⟨m', hrun, hevents⟩ := ih (k + 1) m
      have htellings : tellings ((s, cell), k) = [] := if_pos hmask
      rw [if_neg (by decide), htellings]
      refine ⟨m', Run.run_bind_ok hrun, ?_⟩
      rw [events_bind_ok hrun, hevents]
      exact List.append_nil _
    | false =>
      obtain ⟨m₁, hrun₁, hevents₁⟩ := notify_ends k s.style cell.mask m
      obtain ⟨m', hrun, hevents⟩ := ih (k + 1) m₁
      have htellings : tellings ((s, cell), k) = s.style.listeners.map (.told k · cell.mask) :=
        if_neg (by rw [hmask]; decide)
      rw [if_pos (by decide), htellings]
      refine ⟨m', (Run.run_bind_ok hrun₁).trans (Run.run_bind_ok hrun), ?_⟩
      rw [events_bind_ok hrun₁, hevents₁, events_bind_ok hrun, hevents]
      exact congrArg (_ ++ ·) (List.append_nil _)

end Watched

/-! ## Measurements and announcements -/

namespace Template

variable {t t' : Template}

theorem styleAt?_congr (h : t'.styles.map StyleCell.style = t.styles.map StyleCell.style) (i : Nat) :
    t'.styleAt? i = t.styleAt? i := by
  have hget := congrArg (·[i]?) h
  rwa [List.getElem?_map, List.getElem?_map] at hget

/-- A round leaves all styles as they are. -/
theorem Played.styles {budget : Nat} {r r' : Round} {m m' : Machine} {es : List RoundEvent}
    (h : Played budget r m es r' m') :
    r'.template.styles.map StyleCell.style = r.template.styles.map StyleCell.style := by
  induction h with
  | nil => rfl
  | cons hfirst _ ih =>
    refine ih.trans ?_
    cases hfirst with
    | ran => rfl
    | marked i => exact (sameCard_markDirty _ i).styles.symm

theorem styles_refreshFields {budget : Nat} {changed : List String} {m m' : Machine}
    (h : t.refreshFields budget m = (.ok (t', changed), m')) :
    t'.styles.map StyleCell.style = t.styles.map StyleCell.style := by
  obtain ⟨r, m₁, hscope, h⟩ := Run.run_bind_eq_ok h
  cases h
  obtain ⟨m₂, hfields, -⟩ := Run.run_inScope_eq_ok hscope
  have hplays : Plays budget _ _ _ (runFields budget ⟨t.beginRound, []⟩ _ (Run.enterScope m).2) :=
    plays_runFields _ _ (List.range t.fields.length)
  rw [hfields] at hplays
  obtain ⟨es, r', hplayed, rfl, -⟩ := hplays
  exact hplayed.styles

variable (t) (events : List RenderEvent)

/-- Each style is measured once, in order. -/
def measurements : List RenderEvent := (List.range t.styles.length).map .measured

/-- After events, every listener of a style is told once of all properties that they replaced, if there
are any. -/
def announcement (x : StyleCell × Nat) : List RenderEvent :=
  match replacedIn x.2 events with
  | [] => []
  | p :: ps => x.1.style.listeners.map (.told x.2 · (Property.flags (p :: ps)))

/-- The announcements of all styles, in order. -/
def announcements : List RenderEvent := t.styles.zipIdx.flatMap (announcement events)

/-- The flags of all properties that events replaced. -/
def allChanges : Changes :=
  ((List.range t.styles.length).map fun i => Property.flags (replacedIn i events)).foldr (· ∪ ·) .none

end Template

namespace Watched

open Template

variable {t : Template} {c : Cycle} {es : List RenderEvent}

theorem tracks_start {t₁ : Template} (h : t₁.styles.map StyleCell.style = t.styles.map StyleCell.style) :
    Tracks t [] (.start t₁) := by
  have hlength : t₁.styles.length = t.styles.length := by simpa using congrArg List.length h
  refine ⟨hlength, (List.length_map _).trans hlength, fun i cell hcell => ?_, fun i s hs => ?_⟩
  · obtain ⟨c, -, rfl⟩ := Option.map_eq_some_iff.1 ((List.getElem?_map ..).symm.trans hcell)
    rfl
  · exact ⟨s, (styleAt?_congr h i).symm.trans hs, .refl s⟩

/-- The cells that a cycle ends with, next to the styles that it hands on. -/
theorem Tracks.getElem_zip (h : Tracks t es c) {i : Nat} {x : StyleCell × CycleCell}
    (hx : (c.carryOver.styles.zip c.cells)[i]? = some x) :
    x.2.mask = Property.flags (replacedIn i es) ∧
      ∃ s, t.styleAt? i = some s ∧ s.Kept (replacedIn i es) x.1.style := by
  obtain ⟨hstyle, hcell⟩ := List.getElem?_zip_eq_some.1 hx
  obtain ⟨s, _, hs, -, hx₁⟩ := List.getElem?_zipWith_eq_some.1 hstyle
  refine ⟨h.masks i x.2 hcell, h.styles i x.1.style (styleAt?_eq_some.2 ⟨s, hs, ?_⟩)⟩
  rw [← hx₁]

theorem Tracks.length_zip (h : Tracks t es c) :
    (c.carryOver.styles.zip c.cells).length = t.styles.length := by
  unfold Cycle.carryOver
  rw [List.length_zip, List.length_zipWith, h.length, h.cells, Nat.min_self, Nat.min_self]

theorem tellings_eq_announcement {i : Nat} {x : StyleCell × CycleCell} {y : StyleCell}
    (hmask : x.2.mask = Property.flags (replacedIn i es))
    (hlisteners : x.1.style.listeners = y.style.listeners) :
    tellings (x, i) = announcement es (y, i) := by
  unfold tellings announcement
  dsimp only
  rw [hmask, hlisteners, Property.isEmpty_flags]
  cases replacedIn i es with
  | nil => rfl
  | cons p ps => rfl

/-- After a cycle, listeners are told of what was replaced in it. -/
theorem Tracks.tellings_eq (h : Tracks t es c) :
    (c.carryOver.styles.zip c.cells).zipIdx.flatMap tellings = t.announcements es := by
  unfold announcements
  rw [List.flatMap_def, List.flatMap_def]
  refine congrArg List.flatten (List.ext_getElem ?_ fun i hi hi' => ?_)
  · rw [List.length_map, List.length_map, List.length_zipIdx, List.length_zipIdx, h.length_zip]
  · rw [List.length_map, List.length_zipIdx] at hi hi'
    obtain ⟨hmask, s, hs, hkept⟩ := h.getElem_zip (List.getElem?_eq_getElem hi)
    obtain ⟨y, hy, rfl⟩ := styleAt?_eq_some.1 hs
    obtain rfl := Option.some.inj ((List.getElem?_eq_getElem hi').symm.trans hy)
    rw [List.getElem_map, List.getElem_map, List.getElem_zipIdx, List.getElem_zipIdx, Nat.zero_add]
    exact tellings_eq_announcement hmask hkept.listeners

theorem Tracks.masks_eq (h : Tracks t es c) :
    ((c.carryOver.styles.zip c.cells).map (·.2.mask)).foldr (· ∪ ·) .none = t.allChanges es := by
  unfold allChanges
  refine congrArg (List.foldr (· ∪ ·) Changes.none) (List.ext_getElem ?_ fun i hi hi' => ?_)
  · rw [List.length_map, List.length_map, List.length_range, h.length_zip]
  · rw [List.length_map] at hi
    rw [List.getElem_map, List.getElem_map, List.getElem_range]
    exact (h.getElem_zip (List.getElem?_eq_getElem hi)).1

/-! ## The protocol -/

theorem replacedIn_measurements (i : Nat) (t : Template) : replacedIn i t.measurements = [] := by
  refine List.filterMap_eq_nil_iff.2 fun e he => ?_
  obtain ⟨j, -, rfl⟩ := List.mem_map.1 he
  rfl

/-- The parts in which a cycle is seen, whether it comes to an end or stops early in one of them: scripts
that do not read measured content, the measuring, scripts that do, and the listeners. -/
structure Parts (t : Template) (events before measured after told : List RenderEvent) : Prop where
  sequence : events = before ++ measured ++ after ++ told
  first : Evaluates t false before
  measures : measured <+: t.measurements
  second : Evaluates t true after
  complete : after ++ told ≠ [] → measured = t.measurements
  announces : told = [] ∨ told = t.announcements (before ++ after)

/-- What a cycle that comes to an end reports of the scripts evaluated in it. -/
structure Reports (t : Template) (rendered : Rendered) (evaluated measured told : List RenderEvent) :
    Prop where
  measures : measured = t.measurements
  announces : told = t.announcements evaluated
  changes : rendered.changes = t.allChanges evaluated
  styles : ∀ i s', rendered.template.styleAt? i = some s' →
    ∃ s, t.styleAt? i = some s ∧ s.Kept (replacedIn i evaluated) s'

theorem Parts.untold {before measured after : List RenderEvent} (hbefore : Evaluates t false before)
    (hmeasured : measured <+: t.measurements) (hafter : Evaluates t true after)
    (hcomplete : after ≠ [] → measured = t.measurements) (hes : es = before ++ (measured ++ after)) :
    Parts t es before measured after [] where
  sequence := by rw [List.append_nil, List.append_assoc, hes]
  first := hbefore
  measures := hmeasured
  second := hafter
  complete h := hcomplete ((List.append_nil after).symm ▸ h)
  announces := .inl rfl

theorem Parts.announce {before after : List RenderEvent}
    (h : Parts t es before t.measurements after []) :
    Parts t (es ++ t.announcements (before ++ after)) before t.measurements after
      (t.announcements (before ++ after)) where
  sequence := congrArg (· ++ _) (h.sequence.trans (List.append_nil _))
  first := h.first
  measures := h.measures
  second := h.second
  complete _ := rfl
  announces := .inr rfl

theorem Tracks.reports (h : Tracks t es c) (styles : List Style) :
    Reports t ⟨c.carryOver, t.allChanges es, styles⟩ es t.measurements (t.announcements es) := by
  have hcard := Cycle.sameCard_carryOver (h.cells.trans h.length.symm)
  refine ⟨rfl, rfl, rfl, fun i s' hs' => h.styles i s' ?_⟩
  exact (styleAt?_congr hcard.styles i).trans hs'

/-- Whatever the machine is, after a cycle listeners are told of what was replaced in it. -/
theorem emits_announce (h : Tracks t es c) :
    Emits (· = t.announcements es) (fun changes _ => changes = t.allChanges es)
      (announce 0 (c.carryOver.styles.zip c.cells)) := by
  intro m
  obtain ⟨m', hrun, hevents⟩ := announce_ends 0 (c.carryOver.styles.zip c.cells) m
  refine ⟨hevents.trans h.tellings_eq, fun changes m'' hrun' => ?_⟩
  rw [hrun] at hrun'
  cases hrun'
  exact h.masks_eq

/-- The phases of a cycle around the measuring. -/
theorem emits_phases {budget : Nat} {measure : Style → Run (Option Measurement)} {n : Nat}
    (hn : n = t.styles.length) (h : Tracks t [] c) :
    Emits (fun es => ∃ before measured after, Parts t es before measured after [])
      (fun r es => ∃ before after, Parts t es before t.measurements after [] ∧
        Tracks t (before ++ after) r.1)
      (do
        let c ← phase (visitStructure budget) c
        let (c, styles) ← measureAll measure c (List.range n)
        return (← phase (visitContent budget) c, styles)) := by
  subst hn
  have hnone : Evaluates t true [] := fun _ he => by cases he
  have hindices : ∀ i ∈ List.range t.styles.length, i < t.styles.length :=
    fun i hi => List.mem_range.1 hi
  -- In each part there is what was seen if the cycle stops in it, and what it hands to the next part.
  refine (emits_sweeps visits_structure h _).bind (fun before hbefore => ?_)
    fun c₁ before hbefore h₁ => ?_
  · exact ⟨before, [], [], .untold hbefore List.nil_prefix hnone (absurd rfl ·) (by simp)⟩
  refine (emits_measureAll h₁ hindices).bind (fun measured hmeasured => ?_)
    fun r measured hmeasured hr => ?_
  · exact ⟨before, measured, [], .untold hbefore hmeasured hnone (absurd rfl ·) (by simp)⟩
  obtain ⟨hmeasured : measured = t.measurements, h₂⟩ := hr
  subst hmeasured
  refine (emits_sweeps visits_content h₂ _).bind (fun after hafter => ?_) fun c₃ after hafter h₃ => ?_
  · exact ⟨before, _, after, .untold hbefore hmeasured hafter (fun _ => rfl) rfl⟩
  have hparts : Parts t (before ++ (t.measurements ++ (after ++ []))) before t.measurements after [] :=
    .untold hbefore hmeasured hafter (fun _ => rfl) (by rw [List.append_nil])
  refine emits_pure ⟨before, _, after, hparts⟩ ⟨before, after, hparts, h₃.congr fun i => ?_⟩
  rw [List.nil_append, replacedIn_append, replacedIn_append, replacedIn_append,
    replacedIn_measurements, List.append_nil]

end Watched

open Watched in
/-- **A render cycle keeps its order, and reports just what it did.** Scripts that do not read measured
content are evaluated before any style is measured, then every style is measured once, in order, and
scripts that read measured content are evaluated after that; a cycle that is stopped stops somewhere
in this order. One that comes to an end tells every listener of a style once of all properties of the
style that were replaced, whatever the sweep, tells nobody of other styles, and gives the union of all
changes; a property that was not replaced is as it was. -/
theorem Template.render_protocol (budget : Nat) (t : Template)
    (measure : Style → Run (Option Measurement)) :
    (Watched.render budget t measure).run = t.render budget measure ∧
      ∀ m, ∃ before measured after told,
        Parts t ((Watched.render budget t measure).events m) before measured after told ∧
          ∀ rendered m', t.render budget measure m = (.ok rendered, m') →
            Reports t rendered (before ++ after) measured told := by
  have hemits : Emits
      (fun es => ∃ before measured after told, Parts t es before measured after told)
      (fun rendered es => ∃ before measured after told, Parts t es before measured after told ∧
        Reports t rendered (before ++ after) measured told) (Watched.render budget t measure) := by
    refine Emits.bind (A := (· = []))
      (B := fun r _ => r.1.styles.map StyleCell.style = t.styles.map StyleCell.style)
      (emits_quiet rfl fun r m m' hrun => styles_refreshFields hrun) (fun es he => ?_) ?_
    · exact ⟨[], [], [], [], he, nofun, List.nil_prefix, nofun, (absurd rfl ·), .inl rfl⟩
    -- The fields were updated, which leaves the styles as they are in `t`.
    rintro ⟨t₁, changed⟩ _ rfl hstyles
    have hlength : t₁.styles.length = t.styles.length := by simpa using congrArg List.length hstyles
    refine (emits_phases hlength (tracks_start hstyles)).inScope.bind (fun es hes => ?_) ?_
    · obtain ⟨before, measured, after, hparts⟩ := hes
      exact ⟨before, measured, after, [], hparts⟩
    rintro ⟨c, styles⟩ es - ⟨before, after, hparts, htracks⟩
    dsimp only
    refine (emits_announce htracks).bind (fun told htold => ?_) fun changes told htold hchanges => ?_
    · exact ⟨before, _, after, told, htold ▸ hparts.announce⟩
    · rw [htold, hchanges]
      have hall : Parts t ([] ++ (es ++ (t.announcements (before ++ after) ++ []))) before
          t.measurements after (t.announcements (before ++ after)) := by
        rw [List.append_nil]
        exact hparts.announce
      exact emits_pure ⟨before, _, after, _, hall⟩ ⟨before, _, after, _, hall, htracks.reports styles⟩
  refine ⟨run_render budget t measure, fun m => ?_⟩
  obtain ⟨hstops, hends⟩ := hemits m
  rcases hrun : t.render budget measure m with ⟨stop | rendered, m'⟩
  · obtain ⟨before, measured, after, told, hparts⟩ := hstops
    exact ⟨before, measured, after, told, hparts, fun _ _ h => by cases h⟩
  · obtain ⟨before, measured, after, told, hparts, hreports⟩ :=
      hends rendered m' ((congrFun (run_render budget t measure) m).trans hrun)
    refine ⟨before, measured, after, told, hparts, fun r m'' h => ?_⟩
    cases h
    exact hreports

/-- A style that hides, and takes its mask from what was measured. -/
def shutter : Style :=
  ⟨"shutter", .fixed 0, .fixed 0, .fixed 0, .fixed 0, .fixed 0,
    ⟨true, some ((Decision.leaf (.bool false)).script 0 ⟨0⟩ ⟨1⟩), false⟩,
    ⟨"", some ((Decision.leaf (.string "round")).script 1 ⟨0⟩ ⟨1⟩), true⟩, none, 0, ["list", "list"]⟩

/-- A card with a shutter that was not rendered yet. -/
def shutterCard : Template := ⟨[], [⟨shutter, true⟩], 0⟩

theorem Template.render_protocol_shutter :
    (Watched.render 8 shutterCard fun _ => return none).events (.forCard 1) =
        [.evaluated 0 .visible true, .measured 0, .evaluated 0 .mask true,
          .told 0 "list" ⟨true, false, true⟩, .told 0 "list" ⟨true, false, true⟩] ∧
      ∃ rendered m' before measured after told,
        shutterCard.render 8 (fun _ => return none) (.forCard 1) = (.ok rendered, m') ∧
          Watched.Parts shutterCard
            ((Watched.render 8 shutterCard fun _ => return none).events (.forCard 1))
            before measured after told ∧
          Watched.Reports shutterCard rendered (before ++ after) measured told := by
  have hends : (shutterCard.render 8 (fun _ => return none) (.forCard 1)).1.isOk = true := by
    decide +kernel
  refine ⟨by decide +kernel, ?_⟩
  obtain ⟨-, hparts⟩ := Template.render_protocol 8 shutterCard fun _ => return none
  obtain ⟨before, measured, after, told, hparts, hreports⟩ := hparts (.forCard 1)
  rcases hrun : shutterCard.render 8 (fun _ => return none) (.forCard 1) with ⟨stop | rendered, m'⟩
  · rw [hrun] at hends
    cases hends
  · exact ⟨rendered, m', before, measured, after, told, rfl, hparts, hreports rendered m' hrun⟩

end ReactiveScript
