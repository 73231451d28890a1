import ReactiveScript.Proofs.Balance
import ReactiveScript.Proofs.Later
import ReactiveScript.Proofs.Property

/-
  Machines that show a card.

  `Proceeds` relates machines: what evaluating the scripts of a card, binding the card and opening
  scopes makes of one. A machine shows a card if the variables `card` and `card style` hold its fields
  and styles (`Template.Shown`). Binding a card has them bound in a scope that is open
  (`Template.ShownOpen`), so in any environment evaluating a script in a scope of its own keeps them
  (`Stays.shownOpen`). In a machine that shows the card, an update makes of a field or a style what its
  scripts give there (`Field.update_updated`, `Style.update_restyled`).
-/

namespace ReactiveScript

open Run (Returned)

/-- The machine is the same but for the calls noted for an error, identities, the log and reports. -/
structure Machine.Aside (m m' : Machine) : Prop where
  context : ∃ frames, m'.context = { m.context with backtrace := frames }
  store : ∃ nextIdent log reports, m.store.nextIdent ≤ nextIdent ∧
    m'.store = { m.store with nextIdent, log, reports }

theorem Machine.Aside.later {m m' : Machine} (h : m.Aside m') : m.store.Later m'.store := by
  obtain ⟨n, log, reports, -, h⟩ := h.store
  exact Store.later_of_eq (by rw [h]) (by rw [h])

theorem Machine.Aside.env {m m' : Machine} (h : m.Aside m') : m'.context.env = m.context.env := by
  obtain ⟨frames, h⟩ := h.context
  rw [h]

/-- The names that a card binds. -/
def cardNames : List String := ["card", "card style", "value"]

/-- The machine with the variable of a name bound. -/
def Machine.bound (m : Machine) (name : String) (v : Value) : Machine :=
  ⟨{ m.context with env := m.context.env.set (Store.intern name m.store).1 v },
    (Store.intern name m.store).2⟩

/-- What work with a card makes of a machine, when scripts that `runs` admits are evaluated. Scopes
that were opened are closed again. -/
inductive Proceeds (budget : Nat) (runs : Script Value → Prop) : Machine → Machine → Prop
  | refl (m : Machine) : Proceeds budget runs m m
  | aside {m m' m'' : Machine} (h : Proceeds budget runs m m') (h' : m'.Aside m'') :
    Proceeds budget runs m m''
  | bind {m m' : Machine} (h : Proceeds budget runs m m') {name : String} (hname : name ∈ cardNames)
    (v : Value) : Proceeds budget runs m (m'.bound name v)
  | eval {m m' : Machine} (h : Proceeds budget runs m m') {s : Script Value} (hs : runs s)
    (hr : Returned (Run.eval budget s true m').1) :
    Proceeds budget runs m (Run.eval budget s true m').2
  | within {m m' m'' : Machine} (h : Proceeds budget runs m m')
    (hin : Proceeds budget runs (Run.enterScope m').2 m'') :
    Proceeds budget runs m (Run.leaveScope m'.context.env.hiddenCount m'').2

namespace Proceeds

variable {budget : Nat} {runs : Script Value → Prop} {m m' m'' : Machine}

theorem trans (h : Proceeds budget runs m m') (h' : Proceeds budget runs m' m'') :
    Proceeds budget runs m m'' := by
  induction h' with
  | refl m' => exact h
  | aside _ ha ih => exact (ih h).aside ha
  | bind _ hname v ih => exact (ih h).bind hname v
  | eval _ hs hr ih => exact (ih h).eval hs hr
  | within _ hin ih _ => exact (ih h).within hin

/-- Names keep their numbers, and the lists of dependents stay as they are. -/
theorem later (h : Proceeds budget runs m m') : m.store.Later m'.store := by
  induction h with
  | refl m => exact .refl m.store
  | aside _ ha ih => exact ih.trans ha.later
  | bind _ _ v ih => exact ih.trans (Store.forward_intern _ _).toLater
  | eval _ _ _ ih => exact ih.trans (Run.forward_eval ..).store.toLater
  | within _ _ ih ih' => exact ih.trans ih'

/-- At most bindings are added to the current scope; what there was besides is retained. -/
theorem extends_env (h : Proceeds budget runs m m') : m.context.env.Extends m'.context.env := by
  induction h with
  | refl m => exact (Environment.Retains.refl _).extends
  | aside _ ha ih =>
    rw [ha.env]
    exact ih
  | bind _ _ v ih => exact ih.trans (Environment.extends_setAll _ [(_, v)])
  | eval _ _ hr ih => exact ih.trans (Run.eval_neutral budget _ _ hr).1.env.extends
  | within h hin ih ih' =>
    exact ih.trans ((Environment.nested_enterScope _).extends ih').leaveScope.extends

end Proceeds

/-! ## Machines that show a card -/

/-- The variable of a name has this value. -/
def Machine.Binds (m : Machine) (name : String) (v : Value) : Prop :=
  ∃ var, m.store.names.find? name = some var ∧ m.context.env.get? var = some v

/-- The variable of a name has this value, bound in a scope that is open. -/
def Machine.BindsOpen (m : Machine) (name : String) (v : Value) : Prop :=
  ∃ var, m.store.names.find? name = some var ∧ m.context.env.get? var = some v ∧
    m.context.env.BoundedAt var

namespace Machine

variable {m m' : Machine} {name other : String} {v w : Value}

theorem binds_bound (m : Machine) (name : String) (v : Value) : (m.bound name v).Binds name v := by
  refine ⟨(Store.intern name m.store).1, Names.find?_intern m.store.names name, ?_⟩
  exact (Environment.get?_set ..).trans (if_pos rfl)

theorem Binds.bound (h : m.Binds other w) (hne : other ≠ name) (v : Value) :
    (m.bound name v).Binds other w := by
  obtain ⟨var, hname, hget⟩ := h
  have hkept := Names.find?_intern_of_find? hname name
  refine ⟨var, hkept, (Environment.get?_set ..).trans ?_⟩
  rw [if_neg, hget]
  rintro rfl
  exact hne (Names.eq_of_find? hkept (Names.find?_intern _ _))

theorem BindsOpen.binds (h : m.BindsOpen name v) : m.Binds name v := by
  obtain ⟨var, hname, hget, -⟩ := h
  exact ⟨var, hname, hget⟩

theorem bindsOpen_bound (m : Machine) (name : String) (v : Value) :
    (m.bound name v).BindsOpen name v := by
  refine ⟨(Store.intern name m.store).1, Names.find?_intern m.store.names name, ?_, ?_⟩
  · exact (Environment.get?_set ..).trans (if_pos rfl)
  · exact (Environment.boundedAt_set _ v).2 (.inl rfl)

theorem BindsOpen.bound (h : m.BindsOpen other w) (hne : other ≠ name) (v : Value) :
    (m.bound name v).BindsOpen other w := by
  obtain ⟨var, hname, hget, hopen⟩ := h
  obtain ⟨var', hname', hget'⟩ := Binds.bound ⟨var, hname, hget⟩ hne v
  cases hname'.symm.trans (Names.find?_intern_of_find? hname name)
  exact ⟨var, hname', hget', (Environment.boundedAt_set _ v).2 (.inr hopen)⟩

/-- What is bound in an open scope stays where the environment is retained. -/
theorem BindsOpen.later (h : m.BindsOpen name v) (hl : m.store.Later m'.store)
    (he : m.context.env.Retains m'.context.env) : m'.BindsOpen name v := by
  obtain ⟨var, hname, hget, hopen⟩ := h
  exact ⟨var, hl.names hname, (he.get? hopen).trans hget, he.boundedAt hopen⟩

end Machine

namespace Template

/-- The variables `card` and `card style` hold the fields and styles of the card. -/
structure Shown (t : Template) (m : Machine) : Prop where
  fields : ∃ st, m.Binds "card" (t.fieldsValue st).1
  styles : ∃ st, m.Binds "card style" (t.stylesValue st).1

/-- The card is shown by variables that are bound in scopes that are open. -/
structure ShownOpen (t : Template) (m : Machine) : Prop where
  fields : ∃ st, m.BindsOpen "card" (t.fieldsValue st).1
  styles : ∃ st, m.BindsOpen "card style" (t.stylesValue st).1

variable {t t' : Template} {m m' : Machine}

theorem ShownOpen.shown (h : t.ShownOpen m) : t.Shown m := by
  obtain ⟨⟨st, hf⟩, st', hs⟩ := h
  exact ⟨⟨st, hf.binds⟩, st', hs.binds⟩

theorem ShownOpen.later (h : t.ShownOpen m) (hl : m.store.Later m'.store)
    (he : m.context.env.Retains m'.context.env) : t.ShownOpen m' := by
  obtain ⟨⟨st, hf⟩, st', hs⟩ := h
  exact ⟨⟨st, hf.later hl he⟩, st', hs.later hl he⟩

/-- The same fields and styles; ages and marks may differ. -/
structure SameCard (t t' : Template) : Prop where
  fields : t.fields.map FieldCell.field = t'.fields.map FieldCell.field
  styles : t.styles.map StyleCell.style = t'.styles.map StyleCell.style

theorem SameCard.symm (h : t.SameCard t') : t'.SameCard t := ⟨h.fields.symm, h.styles.symm⟩

theorem fieldsValue_eq (t : Template) : t.fieldsValue =
    Store.newCollection (.ofEntries ((t.fields.map FieldCell.field).map fun f =>
      (some f.name, f.value))) := by
  unfold fieldsValue
  rw [List.map_map]
  rfl

theorem stylesValue_eq (t : Template) : t.stylesValue = (do
    let entries ← (t.styles.map StyleCell.style).mapM fun s => do
      return (some s.name, ← s.toValue)
    Store.newCollection (.ofEntries entries)) := by
  unfold stylesValue
  rw [List.mapM_map]
  rfl

theorem SameCard.shown (h : t.SameCard t') (hs : t.Shown m) : t'.Shown m := by
  obtain ⟨⟨st, hf⟩, st', hs⟩ := hs
  rw [fieldsValue_eq, h.fields, ← fieldsValue_eq] at hf
  rw [stylesValue_eq, h.styles, ← stylesValue_eq] at hs
  exact ⟨⟨st, hf⟩, st', hs⟩

end Template

/-! ## Binding a card -/

/-- Only identities are taken from the store. -/
def Store.OnlyIdentities {α : Type} (x : StateM Store α) : Prop :=
  ∀ st, ∃ n, st.nextIdent ≤ n ∧ (x st).2 = { st with nextIdent := n }

namespace Store

variable {α β : Type}

theorem OnlyIdentities.bind {x : StateM Store α} {f : α → StateM Store β} (hx : OnlyIdentities x)
    (hf : ∀ a, OnlyIdentities (f a)) : OnlyIdentities (x >>= f) := by
  intro st
  obtain ⟨n, hn, hst⟩ := hx st
  obtain ⟨k, hk, hst'⟩ := hf (x st).1 (x st).2
  rw [hst] at hk
  refine ⟨k, Nat.le_trans hn hk, hst'.trans ?_⟩
  rw [hst]

theorem onlyIdentities_pure (a : α) : OnlyIdentities (pure a : StateM Store α) :=
  fun st => ⟨st.nextIdent, Nat.le_refl _, rfl⟩

theorem onlyIdentities_newCollection (items : Collection Value) :
    OnlyIdentities (newCollection items) :=
  fun st => ⟨st.nextIdent + 1, Nat.le_succ _, rfl⟩

theorem OnlyIdentities.aside {x : StateM Store α} (hx : OnlyIdentities x) (m : Machine) :
    m.Aside ⟨m.context, (x m.store).2⟩ := by
  obtain ⟨n, hn, hst⟩ := hx m.store
  exact ⟨⟨m.context.backtrace, rfl⟩, n, _, _, hn, hst⟩

end Store

namespace Template

variable {budget : Nat} {runs : Script Value → Prop}

theorem onlyIdentities_fieldsValue (t : Template) : Store.OnlyIdentities t.fieldsValue :=
  Store.onlyIdentities_newCollection _

theorem onlyIdentities_stylesValue (t : Template) : Store.OnlyIdentities t.stylesValue := by
  refine Store.OnlyIdentities.bind ?_ fun entries => Store.onlyIdentities_newCollection _
  induction t.styles with
  | nil => exact Store.onlyIdentities_pure _
  | cons c rest ih =>
    rw [List.mapM_cons]
    refine Store.OnlyIdentities.bind ?_ fun entry => ih.bind fun _ => Store.onlyIdentities_pure _
    exact (Store.onlyIdentities_newCollection _).bind fun _ => Store.onlyIdentities_pure _

variable (budget runs) in
/-- Binding a card makes the machine show it, by variables of the current scope. -/
theorem run_bind_shown (t : Template) (m : Machine) :
    ∃ m', t.bind m = (.ok (), m') ∧ Proceeds budget runs m m' ∧ t.ShownOpen m' := by
  let m₁ : Machine := ⟨m.context, (t.fieldsValue m.store).2⟩
  let m₂ := m₁.bound "card" (t.fieldsValue m.store).1
  let m₃ : Machine := ⟨m₂.context, (t.stylesValue m₂.store).2⟩
  have h₁ : Proceeds budget runs m m₁ := (Proceeds.refl m).aside (t.onlyIdentities_fieldsValue.aside m)
  have h₃ : Proceeds budget runs m m₃ :=
    (h₁.bind (by decide) _).aside (t.onlyIdentities_stylesValue.aside m₂)
  have hcard : m₃.BindsOpen "card" (t.fieldsValue m.store).1 :=
    (Machine.bindsOpen_bound m₁ _ _).later (t.onlyIdentities_stylesValue.aside m₂).later (.refl _)
  refine ⟨m₃.bound "card style" (t.stylesValue m₂.store).1, rfl, h₃.bind (by decide) _, ?_, ?_⟩
  · exact ⟨m.store, hcard.bound (by decide) _⟩
  · exact ⟨m₂.store, Machine.bindsOpen_bound _ _ _⟩

end Template

/-! ## Updating what a script computes -/

/-- What work with a card makes of a machine that leaves no bindings behind. -/
structure Stays (budget : Nat) (runs : Script Value → Prop) (m m' : Machine) : Prop where
  proceeds : Proceeds budget runs m m'
  env : m.context.env.Retains m'.context.env

namespace Stays

variable {budget : Nat} {runs : Script Value → Prop} {m m' m'' : Machine}

theorem refl (m : Machine) : Stays budget runs m m := ⟨.refl m, .refl _⟩

theorem trans (h : Stays budget runs m m') (h' : Stays budget runs m' m'') :
    Stays budget runs m m'' :=
  ⟨h.proceeds.trans h'.proceeds, h.env.trans h'.env⟩

theorem of_aside (h : m.Aside m') : Stays budget runs m m' :=
  ⟨(Proceeds.refl m).aside h, by rw [h.env]; exact .refl _⟩

theorem of_eval {s : Script Value} (hs : runs s) (hr : Returned (Run.eval budget s true m).1) :
    Stays budget runs m (Run.eval budget s true m).2 :=
  ⟨(Proceeds.refl m).eval hs hr, (Run.eval_neutral budget _ _ hr).1.env⟩

/-- The card is still shown. -/
theorem shownOpen {t : Template} (h : Stays budget runs m m') (ht : t.ShownOpen m) :
    t.ShownOpen m' := ht.later h.proceeds.later h.env

end Stays

namespace Computed

variable {α : Type} [HostValue α] {budget : Nat} {runs : Script Value → Prop} {p : Computed α}
  {m m' : Machine}

/-- What an attempt to update makes of a computed value. -/
def orKept (p : Computed α) : Except EvalError (Bool × Computed α) → Bool × Computed α
  | .ok r => r
  | .error _ => (false, p)

theorem attempt_update_of_returned {s : Script Value} (hs : p.script = some s)
    (hr : Returned (Run.eval budget s true m).1) :
    ∃ r, Run.attempt (p.update budget) m = (.ok r, (Run.eval budget s true m).2) ∧
      Updated budget m p (p.orKept r) := by
  unfold update Updated gives evaluate
  rw [hs, Run.run_attempt]
  dsimp only
  rw [Run.run_bind, Run.run_bind]
  generalize Run.eval budget s true m = out at hr ⊢
  rcases out with ⟨stop | v, m'⟩
  · obtain ⟨e, rfl⟩ := hr.error_of
    exact ⟨.error e, rfl, rfl⟩
  · dsimp only
    rw [Run.run_bind, Run.run_ofExcept]
    cases (HostValue.ofValue v : Except EvalError α) with
    | error e => exact ⟨.error e, rfl, rfl⟩
    | ok x => exact ⟨.ok (p.replace x), rfl, rfl⟩

theorem returned_of_attempt_update {s : Script Value} (hs : p.script = some s)
    {r : Except EvalError (Bool × Computed α)}
    (h : Run.attempt (p.update budget) m = (.ok r, m')) :
    Returned (Run.eval budget s true m).1 := by
  unfold update at h
  rw [hs, Run.run_attempt] at h
  dsimp only at h
  rw [Run.run_bind] at h
  generalize Run.eval budget s true m = out at h ⊢
  rcases out with ⟨(_ | _ | _ | _) | v, m'⟩
  · trivial
  · cases h
  · cases h
  · cases h
  · trivial

/-- An attempt to update comes to an end if the script does. -/
theorem attempt_update_returns
    (h : ∀ s, p.script = some s → Returned (Run.eval budget s true m).1) :
    ∃ r m', Run.attempt (p.update budget) m = (.ok r, m') := by
  cases hs : p.script with
  | none =>
    refine ⟨.ok (false, p), m, ?_⟩
    unfold update
    rw [hs]
    rfl
  | some s =>
    obtain ⟨r, hr, -⟩ := attempt_update_of_returned (p := p) hs (h s hs)
    exact ⟨r, _, hr⟩

/-- What an attempt to update makes of the machine and of the computed value. -/
theorem attempt_update {r : Except EvalError (Bool × Computed α)}
    (hruns : ∀ s, p.script = some s → runs s)
    (h : Run.attempt (p.update budget) m = (.ok r, m')) :
    Stays budget runs m m' ∧ Updated budget m p (p.orKept r) := by
  cases hs : p.script with
  | none =>
    unfold update at h
    rw [hs] at h
    cases h
    exact ⟨.refl m, updated_of_unscripted hs⟩
  | some s =>
    have hr := returned_of_attempt_update hs h
    obtain ⟨r', h', hu⟩ := attempt_update_of_returned (p := p) hs hr
    cases h.symm.trans h'
    exact ⟨.of_eval (hruns s hs) hr, hu⟩

end Computed

/-- Reporting an error. -/
theorem Run.reportError_aside (owner property : String) (e : EvalError) (m : Machine) :
    ∃ m', Run.reportError owner property e m = (.ok (), m') ∧ m.Aside m' := by
  obtain ⟨⟨env, stack, settings, depth, registry, keeps, frames, analyzing⟩, st⟩ := m
  cases keeps with
  | true => exact ⟨_, rfl, ⟨[], rfl⟩, _, _, _, Nat.le_refl _, rfl⟩
  | false => exact ⟨_, rfl, ⟨[], rfl⟩, _, _, _, Nat.le_refl _, rfl⟩

namespace Style

variable {α : Type} [HostValue α] {budget : Nat} {runs : Script Value → Prop} {p : Computed α}
  {m m' : Machine}

/-- An attempt to update a property, whose error is reported. -/
theorem updateProperty_updated {style name : String} {r : Bool × Computed α}
    (hruns : ∀ s, p.script = some s → runs s)
    (h : updateProperty budget style name p m = (.ok r, m')) :
    Stays budget runs m m' ∧ Computed.Updated budget m p r := by
  obtain ⟨result, m₁, hx, h⟩ := Run.run_bind_eq_ok h
  obtain ⟨hstays, hu⟩ := Computed.attempt_update hruns hx
  cases result with
  | ok r =>
    cases h
    exact ⟨hstays, hu⟩
  | error e =>
    obtain ⟨m₂, hreport, haside⟩ := Run.reportError_aside style name e m₁
    cases (Run.run_bind_ok hreport).symm.trans h
    exact ⟨hstays.trans (.of_aside haside), hu⟩

theorem updateProperty_returns (style name : String)
    (h : ∀ s, p.script = some s → Returned (Run.eval budget s true m).1) :
    ∃ r m', updateProperty budget style name p m = (.ok r, m') := by
  obtain ⟨result, m₁, hx⟩ := Computed.attempt_update_returns h
  unfold updateProperty
  rw [Run.run_bind_ok hx]
  cases result with
  | ok r => exact ⟨r, m₁, rfl⟩
  | error e =>
    obtain ⟨m₂, hreport, -⟩ := Run.reportError_aside style name e m₁
    exact ⟨_, m₂, Run.run_bind_ok hreport⟩

/-- What a style's update makes of one property: those of the other phase stay. -/
def Touched (budget : Nat) (m : Machine) (onlyContent : Bool) (p : Computed α)
    (r : Bool × Computed α) : Prop :=
  if p.readsContent = onlyContent then Computed.Updated budget m p r else r = (false, p)

theorem Touched.fixes {onlyContent changed : Bool} {p' : Computed α}
    (h : Touched budget m onlyContent p (changed, p')) :
    p'.script = p.script ∧ p'.readsContent = p.readsContent := by
  unfold Touched at h
  split at h
  · exact h.fixes
  · cases h
    exact ⟨rfl, rfl⟩

theorem Touched.eq_of_unchanged {onlyContent : Bool} {p' : Computed α}
    (h : Touched budget m onlyContent p (false, p')) : p' = p := by
  unfold Touched at h
  split at h
  · exact h.eq_of_unchanged
  · cases h
    rfl

/-- Update a property in one of the phases and join the flag of its change to the others. -/
def updateInPhase (budget : Nat) (onlyContent : Bool) (style name : String) (flag : Changes)
    (p : Computed α) : StateT Changes Run (Computed α) := fun mask => do
  if !p.isScripted || p.readsContent != onlyContent then return (p, mask)
  let (changed, p) ← updateProperty budget style name p
  return (p, if changed then mask ∪ flag else mask)

theorem updateInPhase_touched {onlyContent : Bool} {style name : String} {flag mask mask' : Changes}
    {p' : Computed α} (hruns : ∀ s, p.script = some s → runs s)
    (h : updateInPhase budget onlyContent style name flag p mask m = (.ok (p', mask'), m')) :
    Stays budget runs m m' ∧ ∃ changed, Touched budget m onlyContent p (changed, p') ∧
      mask' = if changed then mask ∪ flag else mask := by
  unfold updateInPhase at h
  by_cases hskip : (!p.isScripted || p.readsContent != onlyContent) = true
  · rw [if_pos hskip] at h
    cases h
    refine ⟨.refl m, false, ?_, rfl⟩
    unfold Touched
    split
    · next hphase =>
      refine Computed.updated_of_unscripted ?_
      simpa [Computed.isScripted, hphase] using hskip
    · rfl
  · rw [if_neg hskip] at h
    obtain ⟨⟨changed, p''⟩, m₁, hx, h⟩ := Run.run_bind_eq_ok h
    obtain ⟨hstays, hu⟩ := updateProperty_updated hruns hx
    cases h
    refine ⟨hstays, changed, ?_, rfl⟩
    unfold Touched
    rw [if_pos (by simp at hskip; exact hskip.2)]
    exact hu

theorem updateInPhase_returns (onlyContent : Bool) (style name : String) (flag mask : Changes)
    (h : ∀ s, p.script = some s → Returned (Run.eval budget s true m).1) :
    ∃ p' mask' m', updateInPhase budget onlyContent style name flag p mask m =
      (.ok (p', mask'), m') := by
  unfold updateInPhase
  by_cases hskip : (!p.isScripted || p.readsContent != onlyContent) = true
  · rw [if_pos hskip]
    exact ⟨p, mask, m, rfl⟩
  · rw [if_neg hskip]
    obtain ⟨⟨changed, p'⟩, m₁, hx⟩ := updateProperty_returns style name h
    exact ⟨p', _, m₁, Run.run_bind_ok hx⟩

/-- What a run of the properties makes of a style and its machine. Each property was touched in a
machine on the way, and if no flag was set, none was changed. -/
structure Restyled (budget : Nat) (runs : Script Value → Prop) (onlyContent : Bool)
    (touched : Property → Prop) (s : Style) (m : Machine) (noFlags : Bool) (s' : Style)
    (m' : Machine) : Prop where
  stays : Stays budget runs m m'
  frame : s.SameFrame s'
  untouched : ∀ p, ¬touched p → Property.get s' p = Property.get s p
  touches : ∀ p, touched p → ∃ mₚ changed, Stays budget runs m mₚ ∧
    Touched budget mₚ onlyContent (Property.get s p) (changed, Property.get s' p) ∧
    (noFlags = true → changed = false)

theorem runs_put {s : Style} {p : Property} {c : Computed p.Carrier}
    (hruns : ∀ q script, (Property.get s q).script = some script → runs script)
    (hc : c.script = (Property.get s p).script) (q : Property) (script : Script Value)
    (hq : (Property.get (Property.put s p c) q).script = some script) : runs script := by
  by_cases hpq : p = q
  · subst hpq
    rw [Property.get_put_self, hc] at hq
    exact hruns p script hq
  · rw [Property.get_put_of_ne s hpq] at hq
    exact hruns q script hq

theorem foldlM_restyled {onlyContent : Bool} {style : String} {ps : List Property} {s s' : Style}
    {mask mask' : Changes} (hnodup : ps.Nodup)
    (hruns : ∀ p script, (Property.get s p).script = some script → runs script)
    (h : (ps.foldlM (fun s p => do
      return Property.put s p (← updateInPhase budget onlyContent style p.name p.flag
        (Property.get s p))) s : StateT Changes Run Style) mask m = (.ok (s', mask'), m')) :
    (mask'.isEmpty = true → mask.isEmpty = true) ∧
      Restyled budget runs onlyContent (· ∈ ps) s m mask'.isEmpty s' m' := by
  induction ps generalizing s mask m with
  | nil =>
    cases h
    exact ⟨id, .refl _, .refl _, fun p _ => rfl, fun p hp => absurd hp List.not_mem_nil⟩
  | cons p rest ih =>
    rw [List.foldlM_cons] at h
    obtain ⟨⟨s₁, mask₁⟩, m₁, hx, h⟩ := Run.run_bind_eq_ok h
    obtain ⟨⟨c, _⟩, _, hx, hput⟩ := Run.run_bind_eq_ok hx
    cases hput
    obtain ⟨hstays, changed, htouched, hmask⟩ := updateInPhase_touched (hruns p) hx
    obtain ⟨hp, hnodup⟩ := List.nodup_cons.1 hnodup
    obtain ⟨hle, hrest⟩ := ih hnodup (runs_put hruns htouched.fixes.1) h
    have hempty : mask'.isEmpty = true → mask.isEmpty = true ∧ changed = false := by
      intro he
      have he₁ := hle he
      cases changed with
      | false =>
        rw [hmask] at he₁
        exact ⟨he₁, rfl⟩
      | true =>
        rw [hmask, if_pos rfl, Changes.isEmpty_union, p.isEmpty_flag, Bool.and_false] at he₁
        cases he₁
    refine ⟨fun he => (hempty he).1, hstays.trans hrest.stays,
      (s.sameFrame_put p c).trans hrest.frame, fun q hq => ?_, fun q hq => ?_⟩
    · obtain ⟨hqp, hq⟩ := not_or.1 fun h => hq (List.mem_cons.2 h)
      rw [hrest.untouched q hq, Property.get_put_of_ne s (Ne.symm hqp)]
    · rcases List.mem_cons.1 hq with rfl | hq
      · refine ⟨m, changed, .refl m, ?_, fun he => (hempty he).2⟩
        rw [hrest.untouched q hp, Property.get_put_self]
        exact htouched
      · obtain ⟨mₚ, changed', hstays', htouched', hquiet⟩ := hrest.touches q hq
        have hpq : p ≠ q := fun e => hp (e ▸ hq)
        rw [Property.get_put_of_ne s hpq] at htouched'
        exact ⟨mₚ, changed', hstays.trans hstays', htouched', hquiet⟩

/-- Running properties comes to an end if their scripts do, wherever they are run on the way. -/
theorem foldlM_returns (onlyContent : Bool) (style : String) (ps : List Property) {s : Style}
    (mask : Changes) (hruns : ∀ p script, (Property.get s p).script = some script → runs script)
    (h : ∀ script m', runs script → Stays budget runs m m' →
      Returned (Run.eval budget script true m').1) :
    ∃ s' mask' m', (ps.foldlM (fun s p => do
      return Property.put s p (← updateInPhase budget onlyContent style p.name p.flag
        (Property.get s p))) s : StateT Changes Run Style) mask m = (.ok (s', mask'), m') := by
  induction ps generalizing s mask m with
  | nil => exact ⟨s, mask, m, rfl⟩
  | cons p rest ih =>
    obtain ⟨c, mask₁, m₁, hx⟩ := updateInPhase_returns onlyContent style p.name p.flag mask
      fun script hp => h script m (hruns p script hp) (.refl m)
    obtain ⟨hstays, changed, htouched, -⟩ := updateInPhase_touched (hruns p) hx
    obtain ⟨s', mask', m', hrest⟩ := ih mask₁ (runs_put hruns htouched.fixes.1)
      fun script m' hs hstays' => h script m' hs (hstays.trans hstays')
    refine ⟨s', mask', m', ?_⟩
    rw [List.foldlM_cons, ← hrest]
    exact Run.runState_bind_ok (Run.runState_bind_ok hx)

/-- Updating a style touches each of its properties. -/
theorem update_restyled {onlyContent : Bool} {s s' : Style} {mask : Changes}
    (hruns : ∀ p script, (Property.get s p).script = some script → runs script)
    (h : s.update budget onlyContent m = (.ok (mask, s'), m')) :
    Restyled budget runs onlyContent (fun _ => True) s m mask.isEmpty s' m' := by
  unfold update at h
  obtain ⟨⟨s₁, mask₁⟩, m₁, hx, h⟩ := Run.run_bind_eq_ok h
  cases h
  rw [mapProperties_eq] at hx
  obtain ⟨-, hstays, hframe, -, htouches⟩ := foldlM_restyled Property.nodup_all hruns hx
  exact ⟨hstays, hframe, fun p hp => absurd trivial hp, fun p _ => htouches p p.mem_all⟩

/-- Updating a style comes to an end if the scripts do. -/
theorem update_returns (s : Style) (onlyContent : Bool)
    (hruns : ∀ p script, (Property.get s p).script = some script → runs script)
    (h : ∀ script m', runs script → Stays budget runs m m' →
      Returned (Run.eval budget script true m').1) :
    ∃ mask s' m', s.update budget onlyContent m = (.ok (mask, s'), m') := by
  obtain ⟨s', mask', m', hx⟩ := foldlM_returns onlyContent s.name Property.all .none hruns h
  refine ⟨mask', s', m', ?_⟩
  unfold update
  refine Run.run_bind_ok (a := (s', mask')) ?_
  rw [mapProperties_eq]
  exact hx

/-- Without a flag the style is the same. -/
theorem Restyled.eq {onlyContent : Bool} {s s' : Style}
    (h : Restyled budget runs onlyContent (fun _ => True) s m true s' m') : s' = s := by
  refine h.frame.eq fun p => ?_
  obtain ⟨mₚ, changed, -, htouched, hquiet⟩ := h.touches p trivial
  obtain rfl := hquiet rfl
  exact htouched.eq_of_unchanged

end Style

namespace Field

variable {budget : Nat} {runs : Script Value → Prop} {m m' : Machine}

/-- The machine in which the script of a field runs: in a scope of its own it sees the stored
value. -/
def inner (f : Field) (m : Machine) : Machine := (Run.enterScope m).2.bound "value" f.value

variable (budget) in
theorem attempt_runScript (f : Field) (m : Machine) :
    Run.attempt (f.runScript budget) m =
      match Run.attempt (f.content.update budget) (f.inner m) with
      | (.ok r, m₁) => (.ok (r.map fun r => (r.1, { f with content := r.2 })),
          (Run.leaveScope m.context.env.hiddenCount m₁).2)
      | (.error stop, m₁) => (.error stop, m₁) := by
  have hbody : (do
      Run.bindVariable (← Run.store (Store.intern "value")) f.value
      f.content.update budget) { m with context := { m.context with
        env := m.context.env.enterScope.2 } } = f.content.update budget (f.inner m) := rfl
  rw [Run.run_attempt, Run.run_attempt]
  unfold runScript Run.inScope
  rw [Run.run_bind, Run.run_bind_ok (Run.run_enterScope m), Run.run_bind, Run.run_attempt, hbody]
  rcases f.content.update budget (f.inner m) with ⟨(e | _ | _ | _) | r, m₁⟩ <;> rfl

/-- What an update makes of a field and its machine. -/
theorem update_updated {f f' : Field} {mask : Changes}
    (hruns : ∀ s, f.content.script = some s → runs s)
    (h : f.update budget false m = (.ok (mask, f'), m')) :
    Stays budget runs m m' ∧ ∃ changed content,
      Computed.Updated budget (f.inner m) f.content (changed, content) ∧
        f' = { f with content } ∧ mask = if changed then .otherOnly else .none := by
  have hinner : Proceeds budget runs (Run.enterScope m).2 (f.inner m) :=
    (Proceeds.refl _).bind (by decide) f.value
  obtain ⟨r, m₁, hx, h⟩ := Run.run_bind_eq_ok h
  rw [attempt_runScript] at hx
  rcases hu : Run.attempt (f.content.update budget) (f.inner m) with ⟨stop | result, m₂⟩
  · rw [hu] at hx
    cases hx
  · rw [hu] at hx
    cases hx
    obtain ⟨hstays, hupdated⟩ := Computed.attempt_update hruns hu
    -- The scope is left again, and nothing else was bound.
    have hleft : Stays budget runs m (Run.leaveScope m.context.env.hiddenCount m₂).2 := by
      have hin := hinner.trans hstays.proceeds
      exact ⟨(Proceeds.refl m).within hin,
        ((Environment.nested_enterScope _).extends hin.extends_env).leaveScope⟩
    cases result with
    | ok r =>
      cases h
      exact ⟨hleft, r.1, r.2, hupdated, rfl, rfl⟩
    | error e =>
      obtain ⟨m₃, hreport, haside⟩ := Run.reportError_aside f.name "value" e _
      cases (Run.run_bind_ok hreport).symm.trans h
      exact ⟨hleft.trans (.of_aside haside), false, f.content, hupdated, rfl, rfl⟩

theorem update_returns {f : Field} {r : Except EvalError (Bool × Computed Value)}
    (h : Run.attempt (f.content.update budget) (f.inner m) = (.ok r, m')) :
    ∃ mask f' m', f.update budget false m = (.ok (mask, f'), m') := by
  have hattempt := f.attempt_runScript budget m
  rw [h] at hattempt
  dsimp only at hattempt
  unfold update
  rw [if_neg (by decide), Run.run_bind_ok hattempt]
  cases r with
  | ok r => exact ⟨_, _, _, rfl⟩
  | error e =>
    obtain ⟨m₁, hreport, -⟩ := Run.reportError_aside f.name "value" e
      (Run.leaveScope m.context.env.hiddenCount m').2
    exact ⟨_, _, _, Run.run_bind_ok hreport⟩

end Field

end ReactiveScript
