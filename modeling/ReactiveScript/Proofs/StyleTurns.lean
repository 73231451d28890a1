import Mathlib.Logic.Function.Basic
import ReactiveScript.Proofs.PassRestores
import ReactiveScript.Proofs.RenderLog

/-
  The turns of an update.

  In an update each property of a style has its turn, in their order. It is skipped unless it has a
  script and is in the phase of the update (`Computed.due?`); otherwise its script is evaluated, once,
  and gives a host value or fails (`Turn`). A property that fails stays as it is and is reported, and
  the next one has its turn in a machine in which everything was given back (`Turns.reporting`). So an
  update is all of its turns, and stops only if an evaluation does (`Style.update_in_turns`).
-/

namespace ReactiveScript

open Run (Returned Retained GivenBack)

variable {α : Type}

/-! ## One property -/

/-- The script that an update in a phase runs. -/
def Computed.due? (c : Computed α) (onlyContent : Bool) : Option (Script Value) :=
  if c.readsContent = onlyContent then c.script else none

theorem Computed.due?_eq_none {c : Computed α} {onlyContent : Bool}
    (h : (!c.isScripted || c.readsContent != onlyContent) = true) :
    c.due? onlyContent = none := by
  unfold Computed.due?
  split
  · next hphase => simpa [Computed.isScripted, hphase] using h
  · rfl

theorem Computed.due?_eq_some {c : Computed α} {onlyContent : Bool}
    (h : ¬(!c.isScripted || c.readsContent != onlyContent) = true) :
    ∃ script, c.due? onlyContent = some script ∧ c.script = some script := by
  simp only [Computed.isScripted, bne_iff_ne, ne_eq, Bool.or_eq_true, not_or, Bool.not_eq_true',
    Option.isSome_eq_false_iff, Option.isNone_iff_eq_none, not_not] at h
  obtain ⟨script, hscript⟩ := Option.ne_none_iff_exists'.1 h.1
  exact ⟨script, (if_pos h.2).trans hscript, hscript⟩

/-- What comes of the turn of a property. -/
inductive Outcome (α : Type)
  | skipped
  /-- The error, and the calls it went through. -/
  | failed (e : EvalError) (frames : List String)
  | gave (x : α)

variable [HostValue α]

namespace Outcome

/-- What becomes of the property: whether another value was stored, and what it then is. -/
def result (c : Computed α) : Outcome α → Bool × Computed α
  | skipped => (false, c)
  | failed _ _ => (false, c)
  | gave x => c.replace x

/-- The report of the turn. -/
def report? (owner property : String) : Outcome α → Option ErrorReport
  | skipped => none
  | failed e frames => some ⟨owner, property, e, frames⟩
  | gave _ => none

end Outcome

/-- The machine after a report: the calls of the error are forgotten. -/
def Machine.reported (m : Machine) (owner property : String) (e : EvalError) : Machine :=
  ⟨{ m.context with backtrace := [] },
    if m.context.keepsReports then
      { m.store with reports := m.store.reports.push ⟨owner, property, e, m.context.backtrace⟩ }
    else m.store⟩

theorem Run.run_reportError (owner property : String) (e : EvalError) (m : Machine) :
    Run.reportError owner property e m = (.ok (), m.reported owner property e) := by
  obtain ⟨⟨env, stack, settings, depth, registry, keeps, frames, analyzing⟩, st⟩ := m
  cases keeps <;> rfl

/-- The turn of a property in an update of one of the phases. -/
inductive Style.Turn (budget : Nat) (onlyContent : Bool) (style name : String) (c : Computed α)
    (m : Machine) : Outcome α → Machine → Prop
  | skipped (h : c.due? onlyContent = none) :
    Style.Turn budget onlyContent style name c m .skipped m
  | failed {script : Script Value} {e : EvalError} {m' : Machine}
    (hdue : c.due? onlyContent = some script)
    (hrun : Computed.evaluate α budget script m = (.error (.error e), m')) :
    Style.Turn budget onlyContent style name c m (.failed e m'.context.backtrace)
      (m'.reported style name e)
  | gave {script : Script Value} {x : α} {m' : Machine}
    (hdue : c.due? onlyContent = some script)
    (hrun : Computed.evaluate α budget script m = (.ok x, m')) :
    Style.Turn budget onlyContent style name c m (.gave x) m'

namespace Computed

theorem update_of_script {c : Computed α} {script : Script Value} (h : c.script = some script)
    (budget : Nat) : c.update budget = do return c.replace (← evaluate α budget script) := by
  unfold update evaluate
  rw [h]
  simp only [bind_assoc]

theorem neutral_evaluate (budget : Nat) (script : Script Value) :
    Run.Neutral (evaluate α budget script) :=
  (Run.eval_neutral budget script).bind Run.composes_retained fun _ => Run.neutral_ofExcept _

theorem forward_evaluate (budget : Nat) (script : Script Value) :
    Run.Forward (evaluate α budget script) :=
  (Run.forward_eval budget script true).bind fun _ => Run.forward_ofExcept _

/-- Evaluating for a host value comes back if evaluating does. -/
theorem returned_evaluate {budget : Nat} {script : Script Value} {m : Machine}
    (h : Returned (Run.eval budget script true m).1) :
    Returned (evaluate α budget script m).1 := by
  unfold evaluate
  rw [Run.run_bind]
  generalize Run.eval budget script true m = out at h ⊢
  rcases out with ⟨stop | v, m'⟩
  · obtain ⟨e, rfl⟩ := h.error_of
    trivial
  · dsimp only
    rw [Run.run_ofExcept]
    cases (HostValue.ofValue v : Except EvalError α) <;> trivial

end Computed

namespace Style

variable {budget : Nat} {onlyContent : Bool} {c : Computed α}

/-- Updating a property that is due is its turn, or its script does not come back. -/
theorem updateProperty_cases (budget : Nat) (style name : String) (m : Machine)
    {script : Script Value} (hdue : c.due? onlyContent = some script)
    (hscript : c.script = some script) :
    (∃ outcome m', Turn budget onlyContent style name c m outcome m' ∧
      updateProperty budget style name c m = (.ok (outcome.result c), m')) ∨
    ¬ Returned (Run.eval budget script true m).1 ∧
      ¬ Returned (updateProperty budget style name c m).1 := by
  have hreturned : Returned (Run.eval budget script true m).1 →
      Returned (Computed.evaluate α budget script m).1 := Computed.returned_evaluate
  unfold updateProperty
  rcases hx : Computed.evaluate α budget script m with ⟨stop | x, m'⟩
  · have hupdate : c.update budget m = (.error stop, m') := by
      rw [Computed.update_of_script hscript, Run.run_bind_error hx]
    rw [hx] at hreturned
    cases stop with
    | error e =>
      refine .inl ⟨_, _, .failed hdue hx, ?_⟩
      rw [Run.run_bind_ok (Run.run_attempt_error hupdate)]
      exact Run.run_bind_ok (Run.run_reportError style name e m')
    | panic _ | held _ | exhausted =>
      have hattempt := Run.run_attempt (c.update budget) m
      rw [hupdate] at hattempt
      refine .inr ⟨fun hr => hreturned hr, fun hr => ?_⟩
      rw [Run.run_bind_error hattempt] at hr
      exact hr
  · have hupdate : c.update budget m = (.ok (c.replace x), m') := by
      rw [Computed.update_of_script hscript, Run.run_bind_ok hx]
      rfl
    refine .inl ⟨_, _, .gave hdue hx, ?_⟩
    rw [Run.run_bind_ok (Run.run_attempt_ok hupdate)]
    rfl

/-- A property has its turn, or its script does not come back. -/
theorem updateInPhase_cases (budget : Nat) (onlyContent : Bool) (style name : String)
    (flag mask : Changes) (c : Computed α) (m : Machine) :
    (∃ outcome m', Turn budget onlyContent style name c m outcome m' ∧
      updateInPhase budget onlyContent style name flag c mask m =
        (.ok ((outcome.result c).2, if (outcome.result c).1 then mask ∪ flag else mask), m')) ∨
    ∃ script, c.due? onlyContent = some script ∧ ¬ Returned (Run.eval budget script true m).1 ∧
      ¬ Returned (updateInPhase budget onlyContent style name flag c mask m).1 := by
  unfold updateInPhase
  by_cases hskip : (!c.isScripted || c.readsContent != onlyContent) = true
  · rw [if_pos hskip]
    exact .inl ⟨.skipped, m, .skipped (Computed.due?_eq_none hskip), rfl⟩
  · rw [if_neg hskip]
    obtain ⟨script, hdue, hscript⟩ := Computed.due?_eq_some hskip
    rcases updateProperty_cases budget style name m hdue hscript with
      ⟨outcome, m', hturn, hrun⟩ | ⟨heval, hrun⟩
    · exact .inl ⟨outcome, m', hturn, Run.run_bind_ok hrun⟩
    · exact .inr ⟨script, hdue, heval, fun hr => hrun hr.of_bind⟩

/-! ## What turns leave -/

end Style

/-- Everything an evaluation gives back is given back, and if reports are kept these were added. -/
structure Machine.Reporting (m m' : Machine) (reports : List ErrorReport) : Prop where
  retained : Retained m m'
  later : m.store.Later m'.store
  keepsReports : m'.context.keepsReports = m.context.keepsReports
  reports : m'.store.reports.toList =
    m.store.reports.toList ++ if m.context.keepsReports then reports else []

namespace Machine

variable {m m' m'' : Machine} {reports reports' : List ErrorReport}

theorem Reporting.trans (h : m.Reporting m' reports) (h' : m'.Reporting m'' reports') :
    m.Reporting m'' (reports ++ reports') where
  retained := h.retained.trans h'.retained
  later := h.later.trans h'.later
  keepsReports := h'.keepsReports.trans h.keepsReports
  reports := by
    rw [h'.reports, h.reports, h.keepsReports]
    cases m.context.keepsReports with
    | true => exact List.append_assoc ..
    | false => exact List.append_nil _

theorem reporting_nothing (h : Retained m m') (he : m.Evaluated m') : m.Reporting m' [] where
  retained := h
  later := he.store.toLater
  keepsReports := he.keepsReports
  reports := by
    rw [he.store.reports]
    cases m.context.keepsReports <;> exact (List.append_nil _).symm

theorem reporting_reported (m : Machine) (owner property : String) (e : EvalError) :
    m.Reporting (m.reported owner property e) [⟨owner, property, e, m.context.backtrace⟩] := by
  refine ⟨.aside rfl rfl rfl rfl, ?_, rfl, ?_⟩ <;> unfold Machine.reported <;>
    cases m.context.keepsReports
  · exact .refl m.store
  · exact Store.later_of_eq rfl rfl
  · exact (List.append_nil _).symm
  · exact Array.toList_push

end Machine

namespace Style

variable {budget : Nat} {onlyContent : Bool} {style name : String} {c : Computed α} {m m' m'' : Machine}

/-- After its turn a property is reported if it failed, and else nothing is. -/
theorem Turn.reporting {outcome : Outcome α}
    (h : Turn budget onlyContent style name c m outcome m') :
    m.Reporting m' (outcome.report? style name).toList := by
  cases h with
  | skipped => exact Machine.reporting_nothing (.refl m) (.refl m)
  | @failed script e m₁ _ hrun =>
    have hretained := (Computed.neutral_evaluate budget script).of_error hrun
    have hevaluated := Computed.forward_evaluate (α := α) budget script m
    rw [hrun] at hevaluated
    exact (Machine.reporting_nothing hretained hevaluated).trans (m₁.reporting_reported style name e)
  | @gave script x m₁ _ hrun =>
    have hretained := ((Computed.neutral_evaluate budget script).of_ok hrun).1
    have hevaluated := Computed.forward_evaluate (α := α) budget script m
    rw [hrun] at hevaluated
    exact Machine.reporting_nothing hretained hevaluated

/-! ## All properties -/

/-- The properties have their turns, each in the machine that the one before it left. -/
inductive Turns (budget : Nat) (onlyContent : Bool) (s : Style)
    (outcome : (p : Property) → Outcome p.Carrier) : List Property → Machine → Machine → Prop
  | nil (m : Machine) : Turns budget onlyContent s outcome [] m m
  | cons {p : Property} {ps : List Property} {m m' m'' : Machine}
    (h : Turn budget onlyContent s.name p.name (Property.get s p) m (outcome p) m')
    (hrest : Turns budget onlyContent s outcome ps m' m'') :
    Turns budget onlyContent s outcome (p :: ps) m m''

/-- Some properties have their turns, and then the script of the next one does not come back. -/
def Halts (budget : Nat) (onlyContent : Bool) (s : Style) (ps : List Property) (m : Machine) :
    Prop :=
  ∃ outcome before p after script m', ps = before ++ p :: after ∧
    Turns budget onlyContent s outcome before m m' ∧
    (Property.get s p).due? onlyContent = some script ∧
    ¬ Returned (Run.eval budget script true m').1

variable {s : Style} {outcome outcome' : (p : Property) → Outcome p.Carrier} {ps : List Property}

theorem Turns.reporting (h : Turns budget onlyContent s outcome ps m m') :
    m.Reporting m' (ps.filterMap fun p => (outcome p).report? s.name p.name) := by
  induction h with
  | nil m => exact Machine.reporting_nothing (.refl m) (.refl m)
  | @cons p ps m m' m'' h _ ih =>
    have hboth := h.reporting.trans ih
    rw [List.filterMap_cons]
    cases hreport : (outcome p).report? s.name p.name with
    | none =>
      rw [hreport] at hboth
      exact hboth
    | some report =>
      rw [hreport] at hboth
      exact hboth

theorem Turns.congr (h : Turns budget onlyContent s outcome ps m m')
    (he : ∀ p ∈ ps, outcome p = outcome' p) : Turns budget onlyContent s outcome' ps m m' := by
  induction h with
  | nil m => exact .nil m
  | cons h _ ih =>
    obtain ⟨hp, hps⟩ := List.forall_mem_cons.1 he
    exact .cons (hp ▸ h) (ih hps)

/-- The properties that store another value. -/
def replacing (s : Style) (outcome : (p : Property) → Outcome p.Carrier) (ps : List Property) :
    List Property :=
  ps.filter fun p => ((outcome p).result (Property.get s p)).1

theorem replacing_congr (he : ∀ p ∈ ps, outcome p = outcome' p) :
    s.replacing outcome ps = s.replacing outcome' ps :=
  List.filter_congr fun p hp => by rw [he p hp]

theorem union_flags_replacing (mask : Changes) (p : Property) (ps : List Property) :
    (if ((outcome p).result (Property.get s p)).1 then mask ∪ p.flag else mask) ∪
        Property.flags (s.replacing outcome ps) =
      mask ∪ Property.flags (s.replacing outcome (p :: ps)) := by
  cases hp : ((outcome p).result (Property.get s p)).1 with
  | true =>
    have hhead : s.replacing outcome (p :: ps) = p :: s.replacing outcome ps :=
      List.filter_cons_of_pos hp
    rw [if_pos rfl, hhead, Changes.union_assoc]
    rfl
  | false =>
    have hhead : s.replacing outcome (p :: ps) = s.replacing outcome ps :=
      List.filter_cons_of_neg (by rw [hp]; exact Bool.false_ne_true)
    rw [if_neg Bool.false_ne_true, hhead]

/-- The turn of a property goes before those of others. -/
theorem Turns.before (h : Turns budget onlyContent s outcome ps m' m'') {p : Property} (hp : p ∉ ps)
    {o : Outcome p.Carrier}
    (hturn : Turn budget onlyContent s.name p.name (Property.get s p) m o m') :
    Turns budget onlyContent s (Function.update outcome p o) (p :: ps) m m'' := by
  have hhead : Turn budget onlyContent s.name p.name (Property.get s p) m
      (Function.update outcome p o p) m' := by
    rw [Function.update_self]
    exact hturn
  refine .cons hhead (h.congr fun q hq => ?_)
  rw [Function.update_of_ne]
  rintro rfl
  exact hp hq

theorem Halts.before (h : Halts budget onlyContent s ps m') {p : Property} (hp : p ∉ ps)
    {o : Outcome p.Carrier}
    (hturn : Turn budget onlyContent s.name p.name (Property.get s p) m o m') :
    Halts budget onlyContent s (p :: ps) m := by
  obtain ⟨outcome, before, q, after, script, m₁, rfl, hturns, hdue, heval⟩ := h
  have hbefore : p ∉ before := fun hmem => hp (List.mem_append_left _ hmem)
  exact ⟨_, p :: before, q, after, script, m₁, rfl, hturns.before hbefore hturn, hdue, heval⟩

/-- Update some properties of a style, one after the other. -/
def updateEach (budget : Nat) (onlyContent : Bool) (style : String) (ps : List Property)
    (s : Style) : StateT Changes Run Style :=
  ps.foldlM (fun s p => do
    return Property.put s p (← updateInPhase budget onlyContent style p.name p.flag
      (Property.get s p))) s

theorem update_eq (budget : Nat) (onlyContent : Bool) (s : Style) :
    s.update budget onlyContent = do
      let r ← updateEach budget onlyContent s.name Property.all s .none
      return (r.2, r.1) := by
  unfold update updateEach
  rw [mapProperties_eq]
  rfl

theorem updateEach_cons {mask mask' : Changes} {p : Property} {c' : Computed p.Carrier}
    (h : updateInPhase budget onlyContent name p.name p.flag (Property.get s p) mask m =
      (.ok (c', mask'), m')) (ps : List Property) :
    updateEach budget onlyContent name (p :: ps) s mask m =
      updateEach budget onlyContent name ps (Property.put s p c') mask' m' := by
  unfold updateEach
  rw [List.foldlM_cons]
  exact Run.runState_bind_ok (Run.runState_bind_ok h)

theorem not_returned_updateEach {mask : Changes} {p : Property}
    (h : ¬ Returned (updateInPhase budget onlyContent name p.name p.flag (Property.get s p) mask m).1)
    (ps : List Property) :
    ¬ Returned (updateEach budget onlyContent name (p :: ps) s mask m).1 := by
  unfold updateEach
  rw [List.foldlM_cons]
  exact fun hr => h (Returned.of_bind (Returned.of_bind hr))

/-- The properties have their turns, one after the other, or a script does not come back. In between
the style is the one that is updated, but for the properties that had their turn. -/
theorem updateEach_turns (budget : Nat) (onlyContent : Bool) (style : Style) (hnodup : ps.Nodup)
    (hget : ∀ p ∈ ps, Property.get s p = Property.get style p) (mask : Changes) (m : Machine) :
    (∃ outcome s' m', Turns budget onlyContent style outcome ps m m' ∧ s.SameFrame s' ∧
      (∀ p, p ∉ ps → Property.get s' p = Property.get s p) ∧
      (∀ p ∈ ps, Property.get s' p = ((outcome p).result (Property.get style p)).2) ∧
      updateEach budget onlyContent style.name ps s mask m =
        (.ok (s', mask ∪ Property.flags (style.replacing outcome ps)), m')) ∨
    Halts budget onlyContent style ps m ∧
      ¬ Returned (updateEach budget onlyContent style.name ps s mask m).1 := by
  induction ps generalizing s mask m with
  | nil =>
    refine .inl ⟨fun _ => .skipped, s, m, .nil m, .refl s, fun _ _ => rfl, fun p hp => ?_, ?_⟩
    · exact absurd hp List.not_mem_nil
    · show (Except.ok (s, mask), m) = (.ok (s, mask ∪ Changes.none), m)
      rw [Changes.union_none]
  | cons p rest ih =>
    obtain ⟨hp, hnodup⟩ := List.nodup_cons.1 hnodup
    obtain ⟨hhere, hget⟩ := List.forall_mem_cons.1 hget
    rcases updateInPhase_cases budget onlyContent style.name p.name p.flag mask (Property.get style p) m
      with ⟨o, m₁, hturn, hrun⟩ | ⟨script, hdue, heval, hrun⟩ <;> rw [← hhere] at hrun
    · have hne : ∀ q ∈ rest, q ≠ p := fun q hq e => hp (e ▸ hq)
      have hother : ∀ q, q ≠ p →
          Property.get (Property.put s p (o.result (Property.get s p)).2) q = Property.get s q :=
        fun q hq => Property.get_put_of_ne s (Ne.symm hq) _
      rw [updateEach_cons hrun]
      rcases ih hnodup (fun q hq => (hother q (hne q hq)).trans (hget q hq)) _ m₁ with
        ⟨outcome, s', m', hturns, hframe, hkept, hdone, hfold⟩ | ⟨hhalts, hstop⟩
      · refine .inl ⟨Function.update outcome p o, s', m', hturns.before hp hturn,
          (s.sameFrame_put p _).trans hframe, fun q hq => ?_, fun q hq => ?_, ?_⟩
        · obtain ⟨hqp, hq⟩ := not_or.1 fun h => hq (List.mem_cons.2 h)
          rw [hkept q hq, hother q hqp]
        · rcases List.mem_cons.1 hq with rfl | hq
          · rw [hkept q hp, Property.get_put_self, Function.update_self, hhere]
          · rw [hdone q hq, Function.update_of_ne (hne q hq)]
        · have hsame : ∀ q ∈ rest, outcome q = Function.update outcome p o q := fun q hq => by
            rw [Function.update_of_ne (hne q hq)]
          rw [hfold, replacing_congr hsame, ← union_flags_replacing, Function.update_self, hhere]
      · exact .inr ⟨hhalts.before hp hturn, hstop⟩
    · exact .inr ⟨⟨fun _ => .skipped, [], p, rest, script, m, rfl, .nil m, hdue, heval⟩,
        not_returned_updateEach hrun rest⟩

/-- What an update makes of a style and its machine, when its properties have had their turns. -/
structure InTurns (budget : Nat) (onlyContent : Bool) (s : Style) (m : Machine)
    (outcome : (p : Property) → Outcome p.Carrier) (mask : Changes) (s' : Style) (m' : Machine) :
    Prop where
  /-- Each property has one turn, in order. -/
  turns : Turns budget onlyContent s outcome Property.all m m'
  properties : ∀ p, Property.get s' p = ((outcome p).result (Property.get s p)).2
  mask : mask = Property.flags (s.replacing outcome Property.all)
  /-- Name, measured content, dependents and listeners are the same. -/
  frame : s.SameFrame s'
  /-- There is one report for each property that failed, and none besides. -/
  reports : m'.store.reports.toList = m.store.reports.toList ++ if m.context.keepsReports then
    Property.all.filterMap fun p => (outcome p).report? s.name p.name else []
  dependents : m'.store.dependents = m.store.dependents
  context : GivenBack m m'

/-- An update of a style in one of the phases gives every property its turn, whatever became of those
before it, unless a script it evaluates does not come back. Levels are counted as in `Environment`, for
fewer than 2^32 open scopes. -/
theorem update_in_turns (budget : Nat) (onlyContent : Bool) (s : Style) (m : Machine) :
    (∃ outcome mask s' m', s.update budget onlyContent m = (.ok (mask, s'), m') ∧
      InTurns budget onlyContent s m outcome mask s' m') ∨
    Halts budget onlyContent s Property.all m ∧ ¬ Returned (s.update budget onlyContent m).1 := by
  rw [update_eq]
  rcases updateEach_turns budget onlyContent s Property.nodup_all (fun _ _ => rfl) .none m with
    ⟨outcome, s', m', hturns, hframe, -, hdone, hrun⟩ | ⟨hhalts, hstop⟩
  · have hreporting := hturns.reporting
    refine .inl ⟨outcome, _, s', m', Run.run_bind_ok hrun, hturns, fun p => hdone p p.mem_all,
      Changes.none_union _, hframe, hreporting.reports, hreporting.later.dependents,
      hreporting.retained.givenBack⟩
  · exact .inr ⟨hhalts, fun hr => hstop hr.of_bind⟩

/-- A style without scripts. -/
def plain : Style :=
  ⟨"title", .fixed 0, .fixed 0, .fixed 0, .fixed 0, .fixed 0, .fixed true, .fixed "", none, 0, []⟩

/-- A style whose visibility is computed, after a width that can not be. -/
def failsInWidth : Style :=
  { plain with
    width := .ofParts 0 (some ⟨1, #[.of .pop 0], #[]⟩)
    visible := .ofParts false (some Run.bindsTrue) }

/-- The width fails and is reported; the visibility has its turn all the same. -/
theorem update_in_turns_failsInWidth :
    ∃ outcome mask s' m', InTurns 4 false failsInWidth
        { Run.newMachine with context := { Run.newMachine.context with keepsReports := true } }
        outcome mask s' m' ∧
      mask = .otherOnly ∧ s'.visible.value = true ∧ m'.store.reports.size = 1 := by
  rcases update_in_turns 4 false failsInWidth
    { Run.newMachine with context := { Run.newMachine.context with keepsReports := true } } with
    ⟨outcome, mask, s', m', hrun, hturns⟩ | ⟨-, hstop⟩
  · have hmask := congrArg (fun r => r.1.toOption.map Prod.fst) hrun
    have hvisible := congrArg (fun r => r.1.toOption.map fun r => r.2.visible.value) hrun
    have hreports := congrArg (fun r => r.2.store.reports.size) hrun
    exact ⟨outcome, mask, s', m', hturns, (Option.some.inj hmask).symm,
      (Option.some.inj hvisible).symm, hreports.symm⟩
  · exact absurd trivial hstop

/-- In a context in which a scope was left with a mark that is too large, the script of a property
binds a variable for good. -/
theorem update_overwrites_after_foreign_mark :
    ¬ ∀ mark : Nat,
      Returned (failsInWidth.update 4 false (Run.leaveScope mark Run.machineInScope).2).1 →
      Run.Restored (Run.leaveScope mark Run.machineInScope).2
        (failsInWidth.update 4 false (Run.leaveScope mark Run.machineInScope).2).2 := by
  intro h
  have hget := (h 1 trivial).env.get? ⟨0⟩
  have hbefore : (Run.leaveScope 1 Run.machineInScope).2.context.env.get? ⟨0⟩ =
    some (.bool false) := rfl
  have hafter : (failsInWidth.update 4 false
    (Run.leaveScope 1 Run.machineInScope).2).2.context.env.get? ⟨0⟩ = some (.bool true) := rfl
  rw [hbefore, hafter] at hget
  cases hget

end Style

end ReactiveScript
