import ReactiveScript.Proofs.Classification
import ReactiveScript.Proofs.Linking

/-
  Linking on machines that mirror one another.

  Passes with the same dependency signal the same owners, so what relates the lists of dependents of
  the two machines before a pass relates them afterwards, if registering lets it (`Lasting`). With
  that the machines are aligned (`Machine.Aligned`), and stay so through all passes over cards with
  the same owners and scripts: they end with the same failure, or give the scripted properties the
  same content flags (`aligned_trackAll`).
-/

namespace ReactiveScript

open Value (Like)
open PassEvent
open Run (Paired paired_pure)

/-! ## Lists of dependents -/

/-- A relation between lists of dependents that lasts when passes with the same dependency signal
the same owners. -/
def Lasting (L : Array (List Dependency) → Array (List Dependency) → Prop) : Prop :=
  ∀ dep log k l, L k.1 l.1 → L (noteAll dep k log).1 (noteAll dep l log).1

/-- As many lists as given, and those of certain owners related to those of the same owners. -/
structure ListsRelated (size : Nat) (owners : OwnerId → Prop)
    (Q : OwnerId → List Dependency → List Dependency → Prop)
    (lists lists' : Array (List Dependency)) : Prop where
  size : lists.size = size
  related : ∀ owner, owners owner → Option.Rel (Q owner) lists[owner]? lists'[owner]?

theorem PassEvent.size_noteAll (dep : Dependency) (k : Marks) (log : List PassEvent) :
    (noteAll dep k log).1.size = k.1.size := by
  induction log generalizing k with
  | nil => rfl
  | cons event rest ih =>
    have hnote : (note dep k event).1.size = k.1.size := by
      cases event with
      | visited => rfl
      | signalled name owner =>
        unfold note
        dsimp only
        split
        · rfl
        · exact Array.size_setIfInBounds
    exact (ih (note dep k event)).trans hnote

theorem optionRel_map {α : Type} {R : α → α → Prop} {f : α → α} (hf : ∀ a b, R a b → R (f a) (f b))
    {x y : Option α} (h : Option.Rel R x y) : Option.Rel R (x.map f) (y.map f) := by
  cases h with
  | none => exact .none
  | some h => exact .some (hf _ _ h)

theorem lasting_listsRelated {size : Nat} {owners : OwnerId → Prop}
    {Q : OwnerId → List Dependency → List Dependency → Prop}
    (hQ : ∀ owner dep signalled l l', dep.isDummy = false → Q owner l l' →
      Q owner (register dep signalled l) (register dep signalled l')) :
    Lasting (ListsRelated size owners Q) := by
  intro dep log k l h
  refine ⟨(size_noteAll dep k log).trans h.size, fun owner howner => ?_⟩
  cases hdep : dep.isDummy with
  | true =>
    rw [noteAll_dummy hdep, noteAll_dummy hdep]
    exact h.related owner howner
  | false =>
    rw [(noteAll_real hdep k log).2 owner, (noteAll_real hdep l log).2 owner]
    exact optionRel_map (fun _ _ => hQ owner dep _ _ _ hdep) (h.related owner howner)

/-- Lists that are related to the same lists. -/
theorem ListsRelated.of_common {Q Q' Q'' : OwnerId → List Dependency → List Dependency → Prop}
    {size size' : Nat} {owners owners' : OwnerId → Prop}
    {lists lists' common : Array (List Dependency)} (h : ListsRelated size owners Q lists common)
    (h' : ListsRelated size' owners' Q' lists' common)
    (howners : ∀ owner, owners owner → owners' owner)
    (hQ : ∀ owner x y z, Q owner x z → Q' owner y z → Q'' owner x y) :
    ListsRelated size owners Q'' lists lists' := by
  refine ⟨h.size, fun owner howner => ?_⟩
  have hx := h.related owner howner
  have hy := h'.related owner (howners owner howner)
  generalize lists[owner]? = x, lists'[owner]? = y, common[owner]? = z at hx hy
  cases hx with
  | none =>
    cases hy
    exact .none
  | some hx =>
    cases hy with
    | some hy => exact .some (hQ owner _ _ _ hx hy)

/-- Whether measured content was read is the same after the same events if it was before. -/
theorem PassEvent.noteAll_snd_congr {k l : Marks} (h : k.2 = l.2) (dep : Dependency)
    (log : List PassEvent) : (noteAll dep k log).2 = (noteAll dep l log).2 := by
  cases hdep : dep.isDummy with
  | true => rw [noteAll_dummy hdep, noteAll_dummy hdep, h]
  | false => rw [(noteAll_real hdep k log).1, (noteAll_real hdep l log).1, h]

/-- Results that are related to the same result. -/
theorem related_of_common {α β γ : Type} {R : α → γ → Prop} {R' : β → γ → Prop} {R'' : α → β → Prop}
    {a : Except Stop α} {b : Except Stop β} {c : Except Stop γ} (h : Related R a c)
    (h' : Related R' b c) (hR : ∀ x y z, R x z → R' y z → R'' x y) : Related R'' a b := by
  rcases c with stop | z <;> rcases a with stop' | x <;> rcases b with stop'' | y
  · exact Eq.trans (show stop' = stop from h) (show stop'' = stop from h').symm
  · cases h'
  · cases h
  · cases h
  · cases h
  · cases h
  · cases h'
  · exact hR x y z h h'

/-! ## Aligned machines -/

/-- The machines mirror one another, and their lists of dependents are related. -/
structure Machine.Aligned (r : Renaming)
    (L : Array (List Dependency) → Array (List Dependency) → Prop) (m n : Machine) : Prop where
  mirrors : m.Mirrors r m.store.marks n.store.marks n
  lists : L m.store.dependents n.store.dependents

variable {r : Renaming} {L : Array (List Dependency) → Array (List Dependency) → Prop}
variable {s : Script Value} {budget : Nat}

namespace Run

/-- The same pass on aligned machines. -/
theorem aligned_pass (hL : Lasting L) (hconst : ∀ c ∈ s.constants, Like r c c) (budget : Nat)
    (dep : Dependency) {m n : Machine} (h : m.Aligned r L n) :
    Related (Like r) (trackReads budget dep s m).1 (trackReads budget dep s n).1 ∧
      (trackReads budget dep s m).2.Aligned r L (trackReads budget dep s n).2 ∧
      (m.store.contentRead = n.store.contentRead →
        (trackReads budget dep s m).2.store.contentRead =
          (trackReads budget dep s n).2.store.contentRead) := by
  obtain ⟨-, hrelated, hmirror⟩ :=
    Logged.mirrored_trackReads dep dep hconst budget _ _ m n h.mirrors
  rw [Logged.run_trackReads] at hrelated hmirror
  have hmarks := hmirror.store.marks
  have hmarks' := hmirror.store.marks'
  refine ⟨hrelated, ⟨?mirrors, ?lists⟩, fun hcontent => ?content⟩
  case mirrors => rwa [← hmarks, ← hmarks'] at hmirror
  case lists =>
    have hlists := hL dep ((Logged.trackReads budget dep s).log m) m.store.marks n.store.marks
      h.lists
    rwa [← hmarks, ← hmarks'] at hlists
  case content =>
    have hflag := noteAll_snd_congr (k := m.store.marks) (l := n.store.marks) hcontent dep
      ((Logged.trackReads budget dep s).log m)
    rwa [← hmarks, ← hmarks'] at hflag

theorem aligned_trackReads (hL : Lasting L) (hconst : ∀ c ∈ s.constants, Like r c c)
    (budget : Nat) (dep : Dependency) :
    Paired (Machine.Aligned r L) (fun _ _ => True) (trackReads budget dep s)
      (trackReads budget dep s) := by
  intro m n h
  obtain ⟨hrelated, haligned, -⟩ := aligned_pass hL hconst budget dep h
  refine ⟨?_, haligned⟩
  generalize (trackReads budget dep s m).1 = out, (trackReads budget dep s n).1 = out' at hrelated
  rcases out with stop | v <;> rcases out' with stop' | v'
  · exact hrelated
  · cases hrelated
  · cases hrelated
  · trivial

theorem run_trackingContent {α : Type} (x : Run α) (m : Machine) : trackingContent x m =
    match x { m with store := { m.store with contentRead := false } } with
      | (.ok a, m') => (.ok (a, m'.store.contentRead), m')
      | (.error stop, m') => (.error stop, m') := by
  have hclear : store Store.clearContentMark m =
      (.ok (), { m with store := { m.store with contentRead := false } }) := rfl
  unfold trackingContent
  rw [run_bind_ok hclear, run_bind]
  rcases x { m with store := { m.store with contentRead := false } } with ⟨stop | a, m₁⟩ <;> rfl

/-- Whether a script reads measured content comes out the same, whatever was marked before. -/
theorem aligned_trackingContent (hL : Lasting L) (hconst : ∀ c ∈ s.constants, Like r c c)
    (budget : Nat) (dep : Dependency) :
    Paired (Machine.Aligned r L) (fun a b => a.2 = b.2)
      (trackingContent (trackReads budget dep s)) (trackingContent (trackReads budget dep s)) := by
  intro m n h
  have hclear : ({ m with store := { m.store with contentRead := false } } : Machine).Aligned r L
      { n with store := { n.store with contentRead := false } } :=
    { mirrors := { h.mirrors with
        store := { h.mirrors.store with marks := rfl, marks' := rfl } }
      lists := h.lists }
  obtain ⟨hrelated, haligned, hcontent⟩ := aligned_pass hL hconst budget dep hclear
  have hcontent := hcontent rfl
  rw [run_trackingContent, run_trackingContent]
  generalize
    trackReads budget dep s { m with store := { m.store with contentRead := false } } = out,
    trackReads budget dep s { n with store := { n.store with contentRead := false } } = out'
    at hrelated haligned hcontent
  rcases out with ⟨stop | v, m₁⟩ <;> rcases out' with ⟨stop' | v', n₁⟩
  · exact ⟨hrelated, haligned⟩
  · cases hrelated
  · cases hrelated
  · exact ⟨hcontent, haligned⟩

theorem Paired.forM {β : Type} {S : Machine → Machine → Prop} {f g : β → Run PUnit}
    (h : ∀ b, Paired S (fun _ _ => True) (f b) (g b)) (xs : List β) :
    Paired S (fun _ _ => True) (xs.forM f) (xs.forM g) := by
  induction xs with
  | nil => exact paired_pure trivial
  | cons x rest ih => exact (h x).bind fun _ _ _ => ih

end Run

open Run

/-! ## Computed values -/

namespace Computed

variable {α : Type} {p p' : Computed α}

/-- The constants of the script, if there is one, are like themselves. -/
def ConstantsLike (r : Renaming) (p : Computed α) : Prop :=
  ∀ s, p.script = some s → ∀ c ∈ s.constants, Like r c c

theorem aligned_trackReads (hL : Lasting L) (hscript : p'.script = p.script)
    (hconst : p.ConstantsLike r) (budget : Nat) (dep : Dependency) :
    Paired (Machine.Aligned r L) (fun _ _ => True) (p.trackReads budget dep)
      (p'.trackReads budget dep) := by
  unfold trackReads
  rw [hscript]
  cases hs : p.script with
  | none => exact paired_pure trivial
  | some s =>
    exact (Run.aligned_trackReads hL (hconst s hs) budget dep).bind fun _ _ _ => paired_pure trivial

theorem aligned_checkContent (hL : Lasting L) (hscript : p'.script = p.script)
    (hconst : p.ConstantsLike r) (budget : Nat) :
    Paired (Machine.Aligned r L) (fun q q' => q.script = p.script ∧ q'.script = p.script ∧
      q.flag? = q'.flag?) (p.checkContent budget) (p'.checkContent budget) := by
  unfold checkContent
  rw [hscript]
  cases hs : p.script with
  | none =>
    refine paired_pure ⟨hs, hscript.trans hs, ?_⟩
    unfold flag?
    rw [hscript, hs]
    rfl
  | some s =>
    refine (aligned_trackingContent hL (hconst s hs) budget _).bind fun a b hab => ?_
    obtain ⟨v, flag⟩ := a
    obtain ⟨v', flag'⟩ := b
    obtain rfl : flag = flag' := hab
    exact paired_pure ⟨rfl, rfl, rfl⟩

/-- The scripts stay, and what was classified has the same flags. -/
theorem aligned_checkUnless (hL : Lasting L) (hscript : p'.script = p.script)
    (hconst : p.ConstantsLike r) (budget : Nat) (failure : Option EvalError) :
    Paired (Machine.Aligned r L) (fun a b => a.1.script = p.script ∧ b.1.script = p.script ∧
      a.2 = b.2 ∧ (a.2 = none → failure = none ∧ a.1.flag? = b.1.flag?))
      (p.checkUnless budget failure) (p'.checkUnless budget failure) := by
  unfold checkUnless
  cases failure with
  | some e => exact paired_pure ⟨rfl, hscript, rfl, fun h => by cases h⟩
  | none =>
    refine (aligned_checkContent hL hscript hconst budget).attempt.bind fun a b hab => ?_
    rcases a with e | q <;> rcases b with e' | q'
    · obtain rfl : e = e' := Stop.error.inj hab
      exact paired_pure ⟨rfl, hscript, rfl, fun h => by cases h⟩
    · cases hab
    · cases hab
    · obtain ⟨hq, hq', hflag⟩ := hab
      exact paired_pure ⟨hq, hq', rfl, fun _ => ⟨rfl, hflag⟩⟩

end Computed

/-! ## Styles -/

namespace Style

variable {s s' : Style}

/-- The constants of all scripts are like themselves. -/
def ConstantsLike (r : Renaming) (s : Style) : Prop := ∀ p, (Property.get s p).ConstantsLike r

theorem script_eq_of_owner (ho : s'.owner = s.owner) (p : Property) :
    (Property.get s' p).script = (Property.get s p).script :=
  congrFun (congrArg (fun o => o.2.2) ho) p

theorem ConstantsLike.of_owner (h : s.ConstantsLike r) (ho : s'.owner = s.owner) :
    s'.ConstantsLike r :=
  fun p script hscript => h p script ((script_eq_of_owner ho p).symm.trans hscript)

theorem aligned_trackReads (hL : Lasting L) (ho : s'.owner = s.owner) (hconst : s.ConstantsLike r)
    (budget : Nat) (dep : Dependency) :
    Paired (Machine.Aligned r L) (fun _ _ => True) (s.trackReads budget dep)
      (s'.trackReads budget dep) := by
  rw [trackReads_eq, trackReads_eq]
  exact Paired.forM (fun p => Computed.aligned_trackReads hL (script_eq_of_owner ho p) (hconst p)
    budget dep) Property.all

/-- Classifying the properties that are left, when those before have the same flags. -/
theorem aligned_checkProperties (hL : Lasting L) (budget : Nat) (ps : List Property)
    {failure : Option EvalError} (ho : s'.owner = s.owner) (hconst : s.ConstantsLike r)
    (hflags : failure = none → ∀ p ∉ ps, s.flags p = s'.flags p) :
    Paired (Machine.Aligned r L) (fun a b => a.2 = b.2 ∧ (a.2 = none → a.1.flags = b.1.flags))
      (ps.foldlM (checkProperty budget) s failure)
      (ps.foldlM (checkProperty budget) s' failure) := by
  induction ps generalizing s s' failure with
  | nil =>
    refine paired_pure ⟨rfl, fun hnone => funext fun p => ?_⟩
    exact hflags hnone p List.not_mem_nil
  | cons p rest ih =>
    have hscript := script_eq_of_owner ho p
    have hcheck := Computed.aligned_checkUnless hL hscript (hconst p) budget failure
    have hstep : ∀ s : Style, (p :: rest).foldlM (checkProperty budget) s failure =
        ((Property.get s p).checkUnless budget failure >>= fun a =>
          rest.foldlM (checkProperty budget) (Property.put s p a.1) a.2) := by
      intro s
      rw [List.foldlM_cons]
      show (((Property.get s p).checkUnless budget failure >>= fun a =>
        pure (Property.put s p a.1, a.2)) >>= fun b => rest.foldlM (checkProperty budget) b.1 b.2 :
          Run (Style × Option EvalError)) = _
      rw [bind_assoc]
      rfl
    rw [hstep s, hstep s']
    refine hcheck.bind fun a b hab => ?_
    obtain ⟨hq, hq', hfailure, hflag⟩ := hab
    have hown := owner_put hq
    have hown' := owner_put (hq'.trans hscript.symm)
    rw [← hfailure]
    refine ih (hown'.trans (ho.trans hown.symm)) (hconst.of_owner hown) fun hnone q hrest => ?_
    obtain ⟨hbefore, hclassified⟩ := hflag hnone
    by_cases hpq : p = q
    · subst hpq
      rw [flags_put_self, flags_put_self, hclassified]
    · rw [flags_put_of_ne s hpq, flags_put_of_ne s' hpq]
      exact hflags hbefore q fun hmem => (List.mem_cons.1 hmem).elim (Ne.symm hpq) hrest

theorem aligned_checkContents (hL : Lasting L) (ho : s'.owner = s.owner)
    (hconst : s.ConstantsLike r) (budget : Nat) :
    Paired (Machine.Aligned r L) (fun a b => a.2 = b.2 ∧ (a.2 = none → a.1.flags = b.1.flags))
      (s.checkContents budget) (s'.checkContents budget) := by
  rw [checkContents_eq, checkContents_eq]
  exact aligned_checkProperties hL budget Property.all ho hconst
    fun _ p hp => absurd p.mem_all hp

end Style

/-! ## Cards -/

namespace Template

/-- Fields of the same owners, with scripts whose constants are like themselves. -/
def FieldsMatch (r : Renaming) : List FieldCell → List FieldCell → Prop :=
  List.Forall₂ fun c c' => c.field.content.ConstantsLike r ∧ c'.field.shape = c.field.shape

/-- Styles of the same owners, with scripts whose constants are like themselves. -/
def StylesMatch (r : Renaming) : List StyleCell → List StyleCell → Prop :=
  List.Forall₂ fun c c' => c.style.ConstantsLike r ∧ c'.style.owner = c.style.owner

theorem aligned_linkFields (hL : Lasting L) {cells cells' : List FieldCell}
    (h : FieldsMatch r cells cells') (budget index : Nat) :
    Paired (Machine.Aligned r L) (fun _ _ => True) (linkFields budget index cells)
      (linkFields budget index cells') := by
  induction h generalizing index with
  | nil => exact paired_pure trivial
  | @cons c c' cells cells' hc _ ih =>
    have hscript : c'.field.content.script = c.field.content.script :=
      congrArg (fun shape => shape.2.1) hc.2
    have htrack := Computed.aligned_trackReads hL hscript hc.1 budget ⟨.cardField, index⟩
    exact htrack.bind fun _ _ _ => ih (index + 1)

/-- The same failure, or the same content flags of the scripted properties. -/
def SameFlags (cells cells' : List StyleCell) (failure failure' : Option EvalError) : Prop :=
  failure = failure' ∧
    (failure = none → cells.map (·.style.flags) = cells'.map (·.style.flags))

theorem aligned_linkStyles (hL : Lasting L) {cells cells' : List StyleCell}
    (h : StylesMatch r cells cells') (budget index : Nat) :
    Paired (Machine.Aligned r L) (fun a b => SameFlags a.1 b.1 a.2 b.2)
      (linkStyles budget index cells) (linkStyles budget index cells') := by
  have hfailed : ∀ {cells cells' : List StyleCell} (e : EvalError),
      SameFlags cells cells' (some e) (some e) := fun e => ⟨rfl, fun h => by cases h⟩
  induction h generalizing index with
  | nil => exact paired_pure ⟨rfl, fun _ => rfl⟩
  | @cons c c' cells cells' hc _ ih =>
    have htrack := Style.aligned_trackReads hL hc.2 hc.1 budget ⟨.style, index⟩
    refine htrack.attempt.bind fun a b hab => ?_
    rcases a with e | _ <;> rcases b with e' | _
    · obtain rfl : e = e' := Stop.error.inj hab
      exact paired_pure (hfailed e)
    · cases hab
    · cases hab
    refine (Style.aligned_checkContents hL hc.2 hc.1 budget).bind fun a b hab => ?_
    obtain ⟨style, failure⟩ := a
    obtain ⟨style', failure'⟩ := b
    obtain ⟨hfailure, hflags⟩ := hab
    obtain rfl : failure = failure' := hfailure
    cases failure with
    | some e => exact paired_pure (hfailed e)
    | none =>
      refine (ih (index + 1)).bind fun rest rest' hrest => paired_pure ⟨hrest.1, fun hnone => ?_⟩
      exact congrArg₂ List.cons (hflags rfl) (hrest.2 hnone)

/-- All passes over a card and one with the same owners and scripts. -/
theorem aligned_trackAll (hL : Lasting L) {t t' : Template}
    (hfields : FieldsMatch r t.fields t'.fields) (hstyles : StylesMatch r t.styles t'.styles)
    (budget : Nat) :
    Paired (Machine.Aligned r L) (fun a b => SameFlags a.1.styles b.1.styles a.2 b.2)
      (t.trackAll budget) (t'.trackAll budget) := by
  have hdirty : ∀ cells : List StyleCell, ∀ t : Template,
      ({ t with styles := cells } : Template).markAllDirty.styles.map (·.style.flags) =
        cells.map (·.style.flags) := fun cells t => List.map_map ..
  refine (aligned_linkFields hL hfields budget 0).attempt.bind fun a b hab => ?_
  rcases a with e | _ <;> rcases b with e' | _
  · obtain rfl : e = e' := Stop.error.inj hab
    exact paired_pure ⟨rfl, fun h => by cases h⟩
  · cases hab
  · cases hab
  refine (aligned_linkStyles hL hstyles budget 0).bind fun a b hab => ?_
  obtain ⟨cells, failure⟩ := a
  obtain ⟨cells', failure'⟩ := b
  obtain ⟨hfailure, hflags⟩ := hab
  obtain rfl : failure = failure' := hfailure
  cases failure with
  | some e => exact paired_pure ⟨rfl, fun h => by cases h⟩
  | none =>
    refine paired_pure ⟨rfl, fun _ => ?_⟩
    exact (hdirty cells t).trans ((hflags rfl).trans (hdirty cells' t').symm)

end Template

end ReactiveScript
