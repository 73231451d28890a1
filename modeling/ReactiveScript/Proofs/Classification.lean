import ReactiveScript.Proofs.MirrorPass

/-
  Classification agrees with registration.

  A pass with a dummy dependency and one with a real dependency, started on the same machine, follow
  the same instructions, signal the same owners and come to the same result. The dummy is registered
  nowhere, and the content mark is set exactly if an owner of measured content was signalled; the
  real dependency is registered once with each owner that was signalled, and sets no mark
  (`Run.classification_agrees`).
-/

namespace ReactiveScript

open Value (Like)

/-! ## Machines that mirror themselves -/

namespace Value

/-- The value is no object of the host and has no dependency hook. -/
def Unhosted : Value → Prop
  | .object _ (.host _) => False
  | .builtin _ f => f.hook = none
  | _ => True

theorem fixed_same (fixtures : Fixtures) {v : Value} (h : v.Unhosted) :
    Fixed (.same fixtures) v := by
  cases v with
  | object id body =>
    cases body with
    | host => exact h
    | _ => rfl
  | builtin id f => exact ⟨h, rfl⟩
  | iterator n => exact ⟨trivial, rfl⟩
  | collection | script | closure | composition => rfl
  | _ => trivial

theorem like_same (fixtures : Fixtures) {v : Value} (h : v.Every Unhosted) :
    Like (.same fixtures) v v :=
  like_self (h.mono fun _ => fixed_same fixtures)

end Value

variable {r : Renaming}

theorem likeSlot_self {slot : Option Slot} (h : Slot.All (fun v => Like r v v) slot) :
    LikeSlot r slot slot := by
  cases slot with
  | none => exact .none
  | some slot => exact .some ⟨rfl, h slot rfl⟩

/-- Environments that can not be told apart mirror one another if their values are like
themselves. -/
theorem Environment.Same.mirrors {env other : Environment} (h : env.Same other)
    (hlike : env.All fun v => Like r v v) : env.Mirrors r other := by
  refine ⟨fun var => ?_, ?_, h.level⟩
  · rw [← h.slots var]
    exact likeSlot_self (hlike.slots var)
  · rw [← h.shadowed]
    exact List.forall₂_same.2 fun b hb => ⟨rfl, likeSlot_self (hlike.shadowed b hb)⟩

theorem likeIteration_same (fixtures : Fixtures) {it : Iteration}
    (h : it.All (Value.Every Value.Unhosted)) : LikeIteration (.same fixtures) it it := by
  cases it with
  | collection items pos =>
    exact .collection ⟨Value.likeEach_self fun v hv => Value.like_same fixtures (h v hv), rfl⟩ pos
  | range next last index => exact .range next last index
  | host source drawn =>
    refine .host (fun i => ?_) drawn
    cases hi : source i with
    | none => exact .none
    | some entry =>
      obtain ⟨hkey, hvalue⟩ := h i entry hi
      exact .some ⟨Value.like_same fixtures hkey, Value.like_same fixtures hvalue⟩
  | empty => exact .empty

theorem Machine.All.mirrors_self {m : Machine} (h : m.All Value.Unhosted) :
    m.Mirrors (.same m.store.fixtures) m.store.marks m.store.marks m where
  store :=
    { fixtures := rfl
      fixtures' := rfl
      idents := fun _ => rfl
      handles := fun _ => ⟨trivial, rfl⟩
      iterations := fun n _ => by
        show LikeIteration (.same m.store.fixtures) (m.store.iterations[n]?.getD .empty)
          (m.store.iterations[n]?.getD .empty)
        cases hn : m.store.iterations[n]? with
        | none => exact .empty
        | some it => exact likeIteration_same _ (h.iterations it (Array.mem_of_getElem? hn))
      marks := rfl
      marks' := rfl }
  env := (Environment.Same.refl _).mirrors (h.env.mono fun _ => Value.like_same _)
  stack := List.forall₂_same.2 fun v hv => Value.like_same _ (h.stack v hv)
  settings := rfl
  callDepth := rfl
  registry _ := rfl
  analyzing := rfl

/-! ## What is noted of a log -/

namespace PassEvent

/-- The event is that an owner is signalled. -/
def signals (owner : OwnerId) : PassEvent → Bool
  | .visited _ _ => false
  | .signalled _ other => other == owner

/-- The event is that an owner of measured content is signalled. -/
def signalsContent : PassEvent → Bool
  | .visited _ _ => false
  | .signalled name _ => Node.isContentName name

theorem noteAll_dummy {dep : Dependency} (hdep : dep.isDummy = true) (k : Marks)
    (log : List PassEvent) : noteAll dep k log = (k.1, k.2 || log.any signalsContent) := by
  induction log generalizing k with
  | nil => simp [noteAll]
  | cons event rest ih =>
    have hnote : note dep k event = (k.1, k.2 || event.signalsContent) := by
      cases event <;> simp [note, signalsContent, hdep]
    have hrest := ih (note dep k event)
    rw [hnote] at hrest
    rw [List.any_cons, ← Bool.or_assoc, ← hrest, noteAll, List.foldl_cons, hnote]
    rfl

/-- The dependents of an owner when a dependency may have been registered with it. -/
def register (dep : Dependency) (signalled : Bool) (list : List Dependency) : List Dependency :=
  if signalled && !list.contains dep then list ++ [dep] else list

theorem register_false (dep : Dependency) : register dep false = id := by
  funext list
  simp [register]

theorem register_register (dep : Dependency) (a b : Bool) (list : List Dependency) :
    register dep b (register dep a list) = register dep (a || b) list := by
  unfold register
  cases a
  · simp
  · cases hmem : list.contains dep
    · simp
    · simp only [hmem, Bool.not_true, Bool.and_false, Bool.false_eq_true, if_false]

theorem nodup_register {dep : Dependency} {list : List Dependency} (h : list.Nodup)
    (signalled : Bool) : (register dep signalled list).Nodup := by
  unfold register
  split
  · next hnew =>
    have hfresh : dep ∉ list := by
      have hnot := (Bool.and_eq_true_iff.1 hnew).2
      simpa using hnot
    exact List.nodup_append.2 ⟨h, List.pairwise_singleton _ dep, fun a ha b hb e =>
      hfresh (List.mem_singleton.1 hb ▸ e ▸ ha)⟩
  · exact h

theorem mem_register {dep other : Dependency} {signalled : Bool} {list : List Dependency}
    (h : other ∈ register dep signalled list) : other = dep ∨ other ∈ list := by
  unfold register at h
  split at h
  · rcases List.mem_append.1 h with hold | hnew
    · exact .inr hold
    · exact .inl (List.mem_singleton.1 hnew)
  · exact .inr h

theorem subset_register (dep : Dependency) (signalled : Bool) (list : List Dependency) :
    list ⊆ register dep signalled list := by
  intro other hother
  unfold register
  split
  · exact List.mem_append_left _ hother
  · exact hother

theorem register_of_mem {dep : Dependency} {list : List Dependency} (h : dep ∈ list)
    (signalled : Bool) : register dep signalled list = list := by
  unfold register
  rw [List.contains_iff_mem.2 h, Bool.not_true, Bool.and_false]
  rfl

theorem mem_register_self (dep : Dependency) (list : List Dependency) :
    dep ∈ register dep true list := by
  by_cases h : dep ∈ list
  · exact subset_register dep true list h
  · unfold register
    simp [h]

theorem note_real {dep : Dependency} (hdep : dep.isDummy = false) (k : Marks) (event : PassEvent)
    (owner : OwnerId) :
    (note dep k event).1[owner]? = k.1[owner]?.map (register dep (event.signals owner)) := by
  cases event with
  | visited => simp [note, signals, register_false]
  | signalled name other =>
    by_cases ho : other = owner
    · subst ho
      cases hlist : k.1[other]? with
      | none => simp [note, hdep, Array.getElem?_eq_none_iff.1 hlist]
      | some list =>
        have hlt : other < k.1.size := (Array.getElem?_eq_some_iff.1 hlist).1
        have hnote : (note dep k (.signalled name other)).1 =
            if list.contains dep then k.1 else k.1.setIfInBounds other (list ++ [dep]) := by
          simp only [note, hdep, hlist, Bool.false_or, Option.getD_some]
        have hself : signals other (.signalled name other) = true := beq_self_eq_true other
        rw [hnote, hself, Option.map_some, register]
        cases list.contains dep
        · simp [hlt]
        · simp [hlist]
    · have hsame : (note dep k (.signalled name other)).1[owner]? = k.1[owner]? := by
        unfold note
        dsimp only
        split
        · rfl
        · rw [Array.getElem?_setIfInBounds, if_neg ho]
      have hother : signals owner (.signalled name other) = false := beq_eq_false_iff_ne.2 ho
      rw [hsame, hother, register_false, Option.map_id]
      rfl

/-- A real dependency is registered once with every owner that is signalled. -/
theorem noteAll_real {dep : Dependency} (hdep : dep.isDummy = false) (k : Marks)
    (log : List PassEvent) :
    (noteAll dep k log).2 = k.2 ∧ ∀ owner : OwnerId, (noteAll dep k log).1[owner]? =
      k.1[owner]?.map (register dep (log.any (signals owner))) := by
  induction log generalizing k with
  | nil => exact ⟨rfl, fun owner => by simp [noteAll, register_false]⟩
  | cons event rest ih =>
    obtain ⟨hmark, hlists⟩ := ih (note dep k event)
    have hcons : noteAll dep k (event :: rest) = noteAll dep (note dep k event) rest := rfl
    refine ⟨?_, fun owner => ?_⟩
    · rw [hcons, hmark]
      cases event <;> simp [note, hdep]
    · rw [hcons, hlists owner, note_real hdep, Option.map_map, List.any_cons]
      refine congrArg (k.1[owner]?.map ·) (funext fun list => ?_)
      exact register_register dep _ _ list

end PassEvent

/-! ## Two passes -/

namespace Run

open PassEvent

/-- Started on the same machine without host objects and hooks, the pass over a script with a dummy
and the one with a real dependency follow the same instructions, signal the same owners, in the same
order, and have the same outcome, whatever it is. The dummy is added to no list, and afterwards
measured content is marked exactly if it was before or an owner of it was signalled. The real
dependency leaves the mark as it is and is added to the lists of exactly the owners that were
signalled and did not have it, once. -/
theorem classification_agrees {m : Machine} (hm : m.All Value.Unhosted) {s : Script Value}
    (hs : ∀ v ∈ s.constants, v.Every Value.Unhosted) {dummy dep : Dependency}
    (hdummy : dummy.isDummy = true) (hdep : dep.isDummy = false) (budget : Nat) :
    let log := (Logged.trackReads budget dummy s).log m
    (Logged.trackReads budget dummy s).run = trackReads budget dummy s ∧
    (Logged.trackReads budget dep s).run = trackReads budget dep s ∧
    (Logged.trackReads budget dep s).log m = log ∧
    (trackReads budget dep s m).1 = (trackReads budget dummy s m).1 ∧
    (trackReads budget dummy s m).2.store.dependents = m.store.dependents ∧
    (trackReads budget dummy s m).2.store.contentRead =
      (m.store.contentRead || log.any signalsContent) ∧
    (trackReads budget dep s m).2.store.contentRead = m.store.contentRead ∧
    ∀ owner : OwnerId, (trackReads budget dep s m).2.store.dependents[owner]? =
      m.store.dependents[owner]?.map (register dep (log.any (signals owner))) := by
  have hconst : ∀ c ∈ s.constants, Like (.same m.store.fixtures) c c :=
    fun c hc => Value.like_same _ (hs c hc)
  obtain ⟨hlog, hrelated, hmirror⟩ := Logged.mirrored_trackReads dummy dep hconst budget
    m.store.marks m.store.marks m m hm.mirrors_self
  rw [Logged.run_trackReads, Logged.run_trackReads] at hrelated hmirror
  have hmarks := hmirror.store.marks
  have hmarks' := hmirror.store.marks'
  rw [noteAll_dummy hdummy] at hmarks
  obtain ⟨hmark, hlists⟩ := noteAll_real hdep m.store.marks
    ((Logged.trackReads budget dummy s).log m)
  refine ⟨Logged.run_trackReads budget dummy s, Logged.run_trackReads budget dep s, hlog.symm,
    ?outcome, congrArg Prod.fst hmarks, congrArg Prod.snd hmarks, ?mark, fun owner => ?lists⟩
  case outcome =>
    generalize (trackReads budget dummy s m).1 = out, (trackReads budget dep s m).1 = out'
      at hrelated
    rcases out with stop | v <;> rcases out' with stop' | v'
    · obtain rfl : stop = stop' := hrelated
      rfl
    · cases hrelated
    · cases hrelated
    · obtain rfl : v = v' := Like.eq_of_same hrelated
      rfl
  case mark => exact (congrArg Prod.snd hmarks').trans hmark
  case lists =>
    have hlist := hlists owner
    rw [← hmarks'] at hlist
    exact hlist

/-- A machine whose only variable with an owner is the measured height of a style. -/
def measuredMachine : Machine where
  context := { Context.ofSettings ⟨10, false, 0⟩ with
    registry := ⟨[(⟨0⟩, .owner "content height" 0)]⟩ }
  store := { Store.empty with dependents := #[[]] }

/-- A script that returns the variable. -/
def readsHeight : Script Value := ⟨0, #[.of .getVar 0, .of .ret 0], #[]⟩

theorem unhosted_measuredMachine : measuredMachine.All Value.Unhosted :=
  ⟨⟨fun _ _ h => (by cases h), fun _ h => (by cases h)⟩, fun _ h => (by cases h),
    fun _ h => absurd h (Array.not_mem_empty _)⟩

theorem classification_agrees_readsHeight :
    (trackReads 5 (.dummyOf 0) readsHeight measuredMachine).2.store.contentRead = true ∧
    (trackReads 5 ⟨.style, 3⟩ readsHeight measuredMachine).2.store.dependents[0]? =
      some [⟨.style, 3⟩] := by
  have hs : ∀ v ∈ readsHeight.constants, v.Every Value.Unhosted :=
    fun _ h => absurd h (Array.not_mem_empty _)
  have hdummy : (Dependency.dummyOf 0).isDummy = true := rfl
  have hdep : (⟨.style, 3⟩ : Dependency).isDummy = false := rfl
  obtain ⟨-, -, -, -, -, hmark, -, hlists⟩ :=
    classification_agrees unhosted_measuredMachine hs hdummy hdep 5
  refine ⟨?_, ?_⟩
  · rw [hmark]
    rfl
  · rw [hlists 0]
    rfl

end Run

end ReactiveScript
