import Mathlib.Data.List.Perm.Basic
import ReactiveScript.Proofs.Run
import ReactiveScript.Tracking.Walk

/-
  How a pass schedules its paths.

  When no path is followed, the waiting one with the lowest target is (`resume_cases`); then those
  that wait where it stands are joined with it, one by one. What one join keeps, all joins keep, and
  afterwards none waits there any more (`mergeWaiting_keeps`).
-/

namespace ReactiveScript

open List in
/-- Taking out an entry leaves all others. -/
theorem swapRemove_perm {α : Type} {list : List α} {index : Nat} {a : α}
    (h : list[index]? = some a) : list ~ a :: swapRemove list index := by
  obtain ⟨hlt, ha⟩ := List.getElem?_eq_some_iff.1 h
  have hne : list ≠ [] := fun e => by rw [e] at hlt; cases hlt
  obtain ⟨last, hlast⟩ : ∃ last, list.getLast? = some last :=
    ⟨_, List.getLast?_eq_some_getLast hne⟩
  have hsplit : list = list.dropLast ++ [last] := by
    rw [← List.dropLast_append_getLast? last hlast]
    simp
  have hlen : list.dropLast.length + 1 = list.length := by
    rw [List.length_dropLast]; omega
  unfold swapRemove
  rw [hlast]
  by_cases hi : index + 1 < list.length
  · simp only [if_pos hi]
    have hlt' : index < list.dropLast.length := by omega
    have ha' : list.dropLast[index] = a := by rw [List.getElem_dropLast, ha]
    have h1 : list.dropLast.set index last ~ last :: list.dropLast.eraseIdx index :=
      List.set_perm_cons_eraseIdx hlt' last
    have h2 : a :: list.dropLast.eraseIdx index ~ list.dropLast := by
      rw [← ha']
      exact List.getElem_cons_eraseIdx_perm hlt'
    calc
      list ~ list.dropLast ++ [last] := .of_eq hsplit
      _ ~ last :: list.dropLast := List.perm_append_singleton _ _
      _ ~ last :: a :: list.dropLast.eraseIdx index := h2.symm.cons last
      _ ~ a :: last :: list.dropLast.eraseIdx index := .swap a last _
      _ ~ a :: list.dropLast.set index last := h1.symm.cons a
  · simp only [if_neg hi]
    have hlast' : a = last := by
      have : list[index]? = some last := by
        rw [List.getLast?_eq_getElem?] at hlast
        rwa [show index = list.length - 1 by omega]
      rw [h] at this
      exact Option.some.inj this
    rw [hlast']
    calc
      list ~ list.dropLast ++ [last] := .of_eq hsplit
      _ ~ last :: list.dropLast := List.perm_append_singleton _ _

/-- A path that is resumed first has the lowest target. -/
theorem earliest?_spec {pending : List WaitingPath} (h : pending ≠ []) :
    ∃ index path, earliest? pending = some index ∧ pending[index]? = some path ∧
      ∀ other ∈ pending, path.target ≤ other.target := by
  obtain ⟨p, rest, rfl⟩ := List.exists_cons_of_ne_nil h
  unfold earliest?
  have hmin : ((p :: rest).map WaitingPath.target).min? =
      some ((rest.map WaitingPath.target).foldl min p.target) := rfl
  obtain ⟨hmem, hle⟩ := List.min?_eq_some_iff.1 hmin
  simp only [List.map_cons]
  generalize (rest.map WaitingPath.target).foldl min p.target = lowest at hmem hle ⊢
  obtain ⟨path, hpath, htarget⟩ := List.mem_map.1 hmem
  cases hf : (p :: rest).findIdx? fun q => q.target == lowest with
  | none =>
    have := List.findIdx?_eq_none_iff.1 hf path hpath
    simp [htarget] at this
  | some index =>
    obtain ⟨hlt, heq, -⟩ := List.findIdx?_eq_some_iff_getElem.1 hf
    refine ⟨index, (p :: rest)[index], rfl, List.getElem?_eq_getElem hlt, fun other ho => ?_⟩
    rw [beq_iff_eq.1 heq]
    exact hle _ (List.mem_map_of_mem ho)

namespace Run

variable {r : Region} {wk : Walk} {m : Machine}

/-- Nothing to resume, nothing left, or the path with the lowest target. -/
theorem resume_cases (r : Region) (wk : Walk) (m : Machine) :
    (wk.live = true ∧ resume r wk m = (.ok (some wk), m)) ∨
    (wk.live = false ∧ wk.pending = [] ∧ resume r wk m = (.ok none, m)) ∨
    (wk.live = false ∧ ∃ path rest, wk.pending.Perm (path :: rest) ∧
      (∀ other ∈ wk.pending, path.target ≤ other.target) ∧
      resume r wk m = (.ok (some { wk with pos := path.target, live := true, pending := rest }),
        (resumePath r path m).2)) := by
  unfold resume
  by_cases hl : wk.live = true
  · exact .inl ⟨hl, by simp only [if_pos hl]; rfl⟩
  · have hl' : wk.live = false := Bool.eq_false_iff.2 hl
    by_cases hp : wk.pending = []
    · refine .inr (.inl ⟨hl', hp, ?_⟩)
      simp only [if_neg hl, hp]
      rfl
    · obtain ⟨index, path, he, hi, hmin⟩ := earliest?_spec hp
      refine .inr (.inr ⟨hl', path, _, swapRemove_perm hi, hmin, ?_⟩)
      simp only [if_neg hl, he, hi]
      rfl

/-- The jumping path of a branch waits, unless it goes back once more. -/
theorem walkBranch_cases {P : Run Walk → Prop} {target : Nat}
    (ahead : wk.pos < target → P (do return wk.wait (← suspendPath r target)))
    (again : ¬ wk.pos < target → wk.pos ∈ wk.backEdges → P (pure wk))
    (back : ¬ wk.pos < target → wk.pos ∉ wk.backEdges → P (do
      return { wk with backEdges := wk.pos :: wk.backEdges }.wait (← suspendPath r target))) :
    P (walkBranch r wk target) := by
  unfold walkBranch
  by_cases hahead : target > wk.pos
  · simp only [if_pos hahead]
    exact ahead hahead
  · simp only [if_neg hahead]
    by_cases hagain : wk.backEdges.contains wk.pos = true
    · simp only [if_pos hagain]
      exact again hahead (List.contains_iff_mem.1 hagain)
    · simp only [if_neg hagain]
      exact back hahead fun hmem => hagain (List.contains_iff_mem.2 hmem)

/-- What every join keeps is kept by all of them; then no path waits here any more. -/
theorem mergeWaiting_keeps {Q : Walk → Machine → Prop}
    (hQ : ∀ wk m path rest m₁, wk.pending.Perm (path :: rest) → path.target = wk.pos →
      mergePath r path m = (.ok (), m₁) → Q wk m → Q { wk with pending := rest } m₁)
    (tries : Nat) {wk wk' : Walk} {m m' : Machine} (h : Q wk m)
    (hrun : mergeWaiting r wk tries m = (.ok wk', m')) :
    Q wk' m' ∧ (wk.pending.length ≤ tries → ∀ path ∈ wk'.pending, path.target ≠ wk'.pos) := by
  induction tries generalizing wk m with
  | zero =>
    cases hrun
    refine ⟨h, fun hl path hp => ?_⟩
    rw [List.eq_nil_of_length_eq_zero (Nat.le_zero.1 hl)] at hp
    cases hp
  | succ tries ih =>
    unfold mergeWaiting at hrun
    cases hf : wk.pending.findIdx? fun p => p.target == wk.pos with
    | none =>
      rw [hf] at hrun
      cases hrun
      refine ⟨h, fun _ path hp he => ?_⟩
      have := List.findIdx?_eq_none_iff.1 hf path hp
      simp [he] at this
    | some index =>
      obtain ⟨hlt, heq, -⟩ := List.findIdx?_eq_some_iff_getElem.1 hf
      have hi : wk.pending[index]? = some wk.pending[index] := List.getElem?_eq_getElem hlt
      rw [hf] at hrun
      simp only [hi] at hrun
      obtain ⟨_, m₁, h₁, hrun⟩ := run_bind_eq_ok hrun
      have hperm := swapRemove_perm hi
      obtain ⟨hQ', hnone⟩ := ih (hQ wk m _ _ m₁ hperm (beq_iff_eq.1 heq) h₁ h) hrun
      refine ⟨hQ', fun hl => hnone ?_⟩
      have := hperm.length_eq
      rw [List.length_cons] at this
      show (swapRemove wk.pending index).length ≤ tries
      omega

/-- A step of a pass ends it when nothing is left to follow. Otherwise a path is chosen, what waits
there is joined with it, and it is followed over an instruction or returns at the end of the code. -/
theorem walkStep_cases {analyse : Analyser} {dep : Dependency} {s : Script Value} {out : Option Walk}
    {m' : Machine} (h : walkStep analyse dep s r wk m = (.ok out, m')) :
    (out = none ∧ m' = m ∧ wk.live = false ∧ wk.pending = []) ∨
    ∃ wk₁ m₁ wk₂ m₂ wk', resume r wk m = (.ok (some wk₁), m₁) ∧
      mergeWaiting r wk₁ wk₁.pending.length m₁ = (.ok wk₂, m₂) ∧ out = some wk' ∧
      match s.code[wk₂.pos]? with
      | none => returnTop r wk₂ m₂ = (.ok wk', m')
      | some i => walkInstr analyse dep s r wk₂ i m₂ = (.ok wk', m') := by
  unfold walkStep at h
  obtain ⟨next, m₁, h₁, h⟩ := run_bind_eq_ok h
  cases next with
  | none =>
    cases h
    refine .inl ⟨rfl, ?_⟩
    rcases resume_cases r wk m with ⟨-, hr⟩ | ⟨hl, hp, hr⟩ | ⟨-, path, rest, -, -, hr⟩
    · rw [h₁] at hr; cases hr
    · rw [h₁] at hr; cases hr; exact ⟨rfl, hl, hp⟩
    · rw [h₁] at hr; cases hr
  | some wk₁ =>
    obtain ⟨wk₂, m₂, h₂, h⟩ := run_bind_eq_ok h
    refine .inr ⟨wk₁, m₁, wk₂, m₂, ?_⟩
    cases hi : s.code[wk₂.pos]? with
    | none =>
      rw [hi] at h
      obtain ⟨wk', m₃, h₃, h⟩ := run_bind_eq_ok h
      cases h
      exact ⟨wk', h₁, h₂, rfl, h₃⟩
    | some i =>
      rw [hi] at h
      obtain ⟨wk', m₃, h₃, h⟩ := run_bind_eq_ok h
      cases h
      exact ⟨wk', h₁, h₂, rfl, h₃⟩

/-- Resuming a path is the first part of a step. -/
theorem walkFrom_of_resume {analyse : Analyser} {dep : Dependency} {s : Script Value} {wk₁ : Walk}
    {m₁ : Machine} (budget : Nat) (h : resume r wk m = (.ok (some wk₁), m₁))
    (hlive : wk₁.live = true) (hresult : wk₁.result = wk.result) :
    walkFrom analyse dep s r (budget + 1) wk m = walkFrom analyse dep s r (budget + 1) wk₁ m₁ := by
  have hstay : resume r wk₁ m₁ = (.ok (some wk₁), m₁) := by
    unfold resume
    simp only [if_pos hlive]
    rfl
  have hstep : walkStep analyse dep s r wk m = walkStep analyse dep s r wk₁ m₁ := by
    unfold walkStep
    rw [run_bind_ok h, run_bind_ok hstay]
  unfold walkFrom
  rw [run_bind, run_bind, hstep, hresult]

/-- Nothing is left to follow. -/
theorem walkFrom_finished {analyse : Analyser} {dep : Dependency} {s : Script Value} {budget : Nat}
    {v : Value} {m' : Machine} (hlive : wk.live = false) (hpending : wk.pending = [])
    (hrun : walkFrom analyse dep s r budget wk m = (.ok v, m')) : m = m' := by
  have hresume : resume r wk m = (.ok none, m) := by
    rcases resume_cases r wk m with ⟨hl, -⟩ | ⟨-, -, hr⟩ | ⟨-, path, rest, hperm, -⟩
    · rw [hlive] at hl
      cases hl
    · exact hr
    · rw [hpending] at hperm
      cases hperm.nil_eq
  cases budget with
  | zero => cases hrun
  | succ budget =>
    unfold walkFrom walkStep at hrun
    rw [run_bind, run_bind_ok hresume] at hrun
    cases hrun
    rfl

/-- Where a pass over a script begins: in a scope of its own with the arguments. -/
def passStart (s : Script Value) (args : Bindings) (m : Machine) : Machine :=
  ⟨{ m.context with
    analyzing := m.context.analyzing ++ [s.id]
    env := m.context.env.enterScope.2.setAll args }, m.store⟩

/-- The frame and the scope of a pass. -/
def passRegion (m : Machine) : Region := ⟨m.context.stack.length, m.context.env.hiddenCount⟩

/-- A pass follows all paths, leaves its scope and drops its frame. -/
theorem run_passWith (analyse : Analyser) (budget : Nat) (dep : Dependency) (s : Script Value)
    (args : Bindings) (m : Machine) :
    passWith analyse budget dep s args m =
      (attempt (walkFrom analyse dep s (passRegion m) budget .start) >>= fun result => do
        leaveScope m.context.env.hiddenCount
        truncate m.context.stack.length
        change fun c => { c with analyzing := c.analyzing.filter (· ≠ s.id) }
        ofExcept result) (passStart s args m) := rfl

/-- What a pass over a script, which began with `m`, makes of the machine in which it ended. -/
def passEnd (s : Script Value) (m m₁ : Machine) : Machine :=
  ⟨{ m₁.context with
    env := m₁.context.env.leaveScope m.context.env.hiddenCount
    stack := m₁.context.stack.drop (m₁.context.stack.length - m.context.stack.length)
    analyzing := m₁.context.analyzing.filter (· ≠ s.id) }, m₁.store⟩

/-- A pass that comes back tidies up, also after an error. -/
theorem passWith_cases {analyse : Analyser} {budget : Nat} {dep : Dependency} {s : Script Value}
    {args : Bindings} (hr : Returned (passWith analyse budget dep s args m).1) :
    ∃ m₁, passWith analyse budget dep s args m =
        ((walkFrom analyse dep s (passRegion m) budget .start (passStart s args m)).1,
          passEnd s m m₁) ∧
      (walkFrom analyse dep s (passRegion m) budget .start (passStart s args m)).2 = m₁ ∧
      Returned (walkFrom analyse dep s (passRegion m) budget .start (passStart s args m)).1 := by
  rw [run_passWith] at hr ⊢
  rcases attempt_cases hr with ⟨e, m₁, hx, he⟩ | ⟨v, m₁, hx, he⟩
  · rw [he, hx]
    exact ⟨m₁, rfl, rfl, trivial⟩
  · rw [he, hx]
    exact ⟨m₁, rfl, rfl, trivial⟩

/-- A pass that succeeds has followed all paths. -/
theorem walkFrom_of_passWith {analyse : Analyser} {budget : Nat} {dep : Dependency}
    {s : Script Value} {args : Bindings} {v : Value} {m' : Machine}
    (h : passWith analyse budget dep s args m = (.ok v, m')) :
    ∃ m₁, walkFrom analyse dep s (passRegion m) budget .start (passStart s args m) = (.ok v, m₁) ∧
      m'.store = m₁.store := by
  rw [run_passWith] at h
  obtain ⟨result, m₁, hattempt, hend⟩ := run_bind_eq_ok h
  rw [run_attempt] at hattempt
  generalize walkFrom _ _ _ _ _ _ _ = out at hattempt ⊢
  rcases out with ⟨(e | _ | _ | _) | u, m₂⟩ <;> cases hattempt <;> cases hend
  exact ⟨m₁, rfl, rfl⟩

/-- A pass whose budget runs out. -/
theorem passWith_of_exhausted {analyse : Analyser} {budget : Nat} {dep : Dependency}
    {s : Script Value} {args : Bindings} {m' : Machine}
    (h : walkFrom analyse dep s (passRegion m) budget .start (passStart s args m) =
      (.error .exhausted, m')) :
    passWith analyse budget dep s args m = (.error .exhausted, m') := by
  rw [run_passWith, run_bind, run_attempt, h]

end Run

end ReactiveScript
