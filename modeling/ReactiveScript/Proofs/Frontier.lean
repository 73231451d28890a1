import ReactiveScript.Proofs.Paths
import ReactiveScript.Proofs.Schedule

/-
  The paths of a pass cover what an evaluation can reach.

  In code without loops and calls every position has a height, which is that of the frame there on
  every path (`Branching`). A position and the origins there are covered by a pass if some path of it
  stands or waits there and covers the origins (`Frontier`). Choosing a path, resuming it and joining
  the others that wait there keep all that is covered (`arrive`).
-/

namespace ReactiveScript

/-- How an instruction at `pos` with operand `n` changes the height of the frame. Jumps go forward;
code with loops or calls is not of this kind. -/
def HeightsAt (H : Nat → Nat) (pos : Nat) (op : Opcode) (n : Nat) : Prop :=
  match op with
  | .nop => H (pos + 1) = H pos
  | .pushConst | .getVar => H (pos + 1) = H pos + 1
  | .pop => H pos = H (pos + 1) + 1
  | .dup => n < H pos ∧ H (pos + 1) = H pos + 1
  | .jump => pos < n ∧ H n = H pos
  | .jumpIfNot => pos < n ∧ H pos = H (pos + 1) + 1 ∧ H n = H (pos + 1)
  | .jumpScAnd | .jumpScOr => pos < n ∧ H n = H pos ∧ H pos = H (pos + 1) + 1
  | .setVar | .memberC | .unary => 0 < H pos ∧ H (pos + 1) = H pos
  | .binary => H pos = H (pos + 1) + 1 ∧ 0 < H (pos + 1)
  | .makeObject => 2 * n ≤ H pos ∧ H (pos + 1) + 2 * n = H pos + 1
  | .ternary => 3 ≤ H pos ∧ H (pos + 1) + 2 = H pos
  | .quaternary => 4 ≤ H pos ∧ H (pos + 1) + 3 = H pos
  | .ret => True
  | _ => False

/-- Code without loops and calls, with the height of the frame at each position. It binds only
variables that are `free`. -/
structure Branching (s : Script Value) (H : Nat → Nat) (free : Variable → Prop) : Prop where
  start : H 0 = 0
  heights : ∀ (pos : Nat) (i : Instruction), s.code[pos]? = some i → HeightsAt H pos i.opcode i.operand
  binds : ∀ (pos : Nat) (i : Instruction), s.code[pos]? = some i → i.opcode = .setVar → free ⟨i.operand⟩

theorem Branching.mono {s : Script Value} {H : Nat → Nat} {free free' : Variable → Prop}
    (h : Branching s H free) (hfree : ∀ var, free var → free' var) : Branching s H free' :=
  ⟨h.start, h.heights, fun pos i hi hop => hfree _ (h.binds pos i hi hop)⟩

namespace Run

open World

/-- The state of a pass over branching code: `below` lies under its frame, and its scope was entered
in `outer`. -/
structure PassState (w : World) (r : Region) (outer : Environment) (below : List Value)
    (H : Nat → Nat) (wk : Walk) (m : Machine) : Prop where
  fits : w.Fits m
  separates : w.Separates
  mark : r.mark = outer.hiddenCount
  base : below.length = r.base
  frame : ∃ f, m.context.stack = f ++ below ∧ (wk.live = true → f.length = H wk.pos)
  inside : Environment.Inside outer m.context.env
  /-- What the variables held before covers nothing. -/
  outside : ∀ var v g, outer.get? var = some v → ¬ Covers w.old g v
  paths : ∀ path ∈ wk.pending, w.KnowsPath path ∧ path.frame.length = H path.target ∧
    ∀ b ∈ path.bindings, outer.BoundedAt b.1
  result : w.Knows wk.result

/-- The current path covers the origins. -/
structure CoversLive (old : Ident → Prop) (below : List Value) (o : Origins) (m : Machine) :
    Prop where
  frame : ∃ f, m.context.stack = f ++ below ∧ List.Forall₂ (CoversOrigin old) o.frame f
  vars : ∀ var g, o.vars var = .node g → m.context.env.CoversAt old var g

/-- A waiting path covers the origins. -/
structure CoversPath (old : Ident → Prop) (o : Origins) (path : WaitingPath) : Prop where
  frame : List.Forall₂ (CoversOrigin old) o.frame path.frame
  vars : ∀ var g, o.vars var = .node g → ∃ v, Covers old g v ∧
    (var, some v) ∈ path.bindings ∧ ∀ u, (var, u) ∈ path.bindings → u = some v

/-- The current path stands at a position and covers the origins, or a waiting one does. -/
def Frontier (old : Ident → Prop) (below : List Value) (wk : Walk) (m : Machine) (pos : Nat)
    (o : Origins) : Prop :=
  wk.live = true ∧ wk.pos = pos ∧ CoversLive old below o m ∨
    ∃ path ∈ wk.pending, path.target = pos ∧ CoversPath old o path

variable {w : World} {r : Region} {outer : Environment} {below : List Value} {H : Nat → Nat}
  {wk : Walk} {m : Machine}

/-! ## Resuming and joining -/

/-- A path that is resumed covers what it covered. -/
theorem resumed_covers {path : WaitingPath} {o : Origins} (st : PassState w r outer below H wk m)
    (h : CoversPath w.old o path) : CoversLive w.old below o (resumePath r path m).2 := by
  obtain ⟨f, hs, -⟩ := st.frame
  refine ⟨⟨path.frame, ?_, h.frame⟩, fun var g hg => ?_⟩
  · show path.frame ++ bottom r.base m.context.stack = _
    rw [hs, bottom_append st.base]
  · obtain ⟨v, hc, hmem, huniq⟩ := h.vars var g hg
    have hslot := Environment.slot?_setAll (mem_boundOnly.2 hmem) fun u hu =>
      Option.some.inj (huniq (some u) (mem_boundOnly.1 hu))
    exact ⟨v, congrArg (Option.map Slot.value) (hslot (m.context.env.unwindTo r.mark)), hc⟩

theorem resumed_state {path : WaitingPath} {rest : List WaitingPath}
    (st : PassState w r outer below H wk m) (hperm : wk.pending.Perm (path :: rest)) :
    PassState w r outer below H { wk with pos := path.target, live := true, pending := rest }
      (resumePath r path m).2 := by
  obtain ⟨f, hs, -⟩ := st.frame
  obtain ⟨hknown, hlen, hbounded⟩ := st.paths path (hperm.mem_iff.2 List.mem_cons_self)
  refine ⟨fits_resumed st.fits hknown r, st.separates, st.mark, st.base,
    ⟨path.frame, ?_, fun _ => hlen⟩, ?_, st.outside, fun other ho =>
      st.paths other (hperm.mem_iff.2 (List.mem_cons_of_mem _ ho)), st.result⟩
  · show path.frame ++ bottom r.base m.context.stack = _
    rw [hs, bottom_append st.base]
  · show Environment.Inside outer
      ((m.context.env.unwindTo r.mark).setAll (boundOnly path.bindings))
    rw [st.mark]
    exact st.inside.unwindTo.setAll fun b hb => hbounded _ (mem_boundOnly.1 hb)

/-- A path that is joined covers on the current one what it covered, and so does the current one. -/
theorem joined_covers {path : WaitingPath} {m' : Machine} {o : Origins}
    (st : PassState w r outer below H wk m) (hlive : wk.live = true) (hp : w.KnowsPath path)
    (hlen : path.frame.length = H wk.pos) (hj : Joined w r.base m path m')
    (h : CoversLive w.old below o m ∨ CoversPath w.old o path) :
    CoversLive w.old below o m' := by
  obtain ⟨f, hs, hf⟩ := st.frame
  have hsame : f.length = path.frame.length := (hf hlive).trans hlen.symm
  obtain ⟨f', hs', -, heither⟩ := hj.frame f below st.base hs hsame
  have hknown : ∀ v ∈ f, w.Knows v := fun v hv =>
    st.fits.stack v (hs ▸ List.mem_append_left _ hv)
  refine ⟨⟨f', hs', (heither st.separates).covers hknown hp.frame hsame ?_⟩, fun var g hg =>
    hj.covers st.separates var g ?_⟩
  · refine h.imp (fun h => ?_) fun h => h.frame
    obtain ⟨f₁, hs₁, hc⟩ := h.frame
    rwa [List.append_cancel_right (hs.symm.trans hs₁)]
  · refine h.imp (fun h => h.vars var g hg) fun h => ?_
    obtain ⟨v, hc, hmem, -⟩ := h.vars var g hg
    exact ⟨v, hmem, hc⟩

theorem joined_state {w' : World} {path : WaitingPath} {rest : List WaitingPath} {m' : Machine}
    (st : PassState w r outer below H wk m) (hlive : wk.live = true)
    (hperm : wk.pending.Perm (path :: rest)) (htarget : path.target = wk.pos) (hle : w.Le w')
    (hfit : w'.Fits m') (hj : Joined w r.base m path m') :
    PassState w' r outer below H { wk with pending := rest } m' := by
  obtain ⟨f, hs, hf⟩ := st.frame
  obtain ⟨-, hlen, hbounded⟩ := st.paths path (hperm.mem_iff.2 List.mem_cons_self)
  rw [htarget] at hlen
  obtain ⟨f', hs', hlen', -⟩ := hj.frame f below st.base hs ((hf hlive).trans hlen.symm)
  obtain ⟨added, henv, hkeys⟩ := hj.env
  refine ⟨hfit, hle.separates st.separates, st.mark, st.base,
    ⟨f', hs', fun _ => hlen'.trans (hf hlive)⟩, ?_, hle.old ▸ st.outside, fun other ho => ?_,
    hle.knows st.result⟩
  · rw [henv]
    refine st.inside.setAll fun b hb => ?_
    obtain ⟨c, hc, he⟩ := List.mem_map.1 (hkeys b hb)
    exact he ▸ hbounded c hc
  · obtain ⟨h1, h2, h3⟩ := st.paths other (hperm.mem_iff.2 (List.mem_cons_of_mem _ ho))
    exact ⟨hle.knowsPath h1, h2, h3⟩

/-- When a path has been chosen and joined with all that wait there, everything that was covered on
the frontier still is, and what is covered here is covered by the current path. -/
theorem arrive {wk₁ wk₂ : Walk} {m₁ m₂ : Machine} (st : PassState w r outer below H wk m)
    (h₁ : resume r wk m = (.ok (some wk₁), m₁))
    (h₂ : mergeWaiting r wk₁ wk₁.pending.length m₁ = (.ok wk₂, m₂)) :
    ∃ w', w.Le w' ∧ PassState w' r outer below H wk₂ m₂ ∧ wk₂.live = true ∧
      ∀ pos o, Frontier w.old below wk m pos o →
        pos = wk₂.pos ∧ CoversLive w.old below o m₂ ∨
          ∃ path ∈ wk₂.pending, path.target = pos ∧ CoversPath w.old o path := by
  -- the path chosen
  have hres : wk₁.live = true ∧ PassState w r outer below H wk₁ m₁ ∧
      ∀ pos o, Frontier w.old below wk m pos o → Frontier w.old below wk₁ m₁ pos o := by
    rcases resume_cases r wk m with ⟨hl, hr⟩ | ⟨-, -, hr⟩ | ⟨hl, path, rest, hperm, -, hr⟩
    · rw [h₁] at hr
      cases hr
      exact ⟨hl, st, fun _ _ h => h⟩
    · rw [h₁] at hr
      cases hr
    · rw [h₁] at hr
      cases hr
      refine ⟨rfl, resumed_state st hperm, fun pos o h => ?_⟩
      rcases h with ⟨hl', -⟩ | ⟨other, ho, hpos, hc⟩
      · rw [hl] at hl'; cases hl'
      · rcases List.mem_cons.1 (hperm.mem_iff.1 ho) with rfl | ho
        · exact .inl ⟨rfl, hpos, resumed_covers st hc⟩
        · exact .inr ⟨other, ho, hpos, hc⟩
  obtain ⟨hlive₁, st₁, hfront₁⟩ := hres
  -- the paths joined with it
  have hmerge := mergeWaiting_keeps (r := r)
    (Q := fun wk' m' => wk'.live = true ∧ ∃ w', w.Le w' ∧ PassState w' r outer below H wk' m' ∧
      ∀ pos o, Frontier w.old below wk m pos o → Frontier w.old below wk' m' pos o) ?_
    wk₁.pending.length ⟨hlive₁, w, .refl w, st₁, hfront₁⟩ h₂
  · obtain ⟨⟨hlive₂, w₂, hle₂, st₂, hfront₂⟩, hnone⟩ := hmerge
    refine ⟨w₂, hle₂, st₂, hlive₂, fun pos o h => ?_⟩
    rcases hfront₂ pos o h with ⟨-, hpos, hc⟩ | hpath
    · exact .inl ⟨hpos.symm, hc⟩
    · exact .inr hpath
  · rintro wk' m' path rest m'' hperm htarget hrun ⟨hlive', w', hle', st', hfront'⟩
    have hp := st'.paths path (hperm.mem_iff.2 List.mem_cons_self)
    have hafter := after_mergePath (r := r) st'.fits hp.1
    obtain ⟨w'', hle'', hfit'', hj⟩ := hafter () (by rw [hrun])
    rw [hrun] at hfit'' hj
    have hcov := fun o => joined_covers (o := o) st' hlive' hp.1 (htarget ▸ hp.2.1) hj
    rw [hle'.old] at hcov
    refine ⟨hlive', w'', hle'.trans hle'', joined_state st' hlive' hperm htarget hle'' hfit'' hj,
      fun pos o h => ?_⟩
    rcases hfront' pos o h with ⟨hl, hpos, hc⟩ | ⟨other, ho, hpos, hc⟩
    · exact .inl ⟨hl, hpos, hcov o (.inl hc)⟩
    · rcases List.mem_cons.1 (hperm.mem_iff.1 ho) with rfl | ho
      · exact .inl ⟨hlive', htarget.symm.trans hpos, hcov o (.inr hc)⟩
      · exact .inr ⟨other, ho, hpos, hc⟩

end Run

end ReactiveScript
