import ReactiveScript.Proofs.Raises

/-
  The errors that escape.

  An error of a limit can not be recovered from: wherever in an evaluation it is raised, however
  deep in calls of scripts and host functions, the evaluation ends with it (`limit_escapes`). The
  call sites noted when an evaluation fails are those of all errors it raised, also of those that
  were recovered from before, so they are the sites of the error that escaped only if those unwound
  through no call (`frames_of_escaped`).
-/

namespace ReactiveScript.Run

open Traced (UnwindsTo forgotten nothing)

/-- What an evaluation raises, and what becomes of it. The outermost evaluation begins without call
sites. -/
theorem eval_unwinds (budget : Nat) (s : Script Value) (ownScope : Bool) (m : Machine) :
    UnwindsTo none ((Traced.eval budget s ownScope).raises m) (forgotten m) nothing
      (eval budget s ownScope m) := by
  obtain ⟨hrun, hraises⟩ :=
    Traced.evalWith_eq (Traced.callFor budget) s budget ownScope m
  have hrun : eval budget s ownScope m = _ :=
    (congrFun (Traced.run_eval budget s ownScope) m).symm.trans hrun
  have hraises : (Traced.eval budget s ownScope).raises m = _ := hraises
  rw [hrun, hraises]
  have hsound : Traced.Sound (fun _ => True) none nothing
      (Traced.result (Traced.callFor budget) budget s ownScope) :=
    Traced.sound_result (Traced.sound_callFor budget) budget s ownScope
  exact hsound (forgotten m) trivial

/-- Either the last error raised is the one that an evaluation failed with, or it did not fail. No
error but that one was of a limit. -/
theorem unwindsTo_cases {raises : List Raise} {m : Machine} {out : Except Stop Value × Machine}
    (h : UnwindsTo none raises m nothing out) :
    (∃ recovered escaped, raises = recovered ++ [escaped] ∧
      out.1 = .error (.error escaped.error) ∧ ∀ r ∈ recovered, r.error.isLimit = false) ∨
    ((∀ e, out.1 ≠ .error (.error e)) ∧ ∀ r ∈ raises, r.error.isLimit = false) := by
  obtain ⟨givenUp, heq, hgivenUp⟩ := h.accounts
  obtain ⟨recovered, last, rfl, rfl, hlast⟩ := List.map_eq_append_iff.mp heq
  have hrecovered : ∀ r ∈ recovered, r.error.isLimit = false := fun r hr =>
    hgivenUp _ (List.mem_map_of_mem hr)
  rcases out with ⟨(e | _ | _ | _) | v, m'⟩
  · obtain ⟨escaped, rfl, rfl⟩ := List.map_eq_singleton_iff.mp hlast
    exact .inl ⟨recovered, escaped, rfl, rfl, hrecovered⟩
  all_goals
    obtain rfl := List.map_eq_nil_iff.mp hlast
    rw [List.append_nil]
    exact .inr ⟨nofun, hrecovered⟩

/-! ## Limits -/

/-- Once the error of a limit is raised, nothing else is, and the evaluation fails with it. -/
theorem limit_escapes (budget : Nat) (s : Script Value) (ownScope : Bool) (m : Machine)
    {raise : Raise} (hraised : raise ∈ (Traced.eval budget s ownScope).raises m)
    (hlimit : raise.error.isLimit = true) :
    (eval budget s ownScope m).1 = .error (.error raise.error) ∧
      ∃ earlier, (Traced.eval budget s ownScope).raises m = earlier ++ [raise] := by
  rcases unwindsTo_cases (eval_unwinds budget s ownScope m) with
    ⟨recovered, escaped, hsplit, hout, hrecovered⟩ | ⟨-, hrecovered⟩
  · rw [hsplit] at hraised ⊢
    rcases List.mem_append.mp hraised with hr | hr
    · cases hlimit.symm.trans (hrecovered raise hr)
    · obtain rfl := List.mem_singleton.mp hr
      exact ⟨hout, recovered, rfl⟩
  · cases hlimit.symm.trans (hrecovered raise hraised)

/-- Calls a function without name or arguments and returns its result, or one after an error. -/
def callsOr (function : Value) : Script Value :=
  ⟨0, #[.of .pushConst 0, .of .call 0, .of .pushConst 1, .of .binary (Family.code BinaryOp.orElse),
    .of .ret 0], #[function, .int 1]⟩

/-- A host function that evaluates a script and passes its errors on, with a context. -/
def loads (s : Script Value) : Value :=
  .builtin 1 ⟨"load", .actions [.within ["loading"] (.eval s true)], none⟩

/-- One call is allowed. The second one, which the script that the host function evaluates makes, is
one too many, and neither script recovers from that. -/
theorem limit_escapes_nested :
    (eval 8 (callsOr (loads (callsOr (.script bindsTrue)))) true newMachine).1 =
      .error (.error (.stackOverflow 1 1)) := by
  have hraises : (Traced.eval 8 (callsOr (loads (callsOr (.script bindsTrue)))) true).raises
      newMachine = [⟨.stackOverflow 1 1, ["in function <script>", "in function <builtin load>"]⟩] := by
    decide +kernel
  exact (limit_escapes 8 (callsOr (loads (callsOr (.script bindsTrue)))) true newMachine
    (hraises ▸ List.mem_singleton_self _) rfl).1

/-! ## Call sites -/

/-- What is taken as the call sites of an error, when an outermost evaluation has failed with it, are
the sites of every error raised meanwhile, the one that escaped being the last. -/
theorem frames_of_escaped (budget : Nat) (s : Script Value) (ownScope : Bool) {m : Machine}
    {e : EvalError} (hdepth : m.context.callDepth = 0)
    (heval : (eval budget s ownScope m).1 = .error (.error e)) :
    ∃ recovered escaped, (Traced.eval budget s ownScope).raises m = recovered ++ [escaped] ∧
      escaped.error = e ∧
      (takeFrames (eval budget s ownScope m).2).1 =
        .ok (recovered.flatMap (·.sites) ++ escaped.sites) ∧
      ((takeFrames (eval budget s ownScope m).2).1 = .ok escaped.sites ↔
        ∀ r ∈ recovered, r.sites = []) := by
  have hunwinds := eval_unwinds budget s ownScope m
  rcases unwindsTo_cases hunwinds with ⟨recovered, escaped, hsplit, hout, -⟩ | ⟨hout, -⟩
  · have hreturned : Returned (eval budget s ownScope m).1 := by
      rw [heval]
      trivial
    have hforgotten : (forgotten m).context.backtrace = [] := by
      unfold forgotten
      rw [if_pos hdepth]
      rfl
    have hframes : (takeFrames (eval budget s ownScope m).2).1 =
        .ok (recovered.flatMap (·.sites) ++ escaped.sites) := by
      show Except.ok (eval budget s ownScope m).2.context.backtrace = _
      rw [hunwinds.backtrace hreturned, hforgotten, hsplit, List.flatMap_append, List.nil_append,
        List.flatMap_singleton]
    refine ⟨recovered, escaped, hsplit, ?_, hframes, ?_⟩
    · cases heval.symm.trans hout
      rfl
    · rw [hframes, Except.ok.injEq, List.append_left_eq_self, List.flatMap_eq_nil_iff]
  · exact absurd heval (hout e)

/-- Reads a variable. -/
def reads (var : Variable) : Script Value := ⟨0, #[.of .getVar var.id, .of .ret 0], #[]⟩

/-- Calls a function, replaces its error, and then reads a variable. -/
def recoversThenReads (function : Value) (var : Variable) : Script Value :=
  ⟨0, #[.of .pushConst 0, .of .call 0, .of .pushConst 1, .of .binary (Family.code BinaryOp.orElse),
    .of .pop 0, .of .getVar var.id, .of .ret 0], #[function, .int 1]⟩

/-- A machine on which nothing has a value yet. -/
def namedMachine : Machine := ⟨.ofSettings ⟨9, false, 0⟩, { Store.empty with
  names := ⟨#["lost", "absent"]⟩ }⟩

/-- A host function runs a script that fails for want of `lost`; the error is given up, and then
`absent` has no value. -/
def lostThenAbsent : Script Value :=
  recoversThenReads (loads (callsOr (.script (reads ⟨0⟩)))) ⟨1⟩

/-- The error that escapes unwinds through no call; the call that is noted is that of the error that
was given up. -/
theorem frames_of_escaped_recovered :
    (Traced.eval 9 lostThenAbsent true).raises namedMachine =
      [⟨.unboundVariable "lost", ["in function <script>"]⟩, ⟨.unboundVariable "absent", []⟩] ∧
    (takeFrames (eval 9 lostThenAbsent true namedMachine).2).1 = .ok ["in function <script>"] := by
  have hraises : (Traced.eval 9 lostThenAbsent true).raises namedMachine =
      [⟨.unboundVariable "lost", ["in function <script>"]⟩] ++
        [⟨.unboundVariable "absent", []⟩] := by decide +kernel
  have hfails : (eval 9 lostThenAbsent true namedMachine).1 =
      .error (.error (.unboundVariable "absent")) := by decide +kernel
  obtain ⟨recovered, escaped, hsplit, -, hframes, -⟩ :=
    frames_of_escaped 9 lostThenAbsent true rfl hfails
  obtain ⟨rfl, hescaped⟩ := List.append_inj' (hraises.symm.trans hsplit) rfl
  obtain rfl := List.singleton_inj.mp hescaped
  exact ⟨hraises, hframes⟩

end ReactiveScript.Run
