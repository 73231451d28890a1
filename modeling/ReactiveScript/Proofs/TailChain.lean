import Mathlib.Logic.Relation
import ReactiveScript.Proofs.Calm
import ReactiveScript.Proofs.TailCalls

/-
  Chains of tail calls.

  The scripts of a chain run on one frame, one after the other: each leaves it by a tail call that
  closes its scope and opens that of the next. A `Link` is a script that is about to run there. From
  link to link everything is retained (`Link.Next.retained`), so however long a chain is, each link
  starts at the same call depth, at the same level, with as many hidden bindings and on a stack of
  the same height (`tailCalls_keep_footing`). A tail call is no call: it is not counted, and so the
  chain as a whole needs no more depth than its first link.
-/

namespace ReactiveScript.Run

open Relation

/-! ## Links -/

/-- A script with its arguments, and the machine in which its scope is about to be opened. -/
structure Link where
  script : Script Value
  arguments : Bindings
  machine : Machine

/-- How deep a script stands when it starts. -/
structure Footing where
  callDepth : Nat
  level : Nat
  /-- How many bindings are hidden before its arguments are bound. -/
  hiddenCount : Nat
  /-- The height of the operand stack. -/
  height : Nat
  deriving DecidableEq

namespace Link

variable {l l' : Link} {base budget : Nat}

/-- The mark of the scope. -/
def mark (l : Link) : Nat := l.machine.context.env.hiddenCount

/-- The machine in which the script starts: in a scope of its own, with its arguments. -/
def start (l : Link) : Machine := entered l.machine.context.env l.arguments l.machine

/-- How deep the script stands when it starts. -/
def footing (l : Link) : Footing :=
  ⟨l.start.context.callDepth, l.start.context.env.level, l.mark, l.start.context.stack.length⟩

/-- The run of the script itself, up to where it leaves the frame above `base`. -/
def run (base budget : Nat) (l : Link) : Except Stop Exit × Machine :=
  runFrom (callFor budget) l.script base budget 0 l.start

/-- The link that follows when the script leaves by a tail call. -/
def follow (l : Link) (target : Script Value) (bindings : Bindings) (m : Machine) : Link :=
  ⟨target, bindings, (leaveScope l.mark m).2⟩

/-- The script leaves by a tail call, and nothing interrupts it. -/
inductive Next (base : Nat) (l : Link) : Link → Prop
  | intro {budget : Nat} {target : Script Value} {bindings : Bindings} {m : Machine} :
    l.run base budget = (.ok (.tail target bindings), m) → ¬ m.Interrupted →
    Next base l (l.follow target bindings m)

/-- The script ends the chain: it returns, it raises an error, or its tail call is interrupted. -/
inductive Ends (base : Nat) (l : Link) : Except EvalError Value → Prop
  | returns {budget : Nat} {v : Value} : (l.run base budget).1 = .ok (.done v) → Ends base l (.ok v)
  | raises {budget : Nat} {e : EvalError} : (l.run base budget).1 = .error (.error e) →
    Ends base l (.error e)
  | interrupted {budget : Nat} {target : Script Value} {bindings : Bindings} {m : Machine} :
    l.run base budget = (.ok (.tail target bindings), m) → m.Interrupted →
    Ends base l (.error .interrupted)

/-! ## From link to link -/

theorem nested_start (l : Link) : l.machine.context.env.Nested l.start.context.env :=
  (Environment.nested_enterScope _).setAll l.arguments

theorem footing_eq (l : Link) : l.footing = ⟨l.machine.context.callDepth,
    l.machine.context.env.level + 1, l.machine.context.env.hiddenCount,
    l.machine.context.stack.length⟩ := by
  have hlevel : l.start.context.env.level = l.machine.context.env.level + 1 := l.nested_start.level
  unfold footing
  rw [hlevel]
  rfl

/-- A script that leaves its frame leaves all that was there before its scope was opened. -/
theorem retained_of_run {exit : Exit} {m : Machine} (hbase : base = l.machine.context.stack.length)
    (hrun : l.run base budget = (.ok exit, m)) : Retained l.machine (leaveScope l.mark m).2 := by
  have hcall : ∀ f args, Neutral (callFor budget f args) := callFor_neutral budget
  obtain ⟨hk, hempty⟩ := (runFrom_extendsFrame hcall l.script base budget 0).of_ok hrun
  have henv : l.machine.context.env.Nested m.context.env := l.nested_start.extends hk.env
  obtain ⟨-, hbottom⟩ := hk.stack (Nat.le_of_eq hbase)
  have hstack : m.context.stack = l.machine.context.stack := by
    have hleft : bottom base m.context.stack = m.context.stack := by
      rw [bottom, hempty, Nat.sub_self, List.drop_zero]
    have hright : bottom base l.start.context.stack = l.machine.context.stack := by
      rw [bottom, hbase]
      show l.machine.context.stack.drop (l.machine.context.stack.length -
        l.machine.context.stack.length) = _
      rw [Nat.sub_self, List.drop_zero]
    rw [← hleft, ← hright]
    exact hbottom
  exact ⟨hstack, hk.callDepth, henv.leaveScope, hk.analyzing⟩

theorem Next.retained (h : Next base l l') (hbase : base = l.machine.context.stack.length) :
    Retained l.machine l'.machine := by
  obtain ⟨hrun, -⟩ := h
  exact retained_of_run hbase hrun

/-- What is retained from link to link is retained by a chain, which stays on one frame. -/
theorem retained_of_chain (hbase : base = l.machine.context.stack.length)
    (h : ReflTransGen (Next base) l l') : Retained l.machine l'.machine := by
  induction h with
  | refl => exact .refl _
  | tail _ hnext ih =>
    refine ih.trans (hnext.retained ?_)
    rw [ih.stack]
    exact hbase

theorem footing_of_retained (h : Retained l.machine l'.machine) : l'.footing = l.footing := by
  rw [footing_eq, footing_eq, h.callDepth, h.env.level, h.env.hiddenCount, h.stack]

/-- The chain that the first link starts gets to this one. -/
def Reaches (first : Link) : Link → Prop :=
  ReflTransGen (Next first.machine.context.stack.length) first

/-! ## Running a chain -/

/-- The run of a link and of all that follow it. -/
def runOn (base budget : Nat) (chain : Nat) (l : Link) :
    Except Stop (Except EvalError Value × Option Nat) × Machine :=
  runChain (callFor budget) budget base chain l.script (some l.mark) l.start

/-- The first step of a chain is the run of its first link. -/
theorem runOn_of_ok {chain : Nat} {exit : Exit} {m : Machine}
    (hrun : l.run base budget = (.ok exit, m)) :
    l.runOn base budget (chain + 1) = (match exit with
      | .done v => return (.ok v, some l.mark)
      | .tail target bindings => do
        match ← attempt heedInterrupt with
        | .error e => return (.error e, some l.mark)
        | .ok () => do
          let mark ← switchScope (some l.mark) bindings
          runChain (callFor budget) budget base chain target (some mark) : Run _) m := by
  refine (run_bind_ok (run_attempt_ok hrun)).trans ?_
  cases exit <;> rfl

theorem runOn_follow {chain : Nat} {target : Script Value} {bindings : Bindings} {m : Machine}
    (hrun : l.run base budget = (.ok (.tail target bindings), m)) (hm : ¬ m.Interrupted) :
    l.runOn base budget (chain + 1) = (l.follow target bindings m).runOn base budget chain := by
  rw [runOn_of_ok hrun]
  dsimp only
  rw [run_bind_ok (run_attempt_ok (heedInterrupt_clear hm))]
  dsimp only
  rw [run_bind_ok (run_switchScope (some l.mark) bindings m)]
  rfl

theorem runOn_interrupted {chain : Nat} {target : Script Value} {bindings : Bindings} {m : Machine}
    (hrun : l.run base budget = (.ok (.tail target bindings), m)) (hm : m.Interrupted) :
    l.runOn base budget (chain + 1) = (.ok (.error .interrupted, some l.mark), m) := by
  rw [runOn_of_ok hrun]
  dsimp only
  rw [run_bind_ok (run_attempt_error (heedInterrupt_eq hm))]
  rfl

/-- A chain that comes back goes from link to link, and its result is what the last one ends with. -/
theorem runOn_ends {chain : Nat} (hr : Returned (l.runOn base budget chain).1) :
    ∃ l' r scope, ReflTransGen (Next base) l l' ∧ Ends base l' r ∧
      (l.runOn base budget chain).1 = .ok (r, scope) := by
  induction chain generalizing l with
  | zero => exact absurd hr id
  | succ chain ih =>
    -- the run of this link came back
    have hown : Returned (l.run base budget).1 := (Returned.of_bind hr).of_attempt
    rcases hrun : l.run base budget with ⟨stop | exit, m⟩
    · rw [hrun] at hown
      obtain ⟨e, rfl⟩ := hown.error_of
      refine ⟨l, .error e, some l.mark, .refl, .raises (congrArg Prod.fst hrun), ?_⟩
      exact congrArg Prod.fst (run_bind_ok (run_attempt_error hrun))
    · cases exit with
      | done v =>
        refine ⟨l, .ok v, some l.mark, .refl, .returns (congrArg Prod.fst hrun), ?_⟩
        rw [runOn_of_ok hrun]
        rfl
      | tail target bindings =>
        by_cases hm : m.Interrupted
        · refine ⟨l, .error .interrupted, some l.mark, .refl, .interrupted hrun hm, ?_⟩
          rw [runOn_interrupted hrun hm]
        · rw [runOn_follow hrun hm] at hr ⊢
          obtain ⟨l', r, scope, hchain, hends, hresult⟩ := ih hr
          exact ⟨l', r, scope, .head ⟨hrun, hm⟩ hchain, hends, hresult⟩

/-- What a result is for whoever ran the script. -/
def outcome (r : Except EvalError Value) : Except Stop Value := r.mapError .error

theorem outcome_eq_error {r : Except EvalError Value} {e : EvalError}
    (h : outcome r = .error (.error e)) : r = .error e := by
  cases r with
  | ok v => cases h
  | error e' =>
    cases h
    rfl

/-- A script on a frame of its own comes to what its chain ends with. -/
theorem execute_ends (hr : Returned (execute (callFor budget) budget l.script (some l.mark)
      l.start).1) :
    ∃ l' r, l.Reaches l' ∧ Ends l.machine.context.stack.length l' r ∧
      (execute (callFor budget) budget l.script (some l.mark) l.start).1 = outcome r := by
  rw [execute_eq, run_bind_ok (run_height _)] at hr ⊢
  have hchain : Returned (l.runOn l.machine.context.stack.length budget budget).1 := hr.of_bind
  obtain ⟨l', r, scope, hreaches, hends, hresult⟩ := runOn_ends hchain
  refine ⟨l', r, hreaches, hends, ?_⟩
  have hrun : runChain (callFor budget) budget l.machine.context.stack.length budget l.script
      (some l.mark) l.start = (.ok (r, scope), (l.runOn l.machine.context.stack.length budget
        budget).2) := Prod.ext hresult rfl
  show ((runChain _ _ l.machine.context.stack.length _ _ _ >>= _) l.start).1 = _
  rw [run_bind_ok hrun, run_finish]
  cases r <;> rfl

end Link

/-! ## Entering a chain -/

/-- How a chain is entered: a script, or a closure over one, is called, or a script is evaluated in a
scope of its own. -/
inductive Entrance
  | call (function : Value) (arguments : Bindings)
  | eval (s : Script Value)

namespace Entrance

/-- What is run. -/
def run (budget : Nat) : Entrance → Run Value
  | call function arguments => callFor budget function arguments
  | eval s => Run.eval budget s true

/-- The first link of the chain, if the depth of calls admits it. -/
def first? : Entrance → Machine → Option Link
  | call function arguments, m =>
    if m.context.callDepth < m.context.settings.maxCallDepth then
      (tailScript? function arguments).map fun target => ⟨target.1, target.2, deeper m⟩
    else none
  | eval s, m =>
    let backtrace := if m.context.callDepth = 0 then [] else m.context.backtrace
    some ⟨s, [], { m with context := { m.context with backtrace } }⟩

/-- What is made of the result of the chain: an evaluation raises a delayed error. -/
def settle : Entrance → Except EvalError Value → Except EvalError Value
  | call .., r => r
  | eval _, r => r >>= Value.force

theorem settle_eq_error {entrance : Entrance} {r : Except EvalError Value} {e : EvalError}
    (h : entrance.settle r = .error e) : r = .error e ∨ r = .ok (.error e) := by
  cases entrance with
  | call _ _ => exact .inl h
  | eval _ =>
    rcases r with e' | v
    · exact .inl h
    · cases v with
      | error e' =>
        cases h
        exact .inr rfl
      | _ => cases h

variable {entrance : Entrance} {m : Machine} {first : Link}

/-- A call that comes back has run the chain of its first link. -/
theorem callScript_ends {s : Script Value} {args : Bindings} {budget : Nat}
    (hdepth : m.context.callDepth < m.context.settings.maxCallDepth)
    (hr : Returned (callFor (budget + 1) (.script s) args m).1) :
    ∃ l r, Link.Reaches ⟨s, args, deeper m⟩ l ∧ l.Ends m.context.stack.length r ∧
      (callFor (budget + 1) (.script s) args m).1 = Link.outcome r := by
  have hrun : (callFor (budget + 1) (.script s) args m).1 =
      (execute (callFor budget) budget s (some m.context.env.hiddenCount)
        (entered m.context.env args (deeper m))).1 := callScript_outcome hdepth budget (s, args)
  rw [hrun] at hr ⊢
  exact Link.execute_ends (l := ⟨s, args, deeper m⟩) hr

/-- However a chain is entered, what comes of it is what one of its links ends with. -/
theorem run_ends (h : entrance.first? m = some first) {budget : Nat}
    (hr : Returned (entrance.run budget m).1) :
    ∃ l r, first.Reaches l ∧ l.Ends m.context.stack.length r ∧
      (entrance.run budget m).1 = Link.outcome (entrance.settle r) := by
  cases entrance with
  | call function arguments =>
    by_cases hdepth : m.context.callDepth < m.context.settings.maxCallDepth
    · simp only [first?, if_pos hdepth, Option.map_eq_some_iff] at h
      obtain ⟨target, htarget, rfl⟩ := h
      cases budget with
      | zero => exact absurd hr id
      | succ budget =>
        unfold tailScript? at htarget
        split at htarget
        · cases htarget
          exact callScript_ends hdepth hr
        · -- a closure passes its bindings on to its script
          cases htarget
          cases budget with
          | zero => exact absurd hr id
          | succ budget => exact callScript_ends hdepth hr
        · cases htarget
    · simp only [first?, if_neg hdepth] at h
      cases h
  | eval s =>
    cases h
    have hrun := eval_outcome budget s true m
    have hexecute : Returned (execute (callFor budget) budget s (scopeOf true m)
        (started true m)).1 := by
      have hr' : Returned (Run.eval budget s true m).1 := hr
      rw [hrun] at hr'
      generalize (execute _ _ _ _ _).1 = out at hr' ⊢
      rcases out with (e | _ | _ | _) | v <;> trivial
    obtain ⟨l, r, hchain, hends, hresult⟩ := Link.execute_ends
      (l := ⟨s, [], { m with context := { m.context with
        backtrace := if m.context.callDepth = 0 then [] else m.context.backtrace } }⟩) hexecute
    refine ⟨l, r, hchain, hends, ?_⟩
    show (Run.eval budget s true m).1 = _
    rw [hrun]
    refine (congrArg (· >>= fun v => v.force.mapError .error) hresult).trans ?_
    cases r with
    | error e => rfl
    | ok v => cases v <;> rfl

end Entrance

/-! ## Constant depth -/

/-- **Tail calls run in constant depth.** All links of a chain start at the same call depth, at the same
level, with as many hidden bindings and on as many operands as the first one, however many there are.
If anything comes of the chain, it is what one of its links ended with; so if that is an overflow, a
link ran into it or returned it: no tail call of the chain raised it. Levels are counted as in
`Environment`, for fewer than 2^32 open scopes. -/
theorem tailCalls_keep_footing {entrance : Entrance} {m : Machine} {first : Link}
    (h : entrance.first? m = some first) :
    (∀ l, first.Reaches l → l.footing = first.footing) ∧
    (∀ budget, Returned (entrance.run budget m).1 → ∃ l r, first.Reaches l ∧
      l.Ends m.context.stack.length r ∧ (entrance.run budget m).1 = Link.outcome (entrance.settle r)) ∧
    ∀ budget depth limit,
      (entrance.run budget m).1 = .error (.error (.stackOverflow depth limit)) → ∃ l, first.Reaches l ∧
        ((∃ steps, (l.run m.context.stack.length steps).1 =
            .error (.error (.stackOverflow depth limit))) ∨
          ∃ steps, (l.run m.context.stack.length steps).1 =
            .ok (.done (.error (.stackOverflow depth limit)))) := by
  refine ⟨fun l hl => ?_, fun budget hr => entrance.run_ends h hr, fun budget depth limit he => ?_⟩
  · exact Link.footing_of_retained (Link.retained_of_chain rfl hl)
  · have hr : Returned (entrance.run budget m).1 := he ▸ trivial
    obtain ⟨l, r, hl, hends, hresult⟩ := entrance.run_ends h hr
    refine ⟨l, hl, ?_⟩
    have hraised : entrance.settle r = .error (.stackOverflow depth limit) :=
      Link.outcome_eq_error (hresult.symm.trans he)
    rcases entrance.settle_eq_error hraised with rfl | rfl
    · cases hends with
      | raises hrun => exact .inl ⟨_, hrun⟩
    · cases hends with
      | returns hrun => exact .inr ⟨_, hrun⟩

/-- A script that calls the first variable by a tail call. -/
def callsFirst : Script Value := ⟨0, #[.of .getVar 0, .of .tailCall 0], #[]⟩

/-- A machine that allows one call, in which the first variable is that script. -/
def callsItselfMachine : Machine := (bindVariable ⟨0⟩ (.script callsFirst) newMachine).2

theorem tailCalls_keep_footing_callsFirst : ∃ first l : Link,
    (Entrance.call (.script callsFirst) []).first? callsItselfMachine = some first ∧
      first.Next 0 l ∧ l.script = callsFirst ∧ l.footing = first.footing := by
  let first : Link := ⟨callsFirst, [], deeper callsItselfMachine⟩
  have hfirst : (Entrance.call (.script callsFirst) []).first? callsItselfMachine = some first := rfl
  have hrun : first.run 0 2 = (.ok (.tail callsFirst []), first.start) := rfl
  have hnext : first.Next 0 (first.follow callsFirst [] first.start) := ⟨hrun, nofun⟩
  refine ⟨first, _, hfirst, hnext, rfl, ?_⟩
  exact (tailCalls_keep_footing hfirst).1 _ (.single hnext)

end ReactiveScript.Run
