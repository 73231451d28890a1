import ReactiveScript.Proofs.TailCalls

/-
  Arguments that override captured ones.

  A closure puts the values it has captured before the arguments of a call, so that a variable may be
  given several values. The last one is bound, and with two listings that give each variable the same
  last value a function comes to the same (`callFor_sameLast`). Only host functions look at more: they
  take the first delayed error among all values for their result, also one that is overridden
  (`callFor_error`). Whatever way a closure is made and called, it comes to what the function in it
  comes to with the last value of each variable, unless an overridden error comes first
  (`closure_overrides`).
-/

namespace ReactiveScript

/-! ## The last value of each variable -/

/-- Bindings give each variable only the last value that a listing gives it. -/
structure LastGiven (listing bindings : Bindings) : Prop where
  nodup : (Assoc.keys bindings).Nodup
  same : SameLast listing bindings

variable {xs ys : Bindings}

/-- Dropping what a binding overrides makes no difference to the last values. -/
theorem sameLast_snoc (xs : Bindings) (b : Variable × Value) :
    SameLast (xs.filter (fun m => m.1 ≠ b.1) ++ [b]) (xs ++ [b]) := by
  intro var
  have herase : (xs.filter fun m => m.1 ≠ b.1).reverse = Assoc.erase b.1 xs.reverse :=
    (List.filter_reverse ..).symm
  rw [List.reverse_append, List.reverse_append, Assoc.find?_append, Assoc.find?_append, herase,
    Assoc.find?_erase]
  by_cases hb : b.1 = var
  · simp [Assoc.find?, hb]
  · rw [if_neg hb]

theorem sameLast_overrideBindings (xs ys : Bindings) :
    SameLast (overrideBindings xs ys) (xs ++ ys) := by
  induction ys generalizing xs with
  | nil =>
    rw [List.append_nil]
    exact .refl xs
  | cons b rest ih =>
    rw [List.append_cons]
    exact (ih _).trans ((sameLast_snoc xs b).append (.refl rest))

/-- Values that are overridden by what comes after them do not count again. -/
theorem sameLast_again {given : Bindings} (h : SameLast (xs ++ ys) given) :
    SameLast (xs ++ given) given := by
  intro var
  have hvar := h var
  rw [List.reverse_append, Assoc.find?_append] at hvar
  rw [List.reverse_append, Assoc.find?_append, ← hvar, Option.or_assoc, Option.or_self]

theorem nodup_overrideBindings (h : (Assoc.keys xs).Nodup) (ys : Bindings) :
    (Assoc.keys (overrideBindings xs ys)).Nodup := by
  induction ys generalizing xs with
  | nil => exact h
  | cons b rest ih =>
    refine ih ?_
    rw [Assoc.keys_append, List.nodup_append]
    refine ⟨h.sublist (List.filter_sublist.map Prod.fst), List.pairwise_singleton _ b.1, ?_⟩
    intro var hvar other hother
    obtain ⟨m, hm, rfl⟩ := List.mem_map.mp hvar
    rw [List.mem_singleton.mp hother]
    exact of_decide_eq_true (List.mem_filter.mp hm).2

theorem lastGiven_overrideBindings (listing : Bindings) :
    LastGiven listing (overrideBindings [] listing) := by
  have hnil : (Assoc.keys ([] : Bindings)).Nodup := List.nodup_nil
  exact ⟨nodup_overrideBindings hnil listing, (sameLast_overrideBindings [] listing).symm⟩

/-! ## The first delayed error -/

/-- No delayed error is followed by another value for the same variable. -/
def KeepsErrors (listing : Bindings) : Prop :=
  listing.Pairwise fun b later => b.2.isError = true → b.1 ≠ later.1

theorem firstError?_append (xs ys : Bindings) :
    firstError? (xs ++ ys) = (firstError? xs).or (firstError? ys) := by
  unfold firstError?
  rw [List.find?_append]
  cases xs.find? fun b => b.2.isError <;> rfl

theorem firstError?_filter {p : Variable × Value → Bool}
    (h : ∀ b ∈ xs, b.2.isError = true → p b = true) :
    firstError? (xs.filter p) = firstError? xs := by
  induction xs with
  | nil => rfl
  | cons b rest ih =>
    have hrest := ih fun c hc => h c (List.mem_cons_of_mem b hc)
    unfold firstError? at hrest ⊢
    cases he : b.2.isError with
    | true =>
      rw [List.filter_cons_of_pos (h b List.mem_cons_self he), List.find?_cons, List.find?_cons, he]
    | false =>
      have htail : (b :: rest).find? (fun b => b.2.isError) =
          rest.find? fun b => b.2.isError := by
        rw [List.find?_cons, he]
      rw [htail, ← hrest]
      by_cases hp : p b = true
      · rw [List.filter_cons_of_pos hp, List.find?_cons, he]
      · rw [List.filter_cons_of_neg hp]

/-- Where no error is overridden, the first one is that among the last values. -/
theorem firstError?_overrideBindings (h : KeepsErrors (xs ++ ys)) :
    firstError? (overrideBindings xs ys) = firstError? (xs ++ ys) := by
  induction ys generalizing xs with
  | nil => rw [List.append_nil]; rfl
  | cons b rest ih =>
    rw [List.append_cons] at h ⊢
    have hkept := (List.pairwise_append.mp (List.pairwise_append.mp h).1).2.2
    have hsub : (xs.filter (fun m => m.1 ≠ b.1) ++ [b]) ++ rest |>.Sublist ((xs ++ [b]) ++ rest) :=
      ((List.filter_sublist ..).append_right [b]).append_right rest
    have hstep := ih (h.sublist hsub)
    rw [firstError?_append, firstError?_append, firstError?_filter fun m hm he =>
      decide_eq_true (hkept m hm b List.mem_cons_self he)] at hstep
    rw [firstError?_append, firstError?_append]
    exact hstep

namespace Value

/-! ## Closures -/

/-- The function in a closure, which is not itself a closure. -/
def innermost : Value → Value
  | .closure _ function _ => function.innermost
  | function => function

/-- The values that a closure and the closures in it have captured, those of the outer ones last. -/
def captured : Value → Bindings
  | .closure _ function bindings => function.captured ++ bindings
  | _ => []

/-- How many closures there are in one another. -/
def nesting : Value → Nat
  | .closure _ function _ => function.nesting + 1
  | _ => 0

theorem innermost_innermost (v : Value) : v.innermost.innermost = v.innermost := by
  cases v with
  | closure id function bindings => exact innermost_innermost function
  | _ => rfl

theorem captured_innermost (v : Value) : v.innermost.captured = [] := by
  cases v with
  | closure id function bindings => exact captured_innermost function
  | _ => rfl

/-- If a function looks for delayed errors among its arguments, it finds the same with both. -/
def SameFirstError : Value → Bindings → Bindings → Prop
  | .builtin _ _, xs, ys => firstError? xs = firstError? ys
  | .closure _ function bindings, xs, ys => function.SameFirstError (bindings ++ xs) (bindings ++ ys)
  | .composition _ first _, xs, ys => first.SameFirstError xs ys
  | _, _, _ => True

theorem sameFirstError_of_eq (f : Value) {xs ys : Bindings} (h : firstError? xs = firstError? ys) :
    f.SameFirstError xs ys := by
  cases f with
  | builtin id function => exact h
  | closure id function bindings =>
    have happend : firstError? (bindings ++ xs) = firstError? (bindings ++ ys) := by
      rw [firstError?_append, firstError?_append, h]
    exact sameFirstError_of_eq function happend
  | composition id first second => exact sameFirstError_of_eq first h
  | _ => trivial

theorem SameFirstError.symm {f : Value} {xs ys : Bindings} (h : f.SameFirstError xs ys) :
    f.SameFirstError ys xs := by
  cases f with
  | builtin id function => exact Eq.symm h
  | closure id function bindings => exact symm (f := function) h
  | composition id first second => exact symm (f := first) h
  | _ => trivial

/-- A closure of a function over bindings: as it is made by CLOSURE or by the host, where a closure
of a closure is one closure, or one in the other. -/
inductive ClosureOf (f : Value) (bindings : Bindings) : Value → Prop
  | made (st : Store) : f.isError = false → ClosureOf f bindings (partialApply f bindings st).1
  | nested (id : Ident) : ClosureOf f bindings (.closure id f bindings)

/-- However it is made, a closure has the same function in it, and what it was made over overrides
what the function had captured. -/
theorem ClosureOf.parts {f v : Value} {bindings : Bindings} (h : f.ClosureOf bindings v) :
    v.innermost = f.innermost ∧ SameLast v.captured (f.captured ++ bindings) := by
  cases h with
  | nested id => exact ⟨rfl, .refl _⟩
  | made st hf =>
    cases f with
    | error e => cases hf
    | closure id g inner =>
      refine ⟨rfl, ?_⟩
      have hover := (SameLast.refl g.captured).append (sameLast_overrideBindings inner bindings)
      rw [← List.append_assoc] at hover
      exact hover
    | _ => exact ⟨rfl, .refl _⟩

end Value

namespace Run

variable {d : Depths}

/-! ## Calls -/

/-- Functions can not tell arguments apart by which each variable has the same last value, except for
the first delayed error among them. -/
theorem callFor_sameLast {k k' : Nat} (hk : k ≤ k') (marks : List (Nat × Nat)) {f : Value}
    (hargs : SameLast xs ys) (herror : f.SameFirstError xs ys) :
    Alike d marks never (callFor k f xs) (callFor k' f ys) := by
  induction k generalizing k' f xs ys with
  | zero => exact fun _ _ _ => .exhausted rfl
  | succ k ih =>
    obtain ⟨k', rfl⟩ : ∃ j, k' = j + 1 := ⟨k' - 1, by omega⟩
    have hk := Nat.le_of_succ_le_succ hk
    have hcall := fun marks => callFor_alike (d := d) hk marks
    cases f with
    | script s => exact alike_callScript hcall hk s hargs
    | builtin id function =>
      exact alike_callHost hcall (fun marks s own => alike_evalWith hcall hk s own) function hargs
        herror
    | closure id function bindings => exact ih hk ((SameLast.refl bindings).append hargs) herror
    | composition id first second =>
      have hfirst := ih (f := first) hk hargs herror
      refine hfirst.bind fun intermediate => ?_
      exact (alike_store _).bind fun var => hcall marks second [(var, intermediate)]
    | _ => exact alike_pure _

/-- A closure passes what it has captured on to the function in it. -/
theorem callFor_closure (v : Value) (k : Nat) (args : Bindings) :
    callFor (k + v.nesting) v args = callFor k v.innermost (v.captured ++ args) := by
  cases v with
  | closure id function bindings =>
    have hinner := callFor_closure function k (bindings ++ args)
    rw [← List.append_assoc] at hinner
    exact hinner
  | _ => rfl

theorem callFor_of_lt_nesting {v : Value} {k : Nat} (h : k < v.nesting) (args : Bindings)
    (m : Machine) : (callFor k v args m).1 = .error .exhausted := by
  cases k with
  | zero => rfl
  | succ k =>
    cases v with
    | closure id function bindings =>
      exact callFor_of_lt_nesting (Nat.lt_of_succ_lt_succ h) (bindings ++ args) m
    | _ => exact absurd h (Nat.not_lt_zero _)

/-- The first delayed error among its arguments is the result of a host function, which does not
run. -/
theorem callFor_error {args : Bindings} {e : Value} (h : firstError? args = some e) (k : Nat)
    (id : Ident) (function : HostFunction Value) (m : Machine) :
    callFor (k + 1) (.builtin id function) args m = (.ok e, m) :=
  congrFun (callHost_of_error h _ _ function) m

/-! ## The same outcome -/

/-- What one evaluation comes to, the other one does, and then both leave machines that can not be
told apart. -/
def Follows (x y : Nat → Run Value) (m : Machine) : Prop :=
  ∀ k, (x k m).1 ≠ .error .exhausted → ∃ k', (y k' m).1 = (x k m).1 ∧
    (Returned (x k m).1 → (x k m).2.Twins .equal [] (y k' m).2)

/-- Two evaluations have the same outcome, whatever the budget is. -/
def SameOutcome (x y : Nat → Run Value) (m : Machine) : Prop := Follows x y m ∧ Follows y x m

theorem Meet.outcome {out out' : Except Stop Value × Machine}
    (h : Meet .equal [] never out out') (hr : out.1 ≠ .error .exhausted) :
    out'.1 = out.1 ∧ (Returned out.1 → out.2.Twins .equal [] out'.2) := by
  cases h with
  | exhausted he => exact absurd he hr
  | left hd _ => cases hd
  | right hd _ => cases hd
  | same he ht => exact ⟨he, ht⟩

variable {f g v : Value} {captured args given : Bindings}

/-- Two closures of one function come to the same with arguments that, after what they have captured,
give each variable the same last value. -/
theorem closure_follows (hinner : v.innermost = g.innermost)
    (hargs : SameLast (v.captured ++ args) (g.captured ++ given))
    (herror : g.innermost.SameFirstError (v.captured ++ args) (g.captured ++ given)) (m : Machine) :
    Follows (callFor · v args) (callFor · g given) m := by
  intro k hr
  rcases Nat.lt_or_ge k v.nesting with hlt | hle
  · exact absurd (callFor_of_lt_nesting hlt args m) hr
  · obtain ⟨j, rfl⟩ : ∃ j, k = j + v.nesting := ⟨k - v.nesting, (Nat.sub_add_cancel hle).symm⟩
    refine ⟨j + g.nesting, ?_⟩
    dsimp only at hr ⊢
    rw [callFor_closure v, hinner] at hr ⊢
    rw [callFor_closure g]
    exact (callFor_sameLast (Nat.le_refl j) [] hargs herror m m (twins_refl m .equal)).outcome hr

theorem closure_sameOutcome (hinner : v.innermost = g.innermost)
    (hargs : SameLast (v.captured ++ args) (g.captured ++ given))
    (herror : g.innermost.SameFirstError (v.captured ++ args) (g.captured ++ given)) (m : Machine) :
    SameOutcome (callFor · v args) (callFor · g given) m :=
  ⟨closure_follows hinner hargs herror m,
    closure_follows hinner.symm hargs.symm (hinner ▸ herror.symm) m⟩

/-- Run the target of a tail call on the frame above `base`, where the variables are those of `env`.
The script that makes the tail call goes on so (`execute_of_tail`). -/
def tailCall (base : Nat) (env : Environment) (target : Script Value × Bindings) (budget : Nat) :
    Run Value := continueWith (callFor (budget + 1)) (budget + 1) base budget target env

theorem tailCall_follows_sameLast (s : Script Value) (hargs : SameLast xs ys) (base : Nat)
    (env : Environment) (m : Machine) :
    Follows (tailCall base env (s, xs)) (tailCall base env (s, ys)) m := fun k hr =>
  ⟨k, (continueWith_sameLast (twins_refl m .equal) (.refl env) (Nat.le_refl _) (Nat.le_refl k) s
    hargs).outcome hr⟩

/-- The target of a tail call is the script in the closure, with what the closure passes on. -/
theorem target_of_tailScript? {target : Script Value × Bindings}
    (h : tailScript? v args = some target) :
    v.innermost = .script target.1 ∧ target.2 = v.captured ++ args := by
  unfold tailScript? at h
  split at h <;> cases h <;> exact ⟨rfl, rfl⟩

/-- Arguments override what a closure has captured. With any bindings that give each variable only
the last of the values that it was given, calling the function has the same outcome as calling its
closure, and so has a tail call. Only a host function may see what was overridden: an error among
those values that comes before the errors among the last ones is its result. -/
theorem closure_overrides (hv : f.ClosureOf captured v) (args : Bindings) :
    (∀ g given, g = f ∨ g = f.innermost → LastGiven (f.captured ++ captured ++ args) given →
      g.innermost.SameFirstError (v.captured ++ args) (g.captured ++ given) → ∀ m,
        SameOutcome (callFor · v args) (callFor · g given) m) ∧
    (∀ target, tailScript? v args = some target → f.innermost = .script target.1 ∧
      ∀ given, LastGiven (f.captured ++ captured ++ args) given → ∀ base env m,
        SameOutcome (tailCall base env target) (tailCall base env (target.1, given)) m) ∧
    (KeepsErrors (v.captured ++ args) → ∃ given,
      LastGiven (f.captured ++ captured ++ args) given ∧
        f.innermost.SameFirstError (v.captured ++ args) given) ∧
    ∀ id function e, f.innermost = .builtin id function →
      firstError? (v.captured ++ args) = some e → ∀ m, ∃ k, callFor k v args m = (.ok e, m) := by
  obtain ⟨hinner, hcaptured⟩ := hv.parts
  have hpassed : SameLast (v.captured ++ args) (f.captured ++ captured ++ args) :=
    hcaptured.append (.refl args)
  refine ⟨fun g given hg hgiven herror m => ?_, fun target htarget => ?_, fun hkeeps => ?_,
    fun id function e hf he m => ?_⟩
  · have hlast := hgiven.same
    rcases hg with rfl | rfl
    · rw [List.append_assoc] at hlast
      refine closure_sameOutcome hinner (hpassed.trans (hgiven.same.trans ?_)) herror m
      exact (sameLast_again hlast).symm
    · refine closure_sameOutcome (hinner.trans f.innermost_innermost.symm) ?_ herror m
      rw [f.captured_innermost]
      exact hpassed.trans hlast
  · obtain ⟨hscript, htaken⟩ := target_of_tailScript? htarget
    refine ⟨hinner ▸ hscript, fun given hgiven base env m => ?_⟩
    have hargs : SameLast target.2 given := htaken ▸ hpassed.trans hgiven.same
    exact ⟨tailCall_follows_sameLast target.1 hargs base env m,
      tailCall_follows_sameLast target.1 hargs.symm base env m⟩
  · obtain ⟨hnodup, hsame⟩ := lastGiven_overrideBindings (v.captured ++ args)
    have hfirst : firstError? (overrideBindings [] (v.captured ++ args)) =
        firstError? (v.captured ++ args) := firstError?_overrideBindings hkeeps
    exact ⟨_, ⟨hnodup, hpassed.symm.trans hsame⟩, f.innermost.sameFirstError_of_eq hfirst.symm⟩
  · refine ⟨1 + v.nesting, ?_⟩
    rw [callFor_closure, hinner, hf]
    exact callFor_error he 0 id function m

/-- A host function that returns the first variable. -/
def givesFirst : HostFunction Value := ⟨"first", .actions [.get ⟨0⟩], none⟩

/-- A closure of a script over an error that the call overrides does not see it; a closure of a host
function that does the same gives the error. -/
theorem closure_overrides_capturedError :
    let captured : Bindings := [(⟨0⟩, .error .divisionByZero)]
    let given : Bindings := [(⟨0⟩, .bool true)]
    let closure : Value := .closure 7 (.script readsFirst) captured
    (Value.script readsFirst).ClosureOf captured closure ∧
    SameOutcome (callFor · closure given) (callFor · (.script readsFirst) given) newMachine ∧
    (callFor 5 closure given newMachine).1 = .ok (.bool true) ∧
    (callFor 5 (.builtin 8 givesFirst) given newMachine).1 = .ok (.bool true) ∧
    ∃ k, callFor k (.closure 9 (.builtin 8 givesFirst) captured) given newMachine =
      (.ok (.error .divisionByZero), newMachine) := by
  intro captured given closure
  have hscript : (Value.script readsFirst).ClosureOf captured closure := .nested 7
  have hhost : (Value.builtin 8 givesFirst).ClosureOf captured
      (.closure 9 (.builtin 8 givesFirst) captured) := .nested 9
  have hlast : LastGiven (captured ++ given) given := by
    refine ⟨List.pairwise_singleton _ _, fun var => ?_⟩
    by_cases hvar : (⟨0⟩ : Variable) = var <;> simp [captured, given, Assoc.find?, hvar]
  exact ⟨hscript, (closure_overrides hscript given).1 _ _ (.inl rfl) hlast trivial newMachine,
    rfl, rfl, (closure_overrides hhost given).2.2.2 8 givesFirst _ rfl rfl newMachine⟩

end Run

end ReactiveScript
