import ReactiveScript.Proofs.Run

/-
  Where values come from.

  Beside an evaluation runs a record of origins: which operands and variables hold what was read from
  a registered node, and what has been collected of such values. `readsFrom` lists the owners that an
  evaluation reads: a registered owner when its variable is read, and a member of a group when it is
  read from a value that came from the group. `Move` is what an instruction of branching code does to
  the origins, whichever way its branch goes (`move_of_step`).
-/

namespace ReactiveScript

/-- Where a value comes from. -/
inductive Origin
  /-- No registered node. -/
  | other
  /-- A registered node, or a member of one. -/
  | node (node : Node)
  /-- A list of values, or an iterator with these still to come. -/
  | items (list : List Origin)

/-- The owner that a node is. -/
def Node.asOwner : Node → List OwnerId
  | .owner _ scripts => [scripts]
  | .group _ _ => []

namespace Origin

/-- The node that a member of a value is. -/
def member? (o : Origin) (name : String) : Option Node :=
  match o with
  | .node n => n.get? name
  | _ => none

/-- The origin of a node, if there is one. -/
def ofNode? : Option Node → Origin
  | some n => .node n
  | none => .other

/-- The values of a list of keys and values, which alternate. -/
def valuesOf : List Origin → List Origin
  | _ :: value :: rest => value :: valuesOf rest
  | _ => []

/-- The origin of a sum: lists are joined. -/
def sum : Origin → Origin → Origin
  | .items xs, .items ys => .items (xs ++ ys)
  | _, _ => .other

/-- The origin of an iterator. -/
def iterated : Origin → Origin
  | .items xs => .items xs
  | _ => .other

end Origin

/-- The origins of the operands in a frame, the top first, and of the variables. -/
structure Origins where
  frame : List Origin
  vars : Variable → Origin

/-- The name by which a constant reads members. -/
def Script.keyAt (s : Script Value) (index : Nat) : Option String :=
  match s.constant? index with
  | some key =>
    match key.toText with
    | .ok name => some name
    | .error _ => none
  | none => none

namespace Origins

/-- Nothing on the frame, and no variable holds what comes from a node. -/
def start : Origins := ⟨[], fun _ => .other⟩

/-- Push an origin. -/
def push (o : Origins) (origin : Origin) : Origins := { o with frame := origin :: o.frame }

/-- Drop operands. -/
def drop (o : Origins) (n : Nat) : Origins := { o with frame := o.frame.drop n }

/-- The origin of the operand at a depth. -/
def operand (o : Origins) (depth : Nat) : Origin := o.frame[depth]?.getD .other

/-- Bind a variable. -/
def bind (o : Origins) (var : Variable) (origin : Origin) : Origins :=
  { o with vars := fun x => if x = var then origin else o.vars x }

/-- The origin of a variable that is read. -/
def read (o : Origins) (registry : Registry) (var : Variable) : Origin :=
  match registry.lookup? var with
  | some node => .node node
  | none => o.vars var

/-- The node that MEMBER_C finds on the top of the frame. -/
def memberAt (o : Origins) (s : Script Value) (index : Nat) : Option Node :=
  (s.keyAt index).bind (o.operand 0).member?

/-- The owners that an instruction reads. -/
def readsAt (o : Origins) (registry : Registry) (s : Script Value) (i : Instruction) :
    List OwnerId :=
  match i.opcode with
  | .getVar => ((registry.lookup? ⟨i.operand⟩).map Node.asOwner).getD []
  | .memberC => ((o.memberAt s i.operand).map Node.asOwner).getD []
  | _ => []

/-- The origins after a binary operator. OR_ELSE gives one of its operands. -/
def afterBinary (o : Origins) (op : BinaryOp) (leftFails : Bool) : Origins :=
  match op with
  | .orElse => (o.drop 2).push (if leftFails then o.operand 0 else o.operand 1)
  | .add => (o.drop 2).push ((o.operand 1).sum (o.operand 0))
  | _ => (o.drop 2).push .other

/-- Whether the operand below the top is a delayed error. -/
def leftFails (m : Machine) : Bool := (m.context.stack[1]?.getD Value.nil).isError

/-- The origins after a loop that draws an element from the iterator below the top, or is over. -/
def afterLoop (o : Origins) (withKey ended : Bool) : Origins :=
  if ended then (o.drop 2).push (o.operand 0)
  else
    let key := if withKey then [.other] else []
    match o.operand 1 with
    | .items (x :: xs) => { o with frame := x :: key ++ o.operand 0 :: .items xs :: o.frame.drop 2 }
    | _ => { o with frame := .other :: key ++ o.frame }

/-- The origins after an instruction that took `m` to `m'`. -/
def after (o : Origins) (registry : Registry) (s : Script Value) (i : Instruction)
    (m m' : Machine) : Origins :=
  let n := i.operand
  match i.opcode with
  | .nop | .jump | .ret => o
  | .pushConst => o.push .other
  | .pop | .jumpIfNot => o.drop 1
  | .dup => o.push (o.operand n)
  | .jumpScAnd | .jumpScOr =>
    -- a condition that is not kept has been popped
    if m'.context.stack.length < m.context.stack.length then o.drop 1 else o
  | .loop => o.afterLoop false (m'.context.stack.length < m.context.stack.length)
  | .loopWithKey => o.afterLoop true (m'.context.stack.length < m.context.stack.length)
  | .getVar => o.push (o.read registry ⟨n⟩)
  | .setVar => o.bind ⟨n⟩ (o.operand 0)
  | .memberC => (o.drop 1).push (.ofNode? (o.memberAt s n))
  | .makeObject =>
    (o.drop (2 * n)).push (.items (Origin.valuesOf (o.frame.take (2 * n)).reverse))
  | .call | .closure | .tailCall => (o.drop (n + 1)).push .other
  | .unary =>
    match (Family.find? n : Option UnaryOp) with
    | some op => (o.drop 1).push (if op = .iteratorC then (o.operand 0).iterated else .other)
    | none => o
  | .binary =>
    match (Family.find? n : Option BinaryOp) with
    | some op => o.afterBinary op (leftFails m)
    | none => o
  | .ternary => (o.drop 3).push .other
  | .quaternary => (o.drop 4).push .other

/-- What an instruction at `pos` can do to the origins, and where it can go, whichever way the branch
goes. -/
def Moves (registry : Registry) (s : Script Value) (pos : Nat) (i : Instruction) (o : Origins)
    (next : Nat) (o' : Origins) : Prop :=
  let n := i.operand
  match i.opcode with
  | .nop => next = pos + 1 ∧ o' = o
  | .jump => next = n ∧ o' = o
  | .ret => False
  | .pushConst => next = pos + 1 ∧ o' = o.push .other
  | .pop => next = pos + 1 ∧ o' = o.drop 1
  | .jumpIfNot => (next = pos + 1 ∨ next = n) ∧ o' = o.drop 1
  | .dup => next = pos + 1 ∧ o' = o.push (o.operand n)
  | .jumpScAnd | .jumpScOr => next = pos + 1 ∧ o' = o.drop 1 ∨ next = n ∧ o' = o
  | .loop =>
    next = pos + 1 ∧ o' = o.afterLoop false false ∨ next = n ∧ o' = o.afterLoop false true
  | .loopWithKey =>
    next = pos + 1 ∧ o' = o.afterLoop true false ∨ next = n ∧ o' = o.afterLoop true true
  | .getVar => next = pos + 1 ∧ o' = o.push (o.read registry ⟨n⟩)
  | .setVar => next = pos + 1 ∧ o' = o.bind ⟨n⟩ (o.operand 0)
  | .memberC => next = pos + 1 ∧ o' = (o.drop 1).push (.ofNode? (o.memberAt s n))
  | .makeObject => next = pos + 1 ∧
    o' = (o.drop (2 * n)).push (.items (Origin.valuesOf (o.frame.take (2 * n)).reverse))
  | .call | .closure | .tailCall => next = pos + 1 + n ∧ o' = (o.drop (n + 1)).push .other
  | .unary => next = pos + 1 ∧ ∃ op, (Family.find? n : Option UnaryOp) = some op ∧
    o' = (o.drop 1).push (if op = .iteratorC then (o.operand 0).iterated else .other)
  | .binary => next = pos + 1 ∧ ∃ op fails, (Family.find? n : Option BinaryOp) = some op ∧
    o' = o.afterBinary op fails
  | .ternary => next = pos + 1 ∧ o' = (o.drop 3).push .other
  | .quaternary => next = pos + 1 ∧ o' = (o.drop 4).push .other

end Origins

namespace Run

/-- The owners read by running a script from a position on, as far as the budget goes. -/
def readsFrom (call : Caller) (registry : Registry) (s : Script Value) (base : Nat) :
    Nat → Nat → Origins → Machine → List OwnerId
  | 0, _, _, _ => []
  | budget + 1, pos, o, m =>
    match s.code[pos]? with
    | none => []
    | some i =>
      o.readsAt registry s i ++
        match step call s base pos m with
        | (.ok (.goto next), m') =>
          readsFrom call registry s base budget next (o.after registry s i m m') m'
        | _ => []

/-! ## Every step is a move -/

variable {α β : Type}

/-- Whatever the evaluation comes to satisfies `P`. -/
def Gives (P : α → Prop) (x : Run α) : Prop := ∀ m a m', x m = (.ok a, m') → P a

theorem Gives.bind {P : β → Prop} (x : Run α) {f : α → Run β} (h : ∀ a, Gives P (f a)) :
    Gives P (x >>= f) := by
  intro m b m' hx
  obtain ⟨a, m₁, -, h₂⟩ := run_bind_eq_ok hx
  exact h a m₁ b m' h₂

theorem gives_pure {P : α → Prop} {a : α} (h : P a) : Gives P (pure a : Run α) :=
  fun _ _ _ hx => by cases hx; exact h

theorem gives_fail {P : α → Prop} (e : EvalError) : Gives P (fail e : Run α) :=
  fun _ _ _ hx => by cases hx

variable {call : Caller} {s : Script Value} {base pos : Nat}

theorem gives_takeJump (target : Nat) :
    Gives (· = Next.goto target) (takeJump s pos target) :=
  takeJump_cases gives_fail (fun _ => Gives.bind _ fun _ => gives_pure rfl) fun _ => gives_pure rfl

/-- The evaluation does not touch the operands, however it ends. -/
def KeepsStack (x : Run α) : Prop := ∀ m, (x m).2.context.stack = m.context.stack

theorem KeepsStack.bind {x : Run α} {f : α → Run β} (hx : KeepsStack x)
    (hf : ∀ a, KeepsStack (f a)) : KeepsStack (x >>= f) := by
  intro m
  have hx := hx m
  rw [run_bind]
  generalize x m = out at hx ⊢
  rcases out with ⟨stop | a, m₁⟩
  · exact hx
  · exact (hf a m₁).trans hx

theorem KeepsStack.of_eq {x : Run α} (hx : KeepsStack x) {m m' : Machine} {r : Except Stop α}
    (h : x m = (r, m')) : m'.context.stack = m.context.stack := by
  have := hx m
  rwa [h] at this

theorem keepsStack_ofExcept (r : Except EvalError α) : KeepsStack (ofExcept r) := by
  cases r <;> exact fun _ => rfl

theorem keepsStack_heedInterrupt : KeepsStack heedInterrupt := by
  refine KeepsStack.bind (fun _ => rfl) fun c => ?_
  refine KeepsStack.bind (fun _ => rfl) fun b => ?_
  cases b <;> exact fun _ => rfl

theorem keepsStack_takeJump (target : Nat) : KeepsStack (takeJump s pos target) :=
  takeJump_cases (fun _ _ => rfl) (fun _ => keepsStack_heedInterrupt.bind fun _ _ => rfl)
    fun _ _ => rfl

theorem keepsStack_top : KeepsStack (top base pos) := by
  refine KeepsStack.bind (fun _ => rfl) fun stack => ?_
  cases stack with
  | nil => exact fun _ => rfl
  | cons v rest =>
    by_cases h : base ≤ rest.length
    · simp only [if_pos h]
      exact fun _ => rfl
    · simp only [if_neg h]
      exact fun _ => rfl

theorem length_of_pop {m m' : Machine} {v : Value} (h : pop base pos m = (.ok v, m')) :
    m'.context.stack.length + 1 = m.context.stack.length := by
  unfold pop at h
  rw [run_bind_ok (run_operands m)] at h
  cases hs : m.context.stack with
  | nil => rw [hs] at h; cases h
  | cons w rest =>
    rw [hs] at h
    by_cases hb : base ≤ rest.length
    · simp only [if_pos hb] at h
      cases h
      rfl
    · simp only [if_neg hb] at h
      cases h

/-- A short-circuit jump pops the condition exactly if it does not jump. -/
theorem shortCircuit_next {f : Bool → Run Next} (popped : Bool) {n : Nat}
    (hpop : f popped = (do
      let _ ← pop base pos
      return Next.goto (pos + 1)))
    (hjump : f (!popped) = takeJump s pos n) {m m' : Machine} {next : Nat}
    (h : (do f (← ofExcept (← top base pos).toBool)) m = (.ok (.goto next), m')) :
    next = pos + 1 ∧ m'.context.stack.length < m.context.stack.length ∨
      next = n ∧ ¬ m'.context.stack.length < m.context.stack.length := by
  obtain ⟨v, m₁, h₁, h⟩ := run_bind_eq_ok h
  obtain ⟨b, m₂, h₂, h⟩ := run_bind_eq_ok h
  have hs : m₂.context.stack = m.context.stack :=
    ((keepsStack_ofExcept _).of_eq h₂).trans (keepsStack_top.of_eq h₁)
  by_cases hb : b = popped
  · rw [hb, hpop] at h
    obtain ⟨w, m₃, h₃, h⟩ := run_bind_eq_ok h
    cases h
    have hl := length_of_pop h₃
    rw [hs] at hl
    exact .inl ⟨rfl, by omega⟩
  · have hb' : b = !popped := by cases b <;> cases popped <;> simp at hb ⊢
    rw [hb', hjump] at h
    have hj := gives_takeJump n _ _ _ h
    cases hj
    have hk := (keepsStack_takeJump _).of_eq h
    rw [hs] at hk
    exact .inr ⟨rfl, by rw [hk]; omega⟩

/-- A loop leaves the stack lower exactly if it is over. -/
theorem stepLoop_next (n : Nat) (withKey : Bool) {m m' : Machine} {next : Nat}
    (h : stepLoop s base pos n withKey m = (.ok (.goto next), m')) :
    next = pos + 1 ∧ ¬ m'.context.stack.length < m.context.stack.length ∨
      next = n ∧ m'.context.stack.length < m.context.stack.length := by
  unfold stepLoop at h
  obtain ⟨_, m₁, h₁, h⟩ := run_bind_eq_ok h
  have hs₁ := keepsStack_heedInterrupt.of_eq h₁
  rw [run_bind_ok (run_operands m₁), hs₁] at h
  rcases hs : m.context.stack with _ | ⟨accumulator, _ | ⟨slot, rest⟩⟩
  · rw [hs] at h; cases h
  · rw [hs] at h; cases h
  · rw [hs] at h hs₁
    by_cases hl : rest.length < base
    · simp only [if_pos hl] at h; cases h
    · simp only [if_neg hl] at h
      cases slot with
      | iterator handle =>
        dsimp only at h
        rw [run_bind_ok (run_store _ m₁)] at h
        generalize (Store.drawEntry handle m₁.store).1 = drawn at h
        rcases drawn with _ | ⟨key, v⟩
        · dsimp only at h
          rw [run_bind_ok (run_setOperands _ _)] at h
          have hj := gives_takeJump n _ _ _ h
          cases hj
          have hk := (keepsStack_takeJump _).of_eq h
          refine .inr ⟨rfl, ?_⟩
          rw [hk]
          simp
        · refine .inl ?_
          cases withKey with
          | true =>
            cases h
            refine ⟨rfl, ?_⟩
            show ¬ (v :: key :: m₁.context.stack).length < _
            rw [hs₁]
            simp only [List.length_cons]
            omega
          | false =>
            cases h
            refine ⟨rfl, ?_⟩
            show ¬ (v :: m₁.context.stack).length < _
            rw [hs₁]
            simp only [List.length_cons]
            omega
      | _ => cases h

theorem gives_popThen (p : Nat) : Gives (· = Next.goto p) (do
    let _ ← pop base pos
    return Next.goto p) :=
  Gives.bind _ fun _ => gives_pure rfl

theorem gives_pushThen (v : Value) (p : Nat) : Gives (· = Next.goto p) (do
    push v
    return Next.goto p) :=
  Gives.bind _ fun _ => gives_pure rfl

/-- An instruction that calls goes on after its argument records, unless it leaves the frame. -/
theorem gives_stepCall (n : Nat) (op : Opcode) :
    Gives (fun next => ∀ p, next = Next.goto p → p = pos + 1 + n) (stepCall call s base pos n op) := by
  have hpush : ∀ v, Gives (fun next => ∀ p, next = Next.goto p → p = pos + 1 + n) (do
      push v
      return Next.goto (pos + 1 + n)) := fun v =>
    Gives.bind _ fun _ => gives_pure fun p hp => by cases hp; rfl
  have hcall : ∀ function bindings, Gives (fun next => ∀ p, next = Next.goto p → p = pos + 1 + n)
      (stepPlainCall call s pos (pos + 1 + n) function bindings) := by
    intro function bindings
    refine Gives.bind _ fun result => ?_
    cases result with
    | ok v => exact hpush v
    | error e => exact Gives.bind _ fun _ => Gives.bind _ fun _ => gives_fail e
  unfold stepCall
  refine Gives.bind _ fun params => Gives.bind _ fun args => Gives.bind _ fun function => ?_
  by_cases h : op = .closure
  · simp only [if_pos h]
    exact Gives.bind _ hpush
  · simp only [if_neg h]
    refine Gives.bind _ fun height => ?_
    generalize hx : (if (decide (op = .tailCall) && height == base) = true then
      tailScript? function (params.zip args) else none) = target
    cases target with
    | none => exact hcall function _
    | some target => exact gives_pure fun p hp => by cases hp

theorem ok_of_ofExcept {r : Except EvalError α} {a : α} {m m' : Machine}
    (h : ofExcept r m = (.ok a, m')) : r = .ok a := by
  cases r <;> cases h
  rfl

theorem find?_of_operatorAt {γ : Type} [Family γ] {n : Nat} {op : γ}
    (h : operatorAt γ pos n = .ok op) : Family.find? n = some op := by
  unfold operatorAt Family.ofCode at h
  cases hf : (Family.find? n : Option γ) with
  | some op' => rw [hf] at h; cases h; rfl
  | none => rw [hf] at h; cases h

/-- An instruction makes one of its moves. -/
theorem moves_of_step (registry : Registry) {i : Instruction} (hi : s.code[pos]? = some i)
    (o : Origins) {m m' : Machine} {next : Nat}
    (h : step call s base pos m = (.ok (.goto next), m')) :
    o.Moves registry s pos i next (o.after registry s i m m') := by
  unfold step at h
  rw [hi] at h
  have goes : ∀ {p} {x : Run Next}, x = stepInstr call s base pos i →
      Gives (· = Next.goto p) x → next = p := by
    rintro p x rfl hx
    have := hx _ _ _ h
    cases this
    rfl
  rcases i with ⟨opcode, n, hn⟩
  cases opcode with
  | nop => exact ⟨goes rfl (gives_pure rfl), rfl⟩
  | pushConst => exact ⟨goes rfl (Gives.bind _ fun v => gives_pushThen v _), rfl⟩
  | pop => exact ⟨goes rfl (gives_popThen _), rfl⟩
  | dup =>
    refine ⟨goes rfl (Gives.bind _ fun stack => ?_), rfl⟩
    by_cases hb : n ≥ stack.length - base
    · simp only [if_pos hb]; exact gives_fail _
    · simp only [if_neg hb]; exact gives_pushThen _ _
  | jump => exact ⟨goes rfl (gives_takeJump n), rfl⟩
  | jumpIfNot =>
    refine ⟨?_, rfl⟩
    obtain ⟨v, m₁, h₁, h⟩ := run_bind_eq_ok h
    obtain ⟨b, m₂, h₂, h⟩ := run_bind_eq_ok h
    cases b with
    | true => cases h; exact .inl rfl
    | false =>
      have := gives_takeJump n _ _ _ h
      cases this
      exact .inr rfl
  | jumpScAnd =>
    rcases shortCircuit_next true rfl rfl h with ⟨hn, hl⟩ | ⟨hn, hl⟩
    · exact .inl ⟨hn, if_pos hl⟩
    · exact .inr ⟨hn, if_neg hl⟩
  | jumpScOr =>
    rcases shortCircuit_next false rfl rfl h with ⟨hn, hl⟩ | ⟨hn, hl⟩
    · exact .inl ⟨hn, if_pos hl⟩
    · exact .inr ⟨hn, if_neg hl⟩
  | loop =>
    rcases stepLoop_next n false h with ⟨hn, hl⟩ | ⟨hn, hl⟩
    · exact .inl ⟨hn, by simp only [Origins.after, hl, decide_false]⟩
    · exact .inr ⟨hn, by simp only [Origins.after, hl, decide_true]⟩
  | loopWithKey =>
    rcases stepLoop_next n true h with ⟨hn, hl⟩ | ⟨hn, hl⟩
    · exact .inl ⟨hn, by simp only [Origins.after, hl, decide_false]⟩
    · exact .inr ⟨hn, by simp only [Origins.after, hl, decide_true]⟩
  | ret =>
    obtain ⟨v, m₁, h₁, h⟩ := run_bind_eq_ok h
    cases h
  | getVar => exact ⟨goes rfl (Gives.bind _ fun v => gives_pushThen v _), rfl⟩
  | setVar => exact ⟨goes rfl (Gives.bind _ fun v => Gives.bind _ fun _ => gives_pure rfl), rfl⟩
  | memberC =>
    refine ⟨goes rfl (Gives.bind _ fun key => Gives.bind _ fun object => ?_), rfl⟩
    exact gives_pushThen _ _
  | makeObject =>
    exact ⟨goes rfl (Gives.bind _ fun values => Gives.bind _ fun v => gives_pushThen v _), rfl⟩
  | call => exact ⟨gives_stepCall n .call _ _ _ h next rfl, rfl⟩
  | closure => exact ⟨gives_stepCall n .closure _ _ _ h next rfl, rfl⟩
  | tailCall => exact ⟨gives_stepCall n .tailCall _ _ _ h next rfl, rfl⟩
  | unary =>
    obtain ⟨op, m₁, h₁, h⟩ := run_bind_eq_ok h
    have hop := find?_of_operatorAt (ok_of_ofExcept h₁)
    refine ⟨?_, op, hop, by simp only [Origins.after, hop]⟩
    have := (Gives.bind _ fun a => Gives.bind _ fun v => gives_pushThen v _) _ _ _ h
    cases this
    rfl
  | binary =>
    obtain ⟨op, m₁, h₁, h⟩ := run_bind_eq_ok h
    have hop := find?_of_operatorAt (ok_of_ofExcept h₁)
    refine ⟨?_, op, _, hop, by simp only [Origins.after, hop]; rfl⟩
    have := (Gives.bind _ fun b => Gives.bind _ fun a => Gives.bind _ fun v =>
      gives_pushThen v _) _ _ _ h
    cases this
    rfl
  | ternary =>
    refine ⟨goes rfl (Gives.bind _ fun op => Gives.bind _ fun args => ?_), rfl⟩
    split
    · exact gives_pushThen _ _
    · exact gives_pure rfl
  | quaternary =>
    refine ⟨goes rfl (Gives.bind _ fun op => Gives.bind _ fun args => ?_), rfl⟩
    split
    · exact gives_pushThen _ _
    · exact gives_pure rfl

end Run

end ReactiveScript
