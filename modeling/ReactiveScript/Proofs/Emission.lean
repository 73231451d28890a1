import ReactiveScript.Proofs.Assembled

/-
  What a builder emits.

  The calls on a builder ask for instructions and constants and say where jumps land. `Plan` writes
  down what was asked for, in order, and nothing of how it is assembled: each instruction with the
  operand that was wanted for it, the constants, and each landing with the number of instructions at
  its time. A builder reflects the plan of its calls (`Draft.Reflects`), which every call preserves
  (`Draft.Reflects.perform`): nothing is ever left out, so positions, the indices of constants and
  labels do not shift, whatever operands overflow. So what is built follows from the plan
  (`build_emits`).
-/

namespace ReactiveScript

/-! ## Calls -/

/-- A call on a builder before it builds. Labels are told apart by the order in which the jumps ahead
were appended. -/
inductive BuilderCall
  | append (opcode : Opcode) (operand : Nat)
  | constant (v : Value)
  | pushConst (v : Value)
  | memberConst (key : Value)
  | pop
  | dup (depth : Nat)
  | ret
  | getVar (x : Variable)
  | setVar (x : Variable)
  | unary (op : UnaryOp)
  | binary (op : BinaryOp)
  | ternary (op : TernaryOp)
  | quaternary (op : QuaternaryOp)
  | makeObject (pairs : Nat)
  | call (params : List Variable)
  | tailCall (params : List Variable)
  | closure (params : List Variable)
  | jumpAhead (opcode : Opcode)
  | landHere (label : Nat)

/-- A builder with the labels that it gave out. -/
structure Draft where
  builder : Builder
  labels : List Label

/-- The number of instructions that a call appends. -/
def BuilderCall.size : BuilderCall → Nat
  | .constant _ | .landHere _ => 0
  | .call params | .tailCall params | .closure params => 1 + params.length
  | _ => 1

namespace Draft

/-- Nothing was called yet. -/
def empty : Draft := ⟨.empty, []⟩

/-- Do something on the builder. -/
def on (d : Draft) (f : Builder → Builder) : Draft := { d with builder := f d.builder }

/-- Make a call. There is no way to pass a label that the builder did not give out. -/
def perform (d : Draft) : BuilderCall → Draft
  | .append opcode operand => d.on fun b => b.append opcode operand
  | .constant v => d.on fun b => b.addConstant v
  | .pushConst v => d.on fun b => b.pushConst v
  | .memberConst key => d.on fun b => b.memberConst key
  | .pop => d.on Builder.pop
  | .dup depth => d.on fun b => b.dup depth
  | .ret => d.on Builder.ret
  | .getVar x => d.on fun b => b.getVar x
  | .setVar x => d.on fun b => b.setVar x
  | .unary op => d.on fun b => b.unary op
  | .binary op => d.on fun b => b.binary op
  | .ternary op => d.on fun b => b.ternary op
  | .quaternary op => d.on fun b => b.quaternary op
  | .makeObject pairs => d.on fun b => b.makeObject pairs
  | .call params => d.on fun b => b.call params
  | .tailCall params => d.on fun b => b.tailCall params
  | .closure params => d.on fun b => b.closure params
  | .jumpAhead opcode =>
    let (label, builder) := d.builder.jumpAhead opcode
    ⟨builder, d.labels ++ [label]⟩
  | .landHere label =>
    match d.labels[label]? with
    | some label => d.on fun b => b.landHere label
    | none => d

/-- Make calls in order. -/
def performAll (d : Draft) (calls : List BuilderCall) : Draft := calls.foldl perform d

end Draft

/-! ## Plans -/

/-- What stands in a list stands there after more was appended. -/
theorem getElem?_append_of_some {α : Type} {list : List α} {index : Nat} {a : α}
    (h : list[index]? = some a) (more : List α) : (list ++ more)[index]? = some a := by
  rw [List.getElem?_append_left (List.getElem?_eq_some_iff.1 h).1]
  exact h

/-- An instruction that was asked for, with the constant that its operand stands for. -/
structure InstructionRequest where
  opcode : Opcode
  operand : Nat
  value : Option Value

/-- What was asked for. -/
structure Plan where
  requests : List InstructionRequest
  values : List Value
  /-- The positions of the jumps ahead. -/
  jumps : List Nat
  /-- The position of a jump ahead with the number of instructions when it was told to land. -/
  landings : List (Nat × Nat)
  /-- All operands, also those of landings, in the order of the calls. -/
  operands : List Nat

namespace Plan

/-- Nothing was asked for. -/
def empty : Plan := ⟨[], [], [], [], []⟩

/-- Ask for an instruction. -/
def request (p : Plan) (r : InstructionRequest) : Plan :=
  { p with requests := p.requests ++ [r], operands := p.operands ++ [r.operand] }

/-- Ask for an instruction without a constant. -/
def plain (p : Plan) (opcode : Opcode) (operand : Nat) : Plan := p.request ⟨opcode, operand, none⟩

/-- Give a constant. -/
def give (p : Plan) (v : Value) : Plan := { p with values := p.values ++ [v] }

/-- Ask for an instruction on a constant of its own. -/
def onValue (p : Plan) (opcode : Opcode) (v : Value) : Plan :=
  (p.give v).request ⟨opcode, p.values.length, some v⟩

/-- Ask for an instruction and the records of its arguments. -/
def withArguments (p : Plan) (opcode : Opcode) (params : List Variable) : Plan :=
  params.foldl (fun p x => p.plain .setVar x.id) (p.plain opcode params.length)

/-- Let a jump land. -/
def land (p : Plan) (jump : Nat) : Plan :=
  { p with
    landings := p.landings ++ [(jump, p.requests.length)]
    operands := p.operands ++ [p.requests.length] }

/-- Write down a call. -/
def record (p : Plan) : BuilderCall → Plan
  | .append opcode operand => p.plain opcode operand
  | .constant v => p.give v
  | .pushConst v => p.onValue .pushConst v
  | .memberConst key => p.onValue .memberC key
  | .pop => p.plain .pop 0
  | .dup depth => p.plain .dup depth
  | .ret => p.plain .ret 0
  | .getVar x => p.plain .getVar x.id
  | .setVar x => p.plain .setVar x.id
  | .unary op => p.plain .unary (Family.code op)
  | .binary op => p.plain .binary (Family.code op)
  | .ternary op => p.plain .ternary (Family.code op)
  | .quaternary op => p.plain .quaternary (Family.code op)
  | .makeObject pairs => p.plain .makeObject pairs
  | .call params => p.withArguments .call params
  | .tailCall params => p.withArguments .tailCall params
  | .closure params => p.withArguments .closure params
  | .jumpAhead opcode =>
    { p.plain opcode 0 with jumps := p.jumps ++ [p.requests.length] }
  | .landHere label =>
    match p.jumps[label]? with
    | some jump => p.land jump
    | none => p

/-- The plan of some calls. -/
def of (calls : List BuilderCall) : Plan := calls.foldl record empty

/-- The first operand that does not fit. -/
def misfit? (p : Plan) : Option Nat := p.operands.find? (operandBound ≤ ·)

/-- Where the instruction at a position was last told to land. -/
def lastLanding? (p : Plan) (pos : Nat) : Option Nat :=
  ((p.landings.filter fun l => l.1 = pos).getLast?).map (·.2)

/-- Where it was last told to land by a target that fits. -/
def lastFitting? (p : Plan) (pos : Nat) : Option Nat :=
  ((p.landings.filter fun l => l.1 = pos ∧ l.2 < operandBound).getLast?).map (·.2)

/-- What the builder has at a position where an instruction was asked for: nothing but a placeholder
if the operand does not fit. -/
def emitted (p : Plan) (pos : Nat) (r : InstructionRequest) : Opcode × Nat :=
  if r.operand < operandBound then (r.opcode, (p.lastFitting? pos).getD r.operand) else (.nop, 0)

/-- The parts of a plan fit together: operands stand for the constants that were given, all of them
are listed, and only jumps ahead land. -/
structure Sound (p : Plan) : Prop where
  values : ∀ r ∈ p.requests, ∀ v, r.value = some v → p.values[r.operand]? = some v
  operands : ∀ r ∈ p.requests, r.operand ∈ p.operands
  jumps : ∀ pos ∈ p.jumps, ∃ r, p.requests[pos]? = some r ∧ r.operand = 0 ∧ r.value = none
  landings : ∀ l ∈ p.landings, l.1 ∈ p.jumps ∧ l.2 ∈ p.operands

variable {p : Plan} {r : InstructionRequest} {v : Value} {pos jump : Nat}

theorem Sound.empty : Plan.empty.Sound where
  values r hr := by cases hr
  operands r hr := by cases hr
  jumps pos hpos := by cases hpos
  landings l hl := by cases hl

theorem Sound.request (h : p.Sound) (hr : ∀ v, r.value = some v → p.values[r.operand]? = some v) :
    (p.request r).Sound where
  values r' hr' := by
    rcases List.mem_append.1 hr' with hr' | hr'
    · exact h.values r' hr'
    · exact List.mem_singleton.1 hr' ▸ hr
  operands r' hr' := by
    rcases List.mem_append.1 hr' with hr' | hr'
    · exact List.mem_append_left _ (h.operands r' hr')
    · exact List.mem_append_right _ (List.mem_singleton.1 hr' ▸ List.mem_singleton.2 rfl)
  jumps pos hpos := by
    obtain ⟨r', hr', hzero, hnone⟩ := h.jumps pos hpos
    exact ⟨r', getElem?_append_of_some hr' _, hzero, hnone⟩
  landings l hl := ⟨(h.landings l hl).1, List.mem_append_left _ (h.landings l hl).2⟩

theorem Sound.give (h : p.Sound) (v : Value) : (p.give v).Sound where
  values r hr w hw := getElem?_append_of_some (h.values r hr w hw) _
  operands := h.operands
  jumps := h.jumps
  landings := h.landings

theorem Sound.land (h : p.Sound) (hjump : jump ∈ p.jumps) : (p.land jump).Sound where
  values := h.values
  operands r hr := List.mem_append_left _ (h.operands r hr)
  jumps := h.jumps
  landings l hl := by
    rcases List.mem_append.1 hl with hl | hl
    · exact ⟨(h.landings l hl).1, List.mem_append_left _ (h.landings l hl).2⟩
    · obtain rfl := List.mem_singleton.1 hl
      exact ⟨hjump, List.mem_append_right _ (List.mem_singleton.2 rfl)⟩

/-- An instruction that is asked for is not told to land before. -/
theorem Sound.lastFitting?_eq_none (h : p.Sound) : p.lastFitting? p.requests.length = none := by
  have hnone : (p.landings.filter fun l => l.1 = p.requests.length ∧ l.2 < operandBound) = [] := by
    refine List.filter_eq_nil_iff.2 fun l hl hat => ?_
    obtain ⟨hat, -⟩ := of_decide_eq_true hat
    obtain ⟨r, hr, -⟩ := h.jumps l.1 (h.landings l hl).1
    have hlt := (List.getElem?_eq_some_iff.1 hr).1
    omega
  unfold lastFitting?
  rw [hnone]
  rfl

/-- The last landing counts, if its target fits. -/
theorem lastFitting?_land (p : Plan) (jump pos : Nat) :
    (p.land jump).lastFitting? pos =
      if jump = pos ∧ p.requests.length < operandBound then some p.requests.length
      else p.lastFitting? pos := by
  unfold lastFitting? land
  dsimp only
  rw [List.filter_append]
  by_cases h : jump = pos ∧ p.requests.length < operandBound
  · rw [if_pos h, List.filter_cons, if_pos (decide_eq_true h), List.filter_nil,
      List.getLast?_concat]
    rfl
  · have hdropped : ¬ decide (jump = pos ∧ p.requests.length < operandBound) = true := fun hkept =>
      h (of_decide_eq_true hkept)
    rw [if_neg h, List.filter_cons, if_neg hdropped, List.filter_nil, List.append_nil]

theorem misfit?_append (list : List Nat) (n : Nat) :
    (list ++ [n]).find? (operandBound ≤ ·) =
      (list.find? (operandBound ≤ ·)).or (if n < operandBound then none else some n) := by
  rw [List.find?_append]
  congr 1
  by_cases h : n < operandBound
  · rw [if_pos h]
    simp [h]
  · rw [if_neg h]
    simp [Nat.le_of_not_lt h]

end Plan

/-! ## The builder reflects the plan -/

namespace Draft

/-- The builder has what was asked for, each thing in its place. -/
structure Reflects (d : Draft) (p : Plan) : Prop where
  sound : p.Sound
  constants : d.builder.constants.toList = p.values
  labels : d.labels.map (·.position) = p.jumps
  error : d.builder.error = p.misfit?.map .operandOverflow
  length : d.builder.ops.length = p.requests.length
  ops : ∀ pos r, p.requests[pos]? = some r → d.builder.ops[pos]? = some (p.emitted pos r)

variable {d : Draft} {p : Plan}

theorem Reflects.empty : Draft.empty.Reflects .empty where
  sound := .empty
  constants := rfl
  labels := rfl
  error := rfl
  length := rfl
  ops pos r h := by cases h

theorem Reflects.position_eq (h : d.Reflects p) : d.builder.position = p.requests.length := by
  rw [← h.length, Builder.length_ops]

theorem map_misfit (list : List Nat) (n : Nat) :
    ((list ++ [n]).find? (operandBound ≤ ·)).map EncodeError.operandOverflow =
      ((list.find? (operandBound ≤ ·)).map .operandOverflow).or (Builder.misfit n) := by
  rw [Plan.misfit?_append, Option.map_or]
  congr 1
  unfold Builder.misfit
  split <;> rfl

/-- An instruction that is asked for is appended. -/
theorem Reflects.request (h : d.Reflects p) (op : Opcode) (n : Nat) (value : Option Value)
    (hvalue : ∀ v, value = some v → p.values[n]? = some v) :
    (d.on fun b => b.append op n).Reflects (p.request ⟨op, n, value⟩) := by
  obtain ⟨hops, hconstants, herror⟩ := d.builder.append_cases op n
  refine ⟨h.sound.request hvalue, hconstants ▸ h.constants, h.labels, ?_, ?_, ?_⟩
  · show (d.builder.append op n).error = _
    rw [herror, h.error]
    exact (map_misfit p.operands n).symm
  · show (d.builder.append op n).ops.length = (p.requests ++ [_]).length
    rw [hops, List.length_append, List.length_append, h.length]
    rfl
  · intro pos r hr
    show (d.builder.append op n).ops[pos]? = _
    rw [hops]
    by_cases hlt : pos < p.requests.length
    · have hr' : p.requests[pos]? = some r := by
        rw [← hr]
        exact (List.getElem?_append_left hlt).symm
      exact getElem?_append_of_some (h.ops pos r hr') _
    · obtain rfl : pos = p.requests.length := by
        have := (List.getElem?_eq_some_iff.1 hr).1
        simp only [Plan.request, List.length_append, List.length_singleton] at this
        omega
      obtain rfl : ⟨op, n, value⟩ = r := by
        have hlast : (p.requests ++ [⟨op, n, value⟩])[p.requests.length]? = some ⟨op, n, value⟩ :=
          List.getElem?_concat_length
        exact Option.some.inj (hlast.symm.trans hr)
      have hnone : (p.request ⟨op, n, value⟩).lastFitting? p.requests.length = none :=
        h.sound.lastFitting?_eq_none
      rw [← h.length, List.getElem?_concat_length]
      unfold Plan.emitted
      rw [h.length, hnone]
      rfl

/-- A constant that is given is added. -/
theorem Reflects.give (h : d.Reflects p) (v : Value) :
    (d.on fun b => b.addConstant v).Reflects (p.give v) where
  sound := h.sound.give v
  constants := by
    show (d.builder.constants.push v).toList = p.values ++ [v]
    rw [Array.toList_push, h.constants]
  labels := h.labels
  error := h.error
  length := h.length
  ops := h.ops

theorem Reflects.onValue (h : d.Reflects p) (op : Opcode) (v : Value) :
    (d.on fun b => b.onConstant op v).Reflects (p.onValue op v) := by
  have hsize : d.builder.constants.size = p.values.length := by
    rw [← Array.length_toList, h.constants]
  have hgiven : (d.on fun b => b.onConstant op v) =
      (d.on fun b => b.addConstant v).on fun b => b.append op p.values.length := by
    rw [← hsize]
    rfl
  rw [hgiven]
  refine (h.give v).request op p.values.length (some v) ?_
  intro w hw
  cases hw
  exact List.getElem?_concat_length

theorem Reflects.plain (h : d.Reflects p) (op : Opcode) (n : Nat) :
    (d.on fun b => b.append op n).Reflects (p.plain op n) :=
  h.request op n none fun v hv => by cases hv

theorem Reflects.withArguments (h : d.Reflects p) (op : Opcode) (params : List Variable) :
    (d.on fun b => b.withArguments op params).Reflects (p.withArguments op params) := by
  have hrecords : ∀ {d : Draft} {p : Plan}, d.Reflects p →
      (d.on fun b => b.appendAll (params.map fun x => (.setVar, x.id))).Reflects
        (params.foldl (fun p x => p.plain .setVar x.id) p) := by
    induction params with
    | nil => exact fun h => h
    | cons x rest ih => exact fun h => ih (h.plain .setVar x.id)
  exact hrecords (h.plain op params.length)

/-- A jump ahead is appended, and its label goes to its position. -/
theorem Reflects.jumpAhead (h : d.Reflects p) (op : Opcode) :
    (d.perform (.jumpAhead op)).Reflects (p.record (.jumpAhead op)) := by
  have hplain := h.plain op 0
  refine ⟨⟨hplain.sound.values, hplain.sound.operands, ?_, ?_⟩, hplain.constants, ?_, hplain.error,
    hplain.length, hplain.ops⟩
  · intro pos hpos
    rcases List.mem_append.1 hpos with hpos | hpos
    · exact hplain.sound.jumps pos hpos
    · obtain rfl := List.mem_singleton.1 hpos
      exact ⟨⟨op, 0, none⟩, List.getElem?_concat_length, rfl, rfl⟩
  · intro l hl
    have hbefore := hplain.sound.landings l hl
    exact ⟨List.mem_append_left _ hbefore.1, hbefore.2⟩
  · show (d.labels ++ [Label.mk d.builder.position]).map Label.position =
      p.jumps ++ [p.requests.length]
    rw [List.map_append, h.labels, h.position_eq]
    rfl

/-- A jump ahead that is told to land gets the number of instructions so far, if that fits. -/
theorem Reflects.land (h : d.Reflects p) {label : Label} (hjump : label.position ∈ p.jumps) :
    (d.on fun b => b.landHere label).Reflects (p.land label.position) := by
  obtain ⟨r, hr, hzero, -⟩ := h.sound.jumps label.position hjump
  have hfits : r.operand < operandBound := by
    rw [hzero]
    decide
  have hop := h.ops label.position r hr
  unfold Plan.emitted at hop
  rw [if_pos hfits] at hop
  obtain ⟨hops, hconstants, herror⟩ := Builder.landHere_at hop
  rw [h.position_eq] at hops herror
  refine ⟨h.sound.land hjump, hconstants ▸ h.constants, h.labels, ?_, ?_, ?_⟩
  · show (d.builder.landHere label).error = _
    rw [herror, h.error]
    exact (map_misfit p.operands p.requests.length).symm
  · show (d.builder.landHere label).ops.length = p.requests.length
    rw [hops]
    split
    · rw [List.length_set, h.length]
    · exact h.length
  · intro pos r' hr'
    have hbefore := h.ops pos r' hr'
    show (d.builder.landHere label).ops[pos]? = _
    rw [hops]
    unfold Plan.emitted at hbefore ⊢
    rw [Plan.lastFitting?_land]
    by_cases hland : label.position = pos ∧ p.requests.length < operandBound
    · obtain ⟨rfl, hlt⟩ := hland
      obtain rfl : r = r' := Option.some.inj (hr.symm.trans hr')
      have hlen : label.position < d.builder.ops.length := (List.getElem?_eq_some_iff.1 hop).1
      rw [if_pos hlt, if_pos hfits, if_pos ⟨rfl, hlt⟩, List.getElem?_set_self hlen]
      rfl
    · rw [if_neg hland]
      split
      · next hlt =>
        rw [List.getElem?_set_ne fun heq => hland ⟨heq, hlt⟩]
        exact hbefore
      · exact hbefore

/-- **Every call keeps the builder in step with what was asked for.** -/
theorem Reflects.perform (h : d.Reflects p) (c : BuilderCall) :
    (d.perform c).Reflects (p.record c) := by
  cases c with
  | append op n => exact h.plain op n
  | constant v => exact h.give v
  | pushConst v => exact h.onValue .pushConst v
  | memberConst key => exact h.onValue .memberC key
  | pop => exact h.plain .pop 0
  | dup depth => exact h.plain .dup depth
  | ret => exact h.plain .ret 0
  | getVar x => exact h.plain .getVar x.id
  | setVar x => exact h.plain .setVar x.id
  | unary op => exact h.plain .unary (Family.code op)
  | binary op => exact h.plain .binary (Family.code op)
  | ternary op => exact h.plain .ternary (Family.code op)
  | quaternary op => exact h.plain .quaternary (Family.code op)
  | makeObject pairs => exact h.plain .makeObject pairs
  | call params => exact h.withArguments .call params
  | tailCall params => exact h.withArguments .tailCall params
  | closure params => exact h.withArguments .closure params
  | jumpAhead op => exact h.jumpAhead op
  | landHere label =>
    have hlabel : p.jumps[label]? = (d.labels[label]?).map (·.position) := by
      rw [← h.labels, List.getElem?_map]
    show Draft.Reflects
      (match d.labels[label]? with
        | some label => d.on fun b => b.landHere label
        | none => d)
      (match p.jumps[label]? with
        | some jump => p.land jump
        | none => p)
    rcases hat : d.labels[label]? with _ | given
    · rw [hat] at hlabel
      rw [hlabel]
      exact h
    · rw [hat] at hlabel
      rw [hlabel]
      exact h.land (List.mem_of_getElem? hlabel)

/-- After some calls the builder reflects their plan. -/
theorem Reflects.performAll (h : d.Reflects p) (calls : List BuilderCall) :
    (d.performAll calls).Reflects (calls.foldl Plan.record p) := by
  induction calls generalizing d p with
  | nil => exact h
  | cons c rest ih => exact ih (h.perform c)

theorem reflects_of (calls : List BuilderCall) :
    (Draft.empty.performAll calls).Reflects (.of calls) :=
  Reflects.empty.performAll calls

/-- Whatever was called before, and whether the operands fit or not, a call appends its
instructions. -/
theorem position_perform (d : Draft) (c : BuilderCall) :
    (d.perform c).builder.position = d.builder.position + c.size := by
  have hrecords : ∀ (params : List Variable) (b : Builder),
      (b.appendAll (params.map fun x => (.setVar, x.id))).position =
        b.position + params.length := by
    intro params
    induction params with
    | nil => exact fun b => rfl
    | cons x rest ih =>
      intro b
      show ((b.append .setVar x.id).appendAll _).position = _
      rw [ih, Builder.position_append, List.length_cons]
      omega
  have hcall : ∀ (b : Builder) (op : Opcode) (params : List Variable),
      (b.withArguments op params).position = b.position + (1 + params.length) := by
    intro b op params
    unfold Builder.withArguments
    rw [hrecords, Builder.position_append, Nat.add_assoc]
  cases c with
  | constant v => rfl
  | pushConst v | memberConst v => exact Builder.position_append _ _ _
  | call params | tailCall params | closure params => exact hcall _ _ params
  | landHere label =>
    show (match d.labels[label]? with
      | some label => d.on fun b => b.landHere label
      | none => d).builder.position = d.builder.position
    cases d.labels[label]? with
    | none => rfl
    | some given => exact (d.builder.landHere_cases given).1
  | append | pop | dup | ret | getVar | setVar | unary | binary | ternary | quaternary | makeObject
  | jumpAhead => exact Builder.position_append _ _ _

end Draft

/-! ## Building -/

namespace Plan

variable {p : Plan} {pos : Nat} {r : InstructionRequest}

/-- If all operands fit, then so do all landings. -/
theorem Sound.lastFitting?_eq (h : p.Sound) (hfits : ∀ n ∈ p.operands, n < operandBound)
    (pos : Nat) : p.lastFitting? pos = p.lastLanding? pos := by
  unfold lastFitting? lastLanding?
  congr 2
  refine List.filter_congr fun l hl => ?_
  have hlt := hfits l.2 (h.landings l hl).2
  simp [hlt]

/-- An instruction on a constant is no jump. -/
theorem Sound.lastLanding?_eq_none (h : p.Sound) (hr : p.requests[pos]? = some r)
    (hvalue : r.value ≠ none) : p.lastLanding? pos = none := by
  have hnone : (p.landings.filter fun l => l.1 = pos) = [] := by
    refine List.filter_eq_nil_iff.2 fun l hl hat => ?_
    obtain rfl := of_decide_eq_true hat
    obtain ⟨r', hr', -, hplain⟩ := h.jumps l.1 (h.landings l hl).1
    obtain rfl := Option.some.inj (hr.symm.trans hr')
    exact hvalue hplain
  unfold lastLanding?
  rw [hnone]
  rfl

end Plan

namespace Draft

variable {d : Draft} {p : Plan}

/-- The instructions of a builder that reflects a plan. -/
theorem Reflects.getElem? (h : d.Reflects p) {pos : Nat} {r : InstructionRequest}
    (hr : p.requests[pos]? = some r) :
    ∃ i, d.builder.code[pos]? = some i ∧ (i.opcode, i.operand) = p.emitted pos r := by
  have hops := h.ops pos r hr
  rw [Builder.getElem?_ops] at hops
  exact Option.map_eq_some_iff.1 hops

/-- If all operands fit, the instructions are those that were asked for, but for the jumps that
landed. -/
theorem Reflects.getElem?_of_fits (h : d.Reflects p) (hfits : ∀ n ∈ p.operands, n < operandBound)
    {pos : Nat} {r : InstructionRequest} (hr : p.requests[pos]? = some r) :
    ∃ i, d.builder.code[pos]? = some i ∧ i.opcode = r.opcode ∧
      i.operand = (p.lastLanding? pos).getD r.operand ∧
      ∀ v, r.value = some v → d.builder.constants[i.operand]? = some v := by
  have hmem : r ∈ p.requests := List.mem_of_getElem? hr
  obtain ⟨i, hi, hemitted⟩ := h.getElem? hr
  unfold Plan.emitted at hemitted
  rw [if_pos (hfits r.operand (h.sound.operands r hmem)), h.sound.lastFitting?_eq hfits] at hemitted
  obtain ⟨hopcode, hoperand⟩ := Prod.mk.inj hemitted
  refine ⟨i, hi, hopcode, hoperand, fun v hv => ?_⟩
  have hstays : p.lastLanding? pos = none := by
    refine h.sound.lastLanding?_eq_none hr fun hnone => ?_
    rw [hnone] at hv
    cases hv
  rw [hoperand, hstays, ← Array.getElem?_toList, h.constants]
  exact h.sound.values r hmem v hv

/-- Whatever operands fit, those that do not have left a placeholder. -/
theorem Reflects.getElem?_cases (h : d.Reflects p) {pos : Nat} {r : InstructionRequest}
    (hr : p.requests[pos]? = some r) :
    ∃ i, d.builder.code[pos]? = some i ∧ (operandBound ≤ r.operand → i = .nop) ∧
      (r.operand < operandBound → i.opcode = r.opcode ∧
        i.operand = (p.lastFitting? pos).getD r.operand) := by
  obtain ⟨i, hi, hemitted⟩ := h.getElem? hr
  unfold Plan.emitted at hemitted
  refine ⟨i, hi, fun hover => ?_, fun hfits => ?_⟩
  · rw [if_neg (Nat.not_lt.2 hover)] at hemitted
    obtain ⟨opcode, operand, hlt⟩ := i
    cases hemitted
    rfl
  · rw [if_pos hfits] at hemitted
    exact Prod.mk.inj hemitted

/-- No error was noted if all operands fit. -/
theorem Reflects.error_eq_none (h : d.Reflects p) (hfits : ∀ n ∈ p.operands, n < operandBound) :
    d.builder.error = none := by
  have hnone : p.misfit? = none := by
    refine List.find?_eq_none.2 fun n hn hle => ?_
    have hlt := hfits n hn
    have hge := of_decide_eq_true hle
    omega
  rw [h.error, hnone]
  rfl

end Draft

namespace Builder

variable {b : Builder}

theorem build_of_none (h : b.error = none) (st : Store) :
    b.build st = ((.ok ⟨st.nextIdent, b.code, b.constants⟩, .empty),
      { st with nextIdent := st.nextIdent + 1 }) := by
  unfold build
  rw [h]
  rfl

theorem build_of_some {e : EncodeError} (h : b.error = some e) (st : Store) :
    b.build st = ((.error e, { b with error := none }), st) := by
  unfold build
  rw [h]
  rfl

/-- **The builder emits what was asked for.** Every call appends its instructions, so that positions
and labels never shift. If all operands fit, what is built has the instructions that were asked for,
a jump ahead with where it was last told to land, and the constants that their operands stand for.
Otherwise building reports the first operand that does not fit, and building again gives a script
with placeholders for the instructions whose operands did not fit and the jumps as they last could
land. Positions and numbers of constants and parameters of 32 bits are the same while there are fewer
than 2^32 of them (`Builder`). -/
theorem build_emits (calls : List BuilderCall) :
    let d := Draft.empty.performAll calls
    let p := Plan.of calls
    (∀ (d : Draft) (c : BuilderCall),
      (d.perform c).builder.position = d.builder.position + c.size) ∧
    (d.builder.position = p.requests.length ∧ d.labels.map (·.position) = p.jumps) ∧
    ((∀ n ∈ p.operands, n < operandBound) → ∀ st, ∃ s st',
      d.builder.build st = ((.ok s, .empty), st') ∧
        s.length = p.requests.length ∧ s.constants.toList = p.values ∧
        ∀ pos r, p.requests[pos]? = some r → ∃ i, s.code[pos]? = some i ∧ i.opcode = r.opcode ∧
          i.operand = (p.lastLanding? pos).getD r.operand ∧
          ∀ v, r.value = some v → s.constants[i.operand]? = some v) ∧
    (∀ n, p.misfit? = some n → ∀ st, ∃ b s st',
      d.builder.build st = ((.error (.operandOverflow n), b), st) ∧
        b.build st = ((.ok s, .empty), st') ∧
        s.length = p.requests.length ∧ s.constants.toList = p.values ∧
        ∀ pos r, p.requests[pos]? = some r → ∃ i, s.code[pos]? = some i ∧
          (operandBound ≤ r.operand → i = .nop) ∧
          (r.operand < operandBound → i.opcode = r.opcode ∧
            i.operand = (p.lastFitting? pos).getD r.operand)) := by
  intro d p
  have h : d.Reflects p := Draft.reflects_of calls
  have hlength : d.builder.code.size = p.requests.length := h.position_eq
  refine ⟨Draft.position_perform, ⟨h.position_eq, h.labels⟩, fun hfits st => ?_, fun n hn st => ?_⟩
  · have hbuild := build_of_none (h.error_eq_none hfits) st
    exact ⟨_, _, hbuild, hlength, h.constants, fun pos r hr => h.getElem?_of_fits hfits hr⟩
  · have herror : d.builder.error = some (.operandOverflow n) := by
      rw [h.error, hn]
      rfl
    exact ⟨_, _, _, build_of_some herror st, build_of_none rfl st, hlength, h.constants,
      fun pos r hr => h.getElem?_cases hr⟩

/-- A jump that is told to land twice, over a call with an argument. -/
def landsTwice : List BuilderCall :=
  [.pushConst (.bool true), .jumpAhead .jumpIfNot, .getVar ⟨7⟩, .landHere 0, .call [⟨3⟩],
    .landHere 0, .ret]

/-- An operand that is too large by one. -/
def overflowing : List BuilderCall := [.dup operandBound, .pop]

theorem build_emits_landsTwice :
    (∃ s st', (Draft.empty.performAll landsTwice).builder.build .empty = ((.ok s, .empty), st') ∧
      ∃ i, s.code[1]? = some i ∧ i.opcode = .jumpIfNot ∧ i.operand = 5) ∧
    ∃ b s st', (Draft.empty.performAll overflowing).builder.build .empty =
        ((.error (.operandOverflow operandBound), b), .empty) ∧
      b.build .empty = ((.ok s, .empty), st') ∧ s.code[0]? = some .nop := by
  obtain ⟨-, -, hbuilt, -⟩ := build_emits landsTwice
  obtain ⟨-, -, -, hrebuilt⟩ := build_emits overflowing
  have hfits : ∀ n ∈ (Plan.of landsTwice).operands, n < operandBound := by decide
  obtain ⟨s, st', hbuild, -, -, hcode⟩ := hbuilt hfits .empty
  obtain ⟨i, hi, hopcode, hoperand, -⟩ := hcode 1 ⟨.jumpIfNot, 0, none⟩ rfl
  obtain ⟨b, s', st'', hfailed, hagain, -, -, hcode'⟩ := hrebuilt operandBound (by decide) .empty
  obtain ⟨j, hj, hplaceholder, -⟩ := hcode' 0 ⟨.dup, operandBound, none⟩ rfl
  refine ⟨⟨s, st', hbuild, i, hi, hopcode, hoperand⟩, b, s', st'', hfailed, hagain, ?_⟩
  rw [hj, hplaceholder (Nat.le_refl operandBound)]

end Builder

end ReactiveScript
