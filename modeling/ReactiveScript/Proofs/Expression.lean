import ReactiveScript.Proofs.Assembled
import ReactiveScript.Proofs.Branches

/-
  Expressions and the code assembled for them.

  The builder emits the code of an expression with jumps that are pointed ahead once it is known
  where they land. `code` is that code as a list, and as long as no operand overflows the builder
  has exactly it (`emit_adds`). The frame has one height at each position whichever way the branches
  go (`along_code`), so the code is branching code, and a pass registers its dependency with
  whatever an evaluation of the expression reads (`registers_reads`).
-/

namespace ReactiveScript

/-- A constant without parts. -/
inductive Scalar
  | nil
  | bool (b : Bool)
  | int (n : Int64)
  | real (x : Float)
  | string (s : String)
  | color (c : Color)

/-- The value of a scalar. -/
def Scalar.value : Scalar → Value
  | nil => .nil
  | bool b => .bool b
  | int n => .int n
  | real x => .real x
  | string s => .string s
  | color c => .color c

theorem Scalar.issuedBelow (c : Scalar) (n : Ident) : c.value.IssuedBelow n := by
  cases c <;> exact Value.every_of_children_nil (fun _ _ h => by cases h) rfl

/-- Expressions with branches. -/
inductive Expression
  | const (c : Scalar)
  | var (x : Variable)
  /-- A member with a constant name. -/
  | member (object : Expression) (name : String)
  | unary (op : UnaryOp) (a : Expression)
  | binary (op : BinaryOp) (a b : Expression)
  /-- An operator on a value and its copy. -/
  | doubled (op : BinaryOp) (a : Expression)
  | ite (condition whenTrue whenFalse : Expression)
  | and (a b : Expression)
  | or (a b : Expression)
  /-- The value is kept after it was bound. -/
  | set (x : Variable) (a : Expression)
  /-- The value of the first expression is dropped. -/
  | seq (a b : Expression)

namespace Expression

/-- Append the code of an expression. -/
def emit : Expression → Builder → Builder
  | const c, b => b.pushConst c.value
  | var x, b => b.getVar x
  | member object name, b => (object.emit b).memberConst (.string name)
  | unary op x, b => (x.emit b).unary op
  | binary op x y, b => (y.emit (x.emit b)).binary op
  | doubled op x, b => ((x.emit b).dup 0).binary op
  | ite c t e, b =>
    let (otherwise, b) := (c.emit b).jumpAhead .jumpIfNot
    let (done, b) := (t.emit b).jumpAhead .jump
    (e.emit (b.landHere otherwise)).landHere done
  | and x y, b =>
    let (done, b) := (x.emit b).jumpAhead .jumpScAnd
    (y.emit b).landHere done
  | or x y, b =>
    let (done, b) := (x.emit b).jumpAhead .jumpScOr
    (y.emit b).landHere done
  | set x y, b => (y.emit b).setVar x
  | seq x y, b => y.emit (x.emit b).pop

/-- The builder of an expression, which may return explicitly or at the end of the code. -/
def assemble (e : Expression) (withRet : Bool) : Builder :=
  if withRet then (e.emit .empty).ret else e.emit .empty

/-- The variables that an expression binds. -/
def bound : Expression → List Variable
  | const _ => []
  | var _ => []
  | member x _ => x.bound
  | unary _ x => x.bound
  | binary _ x y => x.bound ++ y.bound
  | doubled _ x => x.bound
  | ite c t e => c.bound ++ t.bound ++ e.bound
  | and x y => x.bound ++ y.bound
  | or x y => x.bound ++ y.bound
  | set x y => x :: y.bound
  | seq x y => x.bound ++ y.bound

/-! ## The code as a list -/

/-- The number of instructions. -/
def size : Expression → Nat
  | const _ => 1
  | var _ => 1
  | member x _ => x.size + 1
  | unary _ x => x.size + 1
  | binary _ x y => x.size + y.size + 1
  | doubled _ x => x.size + 2
  | ite c t e => c.size + t.size + e.size + 2
  | and x y => x.size + y.size + 1
  | or x y => x.size + y.size + 1
  | set _ x => x.size + 1
  | seq x y => x.size + y.size + 1

theorem size_pos (e : Expression) : 0 < e.size := by
  cases e <;> exact Nat.succ_pos _

/-- The constants in the order of their use. -/
def constants : Expression → List Value
  | const c => [c.value]
  | var _ => []
  | member x name => x.constants ++ [.string name]
  | unary _ x => x.constants
  | binary _ x y => x.constants ++ y.constants
  | doubled _ x => x.constants
  | ite c t e => c.constants ++ t.constants ++ e.constants
  | and x y => x.constants ++ y.constants
  | or x y => x.constants ++ y.constants
  | set _ x => x.constants
  | seq x y => x.constants ++ y.constants

/-- The instructions from position `pos` on, when there are `n` constants before. -/
def code : Expression → Nat → Nat → List (Opcode × Nat)
  | const _, _, n => [(.pushConst, n)]
  | var x, _, _ => [(.getVar, x.id)]
  | member x _, pos, n => x.code pos n ++ [(.memberC, n + x.constants.length)]
  | unary op x, pos, n => x.code pos n ++ [(.unary, Family.code op)]
  | binary op x y, pos, n =>
    x.code pos n ++ y.code (pos + x.size) (n + x.constants.length) ++ [(.binary, Family.code op)]
  | doubled op x, pos, n => x.code pos n ++ [(.dup, 0), (.binary, Family.code op)]
  | ite c t e, pos, n =>
    let whenTrue := pos + c.size + 1
    let whenFalse := whenTrue + t.size + 1
    c.code pos n ++ (.jumpIfNot, whenFalse) :: (t.code whenTrue (n + c.constants.length) ++
      (.jump, whenFalse + e.size) ::
        e.code whenFalse (n + c.constants.length + t.constants.length))
  | and x y, pos, n =>
    x.code pos n ++ (.jumpScAnd, pos + x.size + 1 + y.size) ::
      y.code (pos + x.size + 1) (n + x.constants.length)
  | or x y, pos, n =>
    x.code pos n ++ (.jumpScOr, pos + x.size + 1 + y.size) ::
      y.code (pos + x.size + 1) (n + x.constants.length)
  | set x y, pos, n => y.code pos n ++ [(.setVar, x.id)]
  | seq x y, pos, n =>
    x.code pos n ++ (.pop, 0) :: y.code (pos + x.size + 1) (n + x.constants.length)

theorem length_code (e : Expression) (pos n : Nat) : (e.code pos n).length = e.size := by
  induction e generalizing pos n with
  | const => rfl
  | var => rfl
  | member x name ih => simp [code, size, ih]
  | unary op x ih => simp [code, size, ih]
  | binary op x y ihx ihy => simp [code, size, ihx, ihy]; omega
  | doubled op x ih => simp [code, size, ih]
  | ite c t e ihc iht ihe => simp [code, size, ihc, iht, ihe]; omega
  | and x y ihx ihy => simp [code, size, ihx, ihy]; omega
  | or x y ihx ihy => simp [code, size, ihx, ihy]; omega
  | set x y ih => simp [code, size, ih]
  | seq x y ihx ihy => simp [code, size, ihx, ihy]; omega

/-- Emitting an expression adds its code and its constants. -/
theorem emit_adds (e : Expression) (b : Builder) :
    b.Adds (e.emit b) (e.code b.position b.constants.size) e.constants := by
  induction e generalizing b with
  | const c => exact b.adds_onConstant .pushConst c.value
  | var x => exact b.adds_append .getVar x.id
  | member x name ih =>
    have hx := ih b
    have h := hx.trans ((x.emit b).adds_onConstant .memberC (.string name))
    rw [hx.size_constants] at h
    exact h
  | unary op x ih =>
    have h := (ih b).trans ((x.emit b).adds_append .unary (Family.code op))
    rw [List.append_nil] at h
    exact h
  | binary op x y ihx ihy =>
    have h := ((ihx b).followedBy ihy).trans
      ((y.emit (x.emit b)).adds_append .binary (Family.code op))
    rw [length_code, List.append_nil] at h
    exact h
  | doubled op x ih =>
    have hdup := (ih b).trans ((x.emit b).adds_append .dup 0)
    have h := hdup.trans (((x.emit b).dup 0).adds_append .binary (Family.code op))
    rw [List.append_nil, List.append_nil, List.append_assoc] at h
    exact h
  | ite c t e ihc iht ihe =>
    have h := (ihc b).choice iht ihe t.length_code e.length_code
    rw [length_code] at h
    exact h
  | and x y ihx ihy =>
    have h := (ihx b).skipping .jumpScAnd ihy y.length_code
    rw [length_code] at h
    exact h
  | or x y ihx ihy =>
    have h := (ihx b).skipping .jumpScOr ihy y.length_code
    rw [length_code] at h
    exact h
  | set x y ih =>
    have h := (ih b).trans ((y.emit b).adds_append .setVar x.id)
    rw [List.append_nil] at h
    exact h
  | seq x y ihx ihy =>
    have h := ((ihx b).trans ((x.emit b).adds_append .pop 0)).followedBy ihy
    rw [List.length_append, length_code, List.append_assoc, List.append_nil] at h
    exact h

/-! ## Heights -/

/-- The height of the frame before each instruction, when it is `h` at the start. -/
def heights : Expression → Nat → List Nat
  | const _, h => [h]
  | var _, h => [h]
  | member x _, h => x.heights h ++ [h + 1]
  | unary _ x, h => x.heights h ++ [h + 1]
  | binary _ x y, h => x.heights h ++ y.heights (h + 1) ++ [h + 2]
  | doubled _ x, h => x.heights h ++ [h + 1, h + 2]
  | ite c t e, h => c.heights h ++ (h + 1) :: (t.heights h ++ (h + 1) :: e.heights h)
  | and x y, h => x.heights h ++ (h + 1) :: y.heights h
  | or x y, h => x.heights h ++ (h + 1) :: y.heights h
  | set _ x, h => x.heights h ++ [h + 1]
  | seq x y, h => x.heights h ++ (h + 1) :: y.heights h

theorem length_heights (e : Expression) (h : Nat) : (e.heights h).length = e.size := by
  induction e generalizing h with
  | const => rfl
  | var => rfl
  | member x name ih => simp [heights, size, ih]
  | unary op x ih => simp [heights, size, ih]
  | binary op x y ihx ihy => simp [heights, size, ihx, ihy]; omega
  | doubled op x ih => simp [heights, size, ih]
  | ite c t e ihc iht ihe => simp [heights, size, ihc, iht, ihe]; omega
  | and x y ihx ihy => simp [heights, size, ihx, ihy]; omega
  | or x y ihx ihy => simp [heights, size, ihx, ihy]; omega
  | set x y ih => simp [heights, size, ih]
  | seq x y ihx ihy => simp [heights, size, ihx, ihy]; omega

/-- `H` is what the list says from a position on. -/
def Agrees (H : Nat → Nat) : Nat → List Nat → Prop
  | _, [] => True
  | pos, h :: rest => H pos = h ∧ Agrees H (pos + 1) rest

theorem agrees_append {H : Nat → Nat} {pos : Nat} {hs hs' : List Nat} :
    Agrees H pos (hs ++ hs') ↔ Agrees H pos hs ∧ Agrees H (pos + hs.length) hs' := by
  induction hs generalizing pos with
  | nil => simp [Agrees]
  | cons h rest ih =>
    simp only [List.cons_append, Agrees, ih, List.length_cons, and_assoc]
    rw [show pos + 1 + rest.length = pos + (rest.length + 1) by omega]

theorem agrees_getD (before hs : List Nat) (d : Nat) :
    Agrees (fun pos => (before ++ hs)[pos]?.getD d) before.length hs := by
  induction hs generalizing before with
  | nil => trivial
  | cons h rest ih =>
    refine ⟨?_, ?_⟩
    · show (before ++ h :: rest)[before.length]?.getD d = h
      rw [List.getElem?_append_right (Nat.le_refl _), Nat.sub_self]
      rfl
    · have := ih (before ++ [h])
      rwa [List.append_assoc, List.length_append] at this

/-- The code from a position on changes the heights as its instructions do. -/
def Along (H : Nat → Nat) : Nat → List (Opcode × Nat) → Prop
  | _, [] => True
  | pos, i :: rest => HeightsAt H pos i.1 i.2 ∧ Along H (pos + 1) rest

theorem along_append {H : Nat → Nat} {pos : Nat} {code code' : List (Opcode × Nat)} :
    Along H pos (code ++ code') ↔ Along H pos code ∧ Along H (pos + code.length) code' := by
  induction code generalizing pos with
  | nil => simp [Along]
  | cons i rest ih =>
    simp only [List.cons_append, Along, ih, List.length_cons, and_assoc]
    rw [show pos + 1 + rest.length = pos + (rest.length + 1) by omega]

theorem along_getElem? {H : Nat → Nat} {pos k : Nat} {code : List (Opcode × Nat)}
    {i : Opcode × Nat} (h : Along H pos code) (hi : code[k]? = some i) :
    HeightsAt H (pos + k) i.1 i.2 := by
  induction code generalizing pos k with
  | nil => cases hi
  | cons j rest ih =>
    obtain ⟨hj, hrest⟩ := h
    cases k with
    | zero => cases hi; exact hj
    | succ k =>
      have := ih hrest hi
      rwa [show pos + 1 + k = pos + (k + 1) by omega] at this

theorem agrees_start {H : Nat → Nat} {pos : Nat} {e : Expression} {h : Nat}
    (ha : Agrees H pos (e.heights h)) : H pos = h := by
  induction e generalizing h with
  | const => exact ha.1
  | var => exact ha.1
  | member x name ih => exact ih (agrees_append.1 ha).1
  | unary op x ih => exact ih (agrees_append.1 ha).1
  | binary op x y ihx ihy => exact ihx (agrees_append.1 (agrees_append.1 ha).1).1
  | doubled op x ih => exact ih (agrees_append.1 ha).1
  | ite c t e ihc iht ihe => exact ihc (agrees_append.1 ha).1
  | and x y ihx ihy => exact ihx (agrees_append.1 ha).1
  | or x y ihx ihy => exact ihx (agrees_append.1 ha).1
  | set x y ih => exact ih (agrees_append.1 ha).1
  | seq x y ihx ihy => exact ihx (agrees_append.1 ha).1

/-- Code that is followed by one instruction. -/
theorem along_snoc {H : Nat → Nat} {pos : Nat} {code : List (Opcode × Nat)} {op : Opcode} {n : Nat}
    (h : Along H pos code) (hlast : HeightsAt H (pos + code.length) op n) :
    Along H pos (code ++ [(op, n)]) :=
  along_append.2 ⟨h, hlast, trivial⟩

/-- An instruction between two expressions that drops the value of the first one. -/
theorem along_between {H : Nat → Nat} {pos n k h target : Nat} {op : Opcode} {x y : Expression}
    (ihx : Agrees H pos (x.heights h) → H (pos + x.size) = h + 1 → Along H pos (x.code pos n))
    (ihy : ∀ pos', Agrees H pos' (y.heights h) → H (pos' + y.size) = h + 1 →
      Along H pos' (y.code pos' k))
    (ha : Agrees H pos (x.heights h ++ (h + 1) :: y.heights h))
    (hend : H (pos + x.size + 1 + y.size) = h + 1)
    (hop : H (pos + x.size) = h + 1 → H (pos + x.size + 1) = h →
      HeightsAt H (pos + x.size) op target) :
    Along H pos (x.code pos n ++ (op, target) :: y.code (pos + x.size + 1) k) := by
  obtain ⟨hx, hbetween, hy⟩ := agrees_append.1 ha
  rw [length_heights] at hbetween hy
  refine along_append.2 ⟨ihx hx hbetween, ?_⟩
  rw [length_code]
  exact ⟨hop hbetween (agrees_start hy), ihy _ hy hend⟩

/-- With the heights of an expression, which leaves one operand more, its code changes them as it
should. -/
theorem along_code {H : Nat → Nat} {e : Expression} {pos n h : Nat}
    (ha : Agrees H pos (e.heights h)) (hend : H (pos + e.size) = h + 1) :
    Along H pos (e.code pos n) := by
  induction e generalizing pos n h with
  | const c => exact ⟨hend.trans (congrArg (· + 1) ha.1.symm), trivial⟩
  | var x => exact ⟨hend.trans (congrArg (· + 1) ha.1.symm), trivial⟩
  | member x name ih | unary op x ih | set var x ih =>
    obtain ⟨hx, hlast, -⟩ := agrees_append.1 ha
    rw [length_heights] at hlast
    refine along_snoc (ih hx hlast) ?_
    rw [length_code]
    exact ⟨by omega, hend.trans hlast.symm⟩
  | binary op x y ihx ihy =>
    obtain ⟨hxy, hlast, -⟩ := agrees_append.1 ha
    obtain ⟨hx, hy⟩ := agrees_append.1 hxy
    rw [List.length_append, length_heights, length_heights, ← Nat.add_assoc] at hlast
    rw [length_heights] at hy
    refine along_snoc (along_append.2 ⟨ihx hx (agrees_start hy), ?_⟩) ?_
    · rw [length_code]
      exact ihy hy hlast
    · rw [List.length_append, length_code, length_code, ← Nat.add_assoc]
      simp only [size, ← Nat.add_assoc] at hend
      exact ⟨by omega, by omega⟩
  | doubled op x ih =>
    obtain ⟨hx, hcopy, hlast, -⟩ := agrees_append.1 ha
    rw [length_heights] at hcopy hlast
    refine along_append.2 ⟨ih hx hcopy, ?_⟩
    rw [length_code]
    have hend' : H (pos + x.size + 1 + 1) = h + 1 := hend
    exact ⟨⟨by omega, by omega⟩, ⟨by omega, by omega⟩, trivial⟩
  | ite c t e ihc iht ihe =>
    obtain ⟨hc, hif, hrest⟩ := agrees_append.1 ha
    rw [length_heights] at hif hrest
    obtain ⟨ht, hjump, he⟩ := agrees_append.1 hrest
    rw [length_heights] at hjump he
    have hthen := agrees_start ht
    have helse := agrees_start he
    have hend' : H (pos + c.size + 1 + t.size + 1 + e.size) = h + 1 := by
      rw [show pos + c.size + 1 + t.size + 1 + e.size = pos + (c.size + t.size + e.size + 2) by omega]
      exact hend
    refine along_append.2 ⟨ihc hc hif, ?_⟩
    rw [length_code]
    have hpos := size_pos e
    refine ⟨⟨?_, by omega, helse.trans hthen.symm⟩, along_append.2 ⟨iht ht hjump, ?_⟩⟩
    · show pos + c.size < pos + c.size + 1 + t.size + 1
      omega
    · rw [length_code]
      refine ⟨⟨?_, hend'.trans hjump.symm⟩, ihe he hend'⟩
      show pos + c.size + 1 + t.size < pos + c.size + 1 + t.size + 1 + e.size
      omega
  | and x y ihx ihy | or x y ihx ihy =>
    have hend' : H (pos + x.size + 1 + y.size) = h + 1 := by
      rw [show pos + x.size + 1 + y.size = pos + (x.size + y.size + 1) by omega]
      exact hend
    refine along_between ihx (fun _ => ihy) ha hend' fun h₁ h₂ => ?_
    exact ⟨by omega, hend'.trans h₁.symm, by omega⟩
  | seq x y ihx ihy =>
    have hend' : H (pos + x.size + 1 + y.size) = h + 1 := by
      rw [show pos + x.size + 1 + y.size = pos + (x.size + y.size + 1) by omega]
      exact hend
    refine along_between ihx (fun _ => ihy) ha hend' fun h₁ h₂ => ?_
    show H (pos + x.size) = H (pos + x.size + 1) + 1
    omega

/-! ## The script of an expression -/

theorem bound_of_mem_code {e : Expression} {pos n index : Nat}
    (h : (Opcode.setVar, index) ∈ e.code pos n) : ⟨index⟩ ∈ e.bound := by
  induction e generalizing pos n with
  | const c => simp [code] at h
  | var x => simp [code] at h
  | member x name ih =>
    simp only [code, List.mem_append, List.mem_singleton, Prod.mk.injEq, reduceCtorEq, false_and,
      or_false] at h
    exact ih h
  | unary op x ih =>
    simp only [code, List.mem_append, List.mem_singleton, Prod.mk.injEq, reduceCtorEq, false_and,
      or_false] at h
    exact ih h
  | binary op x y ihx ihy =>
    simp only [code, List.mem_append, List.mem_singleton, Prod.mk.injEq, reduceCtorEq, false_and,
      or_false] at h
    exact List.mem_append.2 (h.imp ihx ihy)
  | doubled op x ih =>
    simp only [code, List.mem_append, List.mem_cons, List.not_mem_nil, Prod.mk.injEq, reduceCtorEq,
      false_and, or_false] at h
    exact ih h
  | ite c t e ihc iht ihe =>
    simp only [code, List.mem_append, List.mem_cons, Prod.mk.injEq, reduceCtorEq, false_and,
      false_or] at h
    refine List.mem_append.2 ?_
    rcases h with h | h | h
    · exact .inl (List.mem_append_left _ (ihc h))
    · exact .inl (List.mem_append_right _ (iht h))
    · exact .inr (ihe h)
  | and x y ihx ihy | or x y ihx ihy | seq x y ihx ihy =>
    simp only [code, List.mem_append, List.mem_cons, Prod.mk.injEq, reduceCtorEq, false_and,
      false_or] at h
    exact List.mem_append.2 (h.imp ihx ihy)
  | set x y ih =>
    simp only [code, List.mem_append, List.mem_singleton, Prod.mk.injEq, true_and] at h
    rcases h with h | rfl
    · exact List.mem_cons_of_mem _ (ih h)
    · exact List.mem_cons_self

/-- The constants of an expression have no parts. -/
theorem scalar_of_mem_constants {e : Expression} {v : Value} (h : v ∈ e.constants) :
    ∃ c : Scalar, v = c.value := by
  induction e with
  | const c => exact ⟨c, List.mem_singleton.1 h⟩
  | var x => cases h
  | member x name ih =>
    rcases List.mem_append.1 h with h | h
    · exact ih h
    · exact ⟨.string name, List.mem_singleton.1 h⟩
  | unary op x ih | doubled op x ih | set x y ih => exact ih h
  | binary op x y ihx ihy | and x y ihx ihy | or x y ihx ihy | seq x y ihx ihy =>
    exact (List.mem_append.1 h).elim ihx ihy
  | ite c t e ihc iht ihe =>
    exact (List.mem_append.1 h).elim (fun h => (List.mem_append.1 h).elim ihc iht) ihe

/-- The instructions of an assembled expression. -/
def listing (e : Expression) (withRet : Bool) : List (Opcode × Nat) :=
  e.code 0 0 ++ if withRet then [(.ret, 0)] else []

/-- What is built from an expression has its code and its constants. -/
theorem built_eq {e : Expression} {withRet : Bool} {st st' : Store} {b : Builder}
    {s : Script Value} (h : (e.assemble withRet).build st = ((.ok s, b), st')) :
    (s.code.toList.map fun i => (i.opcode, i.operand)) = e.listing withRet ∧
      s.constants.toList = e.constants := by
  have hadds : Builder.Adds .empty (e.assemble withRet) (e.listing withRet) e.constants := by
    have he := e.emit_adds .empty
    cases withRet with
    | false =>
      unfold listing
      rw [if_neg Bool.false_ne_true, List.append_nil]
      exact he
    | true =>
      have hr := he.trans ((e.emit .empty).adds_append .ret 0)
      rw [List.append_nil] at hr
      exact hr
  exact hadds.built h

/-- The code of an expression is branching code that binds the variables the expression binds. -/
theorem branching_of_built {e : Expression} {withRet : Bool} {st st' : Store} {b : Builder}
    {s : Script Value} (h : (e.assemble withRet).build st = ((.ok s, b), st')) :
    ∃ H, Branching s H (· ∈ e.bound) := by
  obtain ⟨hcode, -⟩ := built_eq h
  let H : Nat → Nat := fun pos => (e.heights 0)[pos]?.getD 1
  have hagrees : Agrees H 0 (e.heights 0) := agrees_getD [] (e.heights 0) 1
  have hend : H (0 + e.size) = 0 + 1 := by
    show (e.heights 0)[0 + e.size]?.getD 1 = 1
    rw [List.getElem?_eq_none (by rw [length_heights]; omega)]
    rfl
  have halong : Along H 0 (e.listing withRet) := by
    refine along_append.2 ⟨along_code hagrees hend, ?_⟩
    cases withRet
    · exact trivial
    · exact ⟨trivial, trivial⟩
  have hget : ∀ (pos : Nat) (i : Instruction), s.code[pos]? = some i →
      (e.listing withRet)[pos]? = some (i.opcode, i.operand) := by
    intro pos i hi
    rw [← hcode, List.getElem?_map, Array.getElem?_toList, hi]
    rfl
  refine ⟨H, agrees_start hagrees, fun pos i hi => ?_, fun pos i hi hop => ?_⟩
  · have := along_getElem? halong (hget pos i hi)
    rwa [Nat.zero_add] at this
  · have hmem := List.mem_of_getElem? (hget pos i hi)
    rw [hop] at hmem
    rcases List.mem_append.1 hmem with hmem | hmem
    · exact bound_of_mem_code hmem
    · cases withRet <;> simp at hmem

/-- A successful pass over the script of an expression, whose variables are bound and registered
nowhere when it starts, has registered its dependency with every owner that some evaluation of the
script reads. -/
theorem registers_reads {e : Expression} {withRet : Bool} {st st' : Store} {b : Builder}
    {s : Script Value} (hbuild : (e.assemble withRet).build st = ((.ok s, b), st')) {m m' : Machine}
    (hfree : ∀ x ∈ e.bound, m.context.registry.lookup? x = none ∧ m.context.env.get? x = none)
    (hissued : m.Issued) {dep : Dependency} (hdep : dep.isDummy = false) {budget : Nat} {v : Value}
    (hrun : Run.trackReads budget dep s m = (.ok v, m')) (call : Caller) (base steps : Nat)
    (start : Machine) :
    ∀ owner ∈ Run.readsFrom call m.context.registry s base steps 0 .start start,
      owner < m.store.dependents.size → dep ∈ m'.store.dependents[owner]?.getD [] := by
  obtain ⟨H, hcode⟩ := branching_of_built hbuild
  have hconst : ∀ v ∈ s.constants, v.IssuedBelow m.store.nextIdent := by
    intro v hv
    rw [← Array.mem_toList_iff, (built_eq hbuild).2] at hv
    obtain ⟨c, rfl⟩ := scalar_of_mem_constants hv
    exact c.issuedBelow _
  have hcode' := hcode.mono fun x hx => (hfree x hx).2
  exact Run.registers_of_trackReads hcode' hissued hconst hdep hrun call base steps start

/-- A group is bound to a variable, and then one of its members is read on either side of a branch. -/
def eitherMember : Expression :=
  .seq (.set ⟨1⟩ (.var ⟨0⟩))
    (.ite (.const (.bool true)) (.member (.var ⟨1⟩) "yes") (.member (.var ⟨0⟩) "no"))

/-- The script of the expression. -/
def eitherMemberScript : Script Value :=
  ⟨0, (eitherMember.assemble true).code, (eitherMember.assemble true).constants⟩

/-- A machine in which the group is registered. -/
def groupMachine : Machine where
  context := { Context.ofSettings ⟨10, false, 0⟩ with
    registry := ⟨[(⟨0⟩, .group "card" [("yes", .owner "yes" 0), ("no", .owner "no" 1)])]⟩ }
  store := { Store.empty with nextIdent := 1, dependents := #[[], []] }

/-- A machine in which the variable of the group is bound. -/
def boundMachine : Machine :=
  ⟨{ Context.ofSettings ⟨10, false, 0⟩ with env := Environment.empty.set ⟨0⟩ .nil }, .empty⟩

theorem issued_groupMachine : groupMachine.Issued :=
  ⟨⟨fun _ s hs => (by cases hs), fun _ hb => (by cases hb)⟩, fun _ hv => (by cases hv),
    fun _ hit => absurd hit (Array.not_mem_empty _)⟩

theorem registers_reads_eitherMember : ∃ v m',
    Run.trackReads 40 ⟨.cardField, 0⟩ eitherMemberScript groupMachine = (.ok v, m') ∧
      0 ∈ Run.readsFrom (fun _ _ => pure .nil) groupMachine.context.registry eitherMemberScript 0 20 0
        .start boundMachine ∧
      ⟨.cardField, 0⟩ ∈ m'.store.dependents[0]?.getD [] := by
  have hbuild : (eitherMember.assemble true).build .empty =
      ((.ok eitherMemberScript, .empty), { Store.empty with nextIdent := 1 }) := rfl
  have hok : (Run.trackReads 40 ⟨.cardField, 0⟩ eitherMemberScript groupMachine).1.isOk = true := by
    decide +kernel
  have hreads : Run.readsFrom (fun _ _ => pure .nil) groupMachine.context.registry
      eitherMemberScript 0 20 0 .start boundMachine = [0] := by
    decide +kernel
  have hread := hreads ▸ List.mem_singleton_self 0
  rcases hrun : Run.trackReads 40 ⟨.cardField, 0⟩ eitherMemberScript groupMachine with ⟨stop | v, m'⟩
  · rw [hrun] at hok
    cases hok
  · refine ⟨v, m', rfl, hread, ?_⟩
    exact registers_reads hbuild (by decide) issued_groupMachine rfl hrun _ 0 20 boundMachine 0 hread
      (by decide)

end Expression

end ReactiveScript
