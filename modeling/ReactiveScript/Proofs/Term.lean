import ReactiveScript.Machine.Call
import ReactiveScript.Proofs.Assembled

/-
  Terms, what they mean and the code assembled for them.

  A term is an expression over constants and variables, with any operator, object literals and
  branches. `evaluate` says what it means: its parts are evaluated from left to right, and only those
  that a branch takes; a variable without value and a condition that is no truth value stop it. The
  builder emits the code of a term part by part, with jumps over the parts that are not taken
  (`emit_adds`).
-/

namespace ReactiveScript

mutual

/-- Expressions without effects on variables. -/
inductive Term
  | const (v : Value)
  | var (x : Variable)
  /-- A member under a constant key. -/
  | member (object : Term) (key : Value)
  | unary (op : UnaryOp) (a : Term)
  | binary (op : BinaryOp) (a b : Term)
  | ternary (op : TernaryOp) (a b c : Term)
  | quaternary (op : QuaternaryOp) (a b c d : Term)
  | object (pairs : TermPairs)
  | ite (condition whenTrue whenFalse : Term)
  | and (a b : Term)
  | or (a b : Term)

/-- The keys and values of an object literal. -/
inductive TermPairs
  | nil
  | cons (key value : Term) (rest : TermPairs)

end

/-- An evaluation that does nothing but work on the store. -/
abbrev Calculation := ExceptT EvalError (StateM Store)

/-- Go on with the truth value of a value. -/
def Calculation.choose {α : Type} (condition : Value) (whenTrue whenFalse : Calculation α) :
    Calculation α :=
  match condition.toBool with
  | .ok true => whenTrue
  | .ok false => whenFalse
  | .error e => throw e

mutual

/-- The value of a term, given those of the variables. -/
def Term.evaluate (vars : Variable → Option Value) : Term → Calculation Value
  | .const v => return v
  | .var x =>
    match vars x with
    | some v => return v
    | none => do throw (.unboundVariable (← Store.nameOf x))
  | .member a key => return (← a.evaluate vars).member key
  | .unary op a => do
    let x ← a.evaluate vars
    Operator.unary op x
  | .binary op a b => do
    let x ← a.evaluate vars
    let y ← b.evaluate vars
    Operator.binary op x y
  | .ternary op a b c => do
    let x ← a.evaluate vars
    let y ← b.evaluate vars
    let z ← c.evaluate vars
    return Operator.ternary op x y z
  | .quaternary op a b c d => do
    let x ← a.evaluate vars
    let y ← b.evaluate vars
    let z ← c.evaluate vars
    let u ← d.evaluate vars
    return Operator.quaternary op x y z u
  | .object pairs => do
    let values ← pairs.evaluate vars
    makeObject values
  | .ite c t e => do
    let x ← c.evaluate vars
    .choose x (t.evaluate vars) (e.evaluate vars)
  | .and a b => do
    let x ← a.evaluate vars
    .choose x (b.evaluate vars) (return x)
  | .or a b => do
    let x ← a.evaluate vars
    .choose x (return x) (b.evaluate vars)

/-- The keys and values, which alternate. -/
def TermPairs.evaluate (vars : Variable → Option Value) : TermPairs → Calculation (List Value)
  | .nil => return []
  | .cons key value rest => do
    let k ← key.evaluate vars
    let v ← value.evaluate vars
    return k :: v :: (← rest.evaluate vars)

end

/-- What a script of a term returns: its value, unless that is a delayed error. -/
def Term.result (vars : Variable → Option Value) (t : Term) : Calculation Value := do
  match (← t.evaluate vars).force with
  | .ok v => return v
  | .error e => throw e

/-! ## Assembling -/

/-- The number of pairs. -/
def TermPairs.count : TermPairs → Nat
  | .nil => 0
  | .cons _ _ rest => rest.count + 1

mutual

/-- Append the code of a term. -/
def Term.emit : Term → Builder → Builder
  | .const v, b => b.pushConst v
  | .var x, b => b.getVar x
  | .member a key, b => (a.emit b).memberConst key
  | .unary op a, b => (a.emit b).unary op
  | .binary op a b, s => (b.emit (a.emit s)).binary op
  | .ternary op a b c, s => (c.emit (b.emit (a.emit s))).ternary op
  | .quaternary op a b c d, s => (d.emit (c.emit (b.emit (a.emit s)))).quaternary op
  | .object pairs, b => (pairs.emit b).makeObject pairs.count
  | .ite c t e, b =>
    let (otherwise, b) := (c.emit b).jumpAhead .jumpIfNot
    let (done, b) := (t.emit b).jumpAhead .jump
    (e.emit (b.landHere otherwise)).landHere done
  | .and a b, s =>
    let (done, s) := (a.emit s).jumpAhead .jumpScAnd
    (b.emit s).landHere done
  | .or a b, s =>
    let (done, s) := (a.emit s).jumpAhead .jumpScOr
    (b.emit s).landHere done

/-- Append the code of keys and values. -/
def TermPairs.emit : TermPairs → Builder → Builder
  | .nil, b => b
  | .cons key value rest, b => rest.emit (value.emit (key.emit b))

end

/-- The builder of a script that returns the value of a term. -/
def Term.assemble (t : Term) : Builder := (t.emit .empty).ret

/-! ## The code as a list -/

mutual

/-- The number of instructions. -/
def Term.size : Term → Nat
  | .const _ => 1
  | .var _ => 1
  | .member a _ => a.size + 1
  | .unary _ a => a.size + 1
  | .binary _ a b => a.size + b.size + 1
  | .ternary _ a b c => a.size + b.size + c.size + 1
  | .quaternary _ a b c d => a.size + b.size + c.size + d.size + 1
  | .object pairs => pairs.size + 1
  | .ite c t e => c.size + t.size + e.size + 2
  | .and a b => a.size + b.size + 1
  | .or a b => a.size + b.size + 1

/-- The number of instructions of keys and values. -/
def TermPairs.size : TermPairs → Nat
  | .nil => 0
  | .cons key value rest => key.size + value.size + rest.size

end

mutual

/-- The constants in the order of their use. -/
def Term.constants : Term → List Value
  | .const v => [v]
  | .var _ => []
  | .member a key => a.constants ++ [key]
  | .unary _ a => a.constants
  | .binary _ a b => a.constants ++ b.constants
  | .ternary _ a b c => a.constants ++ b.constants ++ c.constants
  | .quaternary _ a b c d => a.constants ++ b.constants ++ c.constants ++ d.constants
  | .object pairs => pairs.constants
  | .ite c t e => c.constants ++ t.constants ++ e.constants
  | .and a b => a.constants ++ b.constants
  | .or a b => a.constants ++ b.constants

/-- The constants of keys and values. -/
def TermPairs.constants : TermPairs → List Value
  | .nil => []
  | .cons key value rest => key.constants ++ value.constants ++ rest.constants

end

mutual

/-- The instructions from position `pos` on, when there are `n` constants before. -/
def Term.code : Term → Nat → Nat → List (Opcode × Nat)
  | .const _, _, n => [(.pushConst, n)]
  | .var x, _, _ => [(.getVar, x.id)]
  | .member a _, pos, n => a.code pos n ++ [(.memberC, n + a.constants.length)]
  | .unary op a, pos, n => a.code pos n ++ [(.unary, Family.code op)]
  | .binary op a b, pos, n =>
    a.code pos n ++ b.code (pos + a.size) (n + a.constants.length) ++ [(.binary, Family.code op)]
  | .ternary op a b c, pos, n =>
    a.code pos n ++ b.code (pos + a.size) (n + a.constants.length) ++
      c.code (pos + a.size + b.size) (n + a.constants.length + b.constants.length) ++
      [(.ternary, Family.code op)]
  | .quaternary op a b c d, pos, n =>
    a.code pos n ++ b.code (pos + a.size) (n + a.constants.length) ++
      c.code (pos + a.size + b.size) (n + a.constants.length + b.constants.length) ++
      d.code (pos + a.size + b.size + c.size)
        (n + a.constants.length + b.constants.length + c.constants.length) ++
      [(.quaternary, Family.code op)]
  | .object pairs, pos, n => pairs.code pos n ++ [(.makeObject, pairs.count)]
  | .ite c t e, pos, n =>
    let whenTrue := pos + c.size + 1
    let whenFalse := whenTrue + t.size + 1
    c.code pos n ++ (.jumpIfNot, whenFalse) :: (t.code whenTrue (n + c.constants.length) ++
      (.jump, whenFalse + e.size) ::
        e.code whenFalse (n + c.constants.length + t.constants.length))
  | .and a b, pos, n =>
    a.code pos n ++ (.jumpScAnd, pos + a.size + 1 + b.size) ::
      b.code (pos + a.size + 1) (n + a.constants.length)
  | .or a b, pos, n =>
    a.code pos n ++ (.jumpScOr, pos + a.size + 1 + b.size) ::
      b.code (pos + a.size + 1) (n + a.constants.length)

/-- The instructions of keys and values. -/
def TermPairs.code : TermPairs → Nat → Nat → List (Opcode × Nat)
  | .nil, _, _ => []
  | .cons key value rest, pos, n =>
    key.code pos n ++ value.code (pos + key.size) (n + key.constants.length) ++
      rest.code (pos + key.size + value.size)
        (n + key.constants.length + value.constants.length)

end

mutual

theorem Term.length_code (t : Term) (pos n : Nat) : (t.code pos n).length = t.size := by
  cases t with
  | const | var => rfl
  | member a key => simp [Term.code, Term.size, a.length_code]
  | unary op a => simp [Term.code, Term.size, a.length_code]
  | binary op a b =>
    simp [Term.code, Term.size, a.length_code, b.length_code]
    omega
  | ternary op a b c =>
    simp [Term.code, Term.size, a.length_code, b.length_code, c.length_code]
    omega
  | quaternary op a b c d =>
    simp [Term.code, Term.size, a.length_code, b.length_code, c.length_code, d.length_code]
    omega
  | object pairs => simp [Term.code, Term.size, pairs.length_code]
  | ite c t e =>
    simp [Term.code, Term.size, c.length_code, t.length_code, e.length_code]
    omega
  | and a b | or a b =>
    simp [Term.code, Term.size, a.length_code, b.length_code]
    omega

theorem TermPairs.length_code (pairs : TermPairs) (pos n : Nat) :
    (pairs.code pos n).length = pairs.size := by
  cases pairs with
  | nil => rfl
  | cons key value rest =>
    simp [TermPairs.code, TermPairs.size, key.length_code, value.length_code, rest.length_code]
    omega

end

mutual

/-- Emitting a term adds its code and its constants. -/
theorem Term.emit_adds (t : Term) (s : Builder) :
    s.Adds (t.emit s) (t.code s.position s.constants.size) t.constants := by
  cases t with
  | const v => exact s.adds_onConstant .pushConst v
  | var x => exact s.adds_append .getVar x.id
  | member a key =>
    have ha := a.emit_adds s
    have h := ha.trans ((a.emit s).adds_onConstant .memberC key)
    rw [ha.size_constants] at h
    exact h
  | unary op a =>
    have h := (a.emit_adds s).trans (Builder.adds_append _ .unary (Family.code op))
    rw [List.append_nil] at h
    exact h
  | binary op a b =>
    have h := ((a.emit_adds s).followedBy b.emit_adds).trans
      (Builder.adds_append _ .binary (Family.code op))
    simp only [List.append_nil, Term.length_code] at h
    exact h
  | ternary op a b c =>
    have h := (((a.emit_adds s).followedBy b.emit_adds).followedBy c.emit_adds).trans
      (Builder.adds_append _ .ternary (Family.code op))
    simp only [List.append_nil, List.length_append, Term.length_code, ← Nat.add_assoc] at h
    exact h
  | quaternary op a b c d =>
    have h := ((((a.emit_adds s).followedBy b.emit_adds).followedBy c.emit_adds).followedBy
      d.emit_adds).trans (Builder.adds_append _ .quaternary (Family.code op))
    simp only [List.append_nil, List.length_append, Term.length_code, ← Nat.add_assoc] at h
    exact h
  | object pairs =>
    have h := (pairs.emit_adds s).trans (Builder.adds_append _ .makeObject pairs.count)
    rw [List.append_nil] at h
    exact h
  | ite c t e =>
    have h := (c.emit_adds s).choice t.emit_adds e.emit_adds t.length_code e.length_code
    rw [Term.length_code] at h
    exact h
  | and a b =>
    have h := (a.emit_adds s).skipping .jumpScAnd b.emit_adds b.length_code
    rw [Term.length_code] at h
    exact h
  | or a b =>
    have h := (a.emit_adds s).skipping .jumpScOr b.emit_adds b.length_code
    rw [Term.length_code] at h
    exact h

/-- Emitting keys and values adds their code and their constants. -/
theorem TermPairs.emit_adds (pairs : TermPairs) (s : Builder) :
    s.Adds (pairs.emit s) (pairs.code s.position s.constants.size) pairs.constants := by
  cases pairs with
  | nil => exact ⟨rfl, (List.append_nil _).symm, fun he => ⟨he, (List.append_nil _).symm⟩⟩
  | cons key value rest =>
    have h := ((key.emit_adds s).followedBy value.emit_adds).followedBy rest.emit_adds
    simp only [List.length_append, Term.length_code, ← Nat.add_assoc] at h
    exact h

end

/-- What is built from a term has its code and its constants. -/
theorem Term.built_eq {t : Term} {st st' : Store} {b : Builder} {s : Script Value}
    (h : t.assemble.build st = ((.ok s, b), st')) :
    (s.code.toList.map fun i => (i.opcode, i.operand)) = t.code 0 0 ++ [(.ret, 0)] ∧
      s.constants.toList = t.constants := by
  have hadds := (t.emit_adds .empty).trans ((t.emit .empty).adds_append .ret 0)
  rw [List.append_nil] at hadds
  exact hadds.built h

end ReactiveScript
