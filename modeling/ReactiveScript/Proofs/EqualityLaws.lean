import ReactiveScript.Operator.Basic
import ReactiveScript.Proofs.Entrywise

/-
  The laws of equality.

  What EQ computes is put together from three rules: whole values are compared for what they are or
  by identity, collections by identity or else entry by entry, and a string with an integer or a
  boolean by text. Each law has to hold across all of them.

  That identity comes first does no harm where collections with one identity have the same entries
  (`Shared.equal_collection`), which is so for values that were made (`Store.Gathered.shared`): each
  collection gets an identity nothing has yet. So equality is an equivalence by induction on how
  deep collections are nested (`equal_self`, `equal_comm`, `Shared.equal_trans`). The rule for texts
  comes to this: values that spell something are equal if they spell the same (`looselyEqual_iff`),
  as an integer is read back from its text (`Decimal.integer?_toString`) and none reads like a
  boolean. Reals are left out: rounding noise adds up, so equality of these is not transitive.
-/

namespace ReactiveScript

namespace Value

/-! ## Values without reals -/

/-- A value that is neither a real nor a collection. -/
def IsWhole : Value → Prop
  | .real _ | .collection _ _ => False
  | _ => True

/-- A value that is no real and has none in it, however deep collections are nested. What functions,
objects and iterators hold does not matter: these are equal by identity. -/
inductive RealFree : Value → Prop
  | whole {v : Value} (h : v.IsWhole) : RealFree v
  | collection {id : Ident} {items : Collection Value} (each : ∀ v ∈ items.values, RealFree v) :
      RealFree (.collection id items)

/-- The same keys in the same order, with equal values. -/
def EqualEach : List (String × Value) → List (String × Value) → Prop :=
  Entrywise fun v w => v.equal w = true

theorem equalEntries_iff {xs ys : List (String × Value)} :
    equalEntries xs ys = true ↔ EqualEach xs ys := by
  induction xs generalizing ys with
  | nil => cases ys <;> simp [equalEntries, EqualEach, Entrywise]
  | cons x xs ih =>
    cases ys with
    | nil => simp [equalEntries, EqualEach, Entrywise]
    | cons y ys =>
      have hrest : equalEntries xs ys = true ↔ List.Forall₂ _ xs ys := ih
      simp only [equalEntries, Bool.and_eq_true, beq_iff_eq, hrest, EqualEach, Entrywise,
        List.forall₂_cons]

variable {a b c : Value} {i j : Ident} {xs ys : Collection Value}

theorem equal_collection : (Value.collection i xs).equal (.collection j ys) = true ↔
    i = j ∨ EqualEach xs.entries ys.entries := by
  have hunfold : (Value.collection i xs).equal (.collection j ys) =
      (i == j || equalEntries xs.entries ys.entries) := rfl
  rw [hunfold, Bool.or_eq_true, beq_iff_eq, equalEntries_iff]

theorem eq_collection_of_equal (h : (Value.collection i xs).equal b = true) :
    ∃ j ys, b = .collection j ys := by
  cases b with
  | collection j ys => exact ⟨j, ys, rfl⟩
  | _ => cases h

/-- A value without reals equals itself. -/
theorem equal_self (h : a.RealFree) : a.equal a = true := by
  cases h with
  | collection each => exact equal_collection.2 (.inl rfl)
  | whole hwhole =>
    cases a with
    | real => cases hwhole
    | collection => cases hwhole
    | nil => rfl
    | _ => exact beq_self_eq_true _

theorem equal_comm_of_whole (h : a.IsWhole) (b : Value) : a.equal b = b.equal a := by
  cases a <;> cases b <;> first | rfl | exact BEq.comm | cases h

/-- It does not matter on which side a value without reals stands. -/
theorem equal_comm (h : a.RealFree) (b : Value) : a.equal b = b.equal a := by
  induction h generalizing b with
  | whole hwhole => exact equal_comm_of_whole hwhole b
  | @collection i xs each ih =>
    cases b with
    | collection j ys =>
      rw [Bool.eq_iff_iff, equal_collection, equal_collection]
      have hvalue : ∀ x ∈ xs.entries, ∀ y : String × Value, x.2.equal y.2 = y.2.equal x.2 :=
        fun x hx y => ih x.2 (List.mem_map_of_mem hx) y.2
      refine or_congr eq_comm ⟨fun h => ?_, fun h => ?_⟩
      · exact h.flip fun x hx y _ heq => (hvalue x hx y).symm.trans heq
      · exact h.flip fun y _ x hx heq => (hvalue x hx y).trans heq
    | _ => rfl

/-- Whole values that are equal are equal to the same values. -/
theorem equal_congr_of_whole (ha : a.IsWhole) (hb : b.RealFree) (h : a.equal b = true)
    (c : Value) : a.equal c = b.equal c := by
  have hwhole : b.IsWhole := by
    cases hb with
    | whole hb => exact hb
    | collection => cases a <;> first | cases h | cases ha
  cases a with
  | real => cases ha
  | collection => cases ha
  | nil => cases b <;> first | rfl | cases h
  | bool | int | string | color | iterator | error =>
    cases b with
    | real => cases hwhole
    | _ => first | cases h | rw [eq_of_beq h]
  | object | script | builtin | closure | composition =>
    -- What has an identity may differ in what it holds, which equality does not look at.
    cases b with
    | object | script | builtin | closure | composition =>
      first
      | cases h
      | have hident := eq_of_beq h
        cases c <;> first | rfl | exact congrArg (· == _) hident
    | _ => cases h

/-! ## Identities -/

/-- Values without reals that hold only each other, and of which those with one identity have the
same entries. -/
structure Shared (vs : List Value) : Prop where
  realFree : ∀ v ∈ vs, v.RealFree
  parts : ∀ {id items}, .collection id items ∈ vs → ∀ v ∈ items.values, v ∈ vs
  same : ∀ {id items items'}, .collection id items ∈ vs → .collection id items' ∈ vs →
    items = items'

section Shared

variable {vs : List Value} {v : Value}

/-- A whole value is no collection. -/
theorem IsWhole.mem_tail (hv : v.IsWhole) (h : .collection i xs ∈ v :: vs) :
    .collection i xs ∈ vs := by
  cases h with
  | head => cases hv
  | tail _ h => exact h

theorem Shared.whole (h : Shared vs) (hv : v.IsWhole) : Shared (v :: vs) where
  realFree := List.forall_mem_cons.2 ⟨.whole hv, h.realFree⟩
  parts hmem w hpart := List.mem_cons_of_mem _ (h.parts (hv.mem_tail hmem) w hpart)
  same hmem hmem' := h.same (hv.mem_tail hmem) (hv.mem_tail hmem')

/-- A collection of values that are there can join them with an identity that none of them has. -/
theorem Shared.collection (h : Shared vs) (hparts : ∀ v ∈ xs.values, v ∈ vs)
    (hnew : ∀ ys, .collection i ys ∉ vs) : Shared (.collection i xs :: vs) where
  realFree := by
    refine List.forall_mem_cons.2 ⟨.collection fun v hv => ?_, h.realFree⟩
    exact h.realFree v (hparts v hv)
  parts hmem v hpart := by
    refine List.mem_cons_of_mem _ ?_
    cases hmem with
    | head => exact hparts v hpart
    | tail _ hmem => exact h.parts hmem v hpart
  same hmem hmem' := by
    cases hmem with
    | head =>
      cases hmem' with
      | head => rfl
      | tail _ hmem' => exact absurd hmem' (hnew _)
    | tail _ hmem =>
      cases hmem' with
      | head => exact absurd hmem (hnew _)
      | tail _ hmem' => exact h.same hmem hmem'

/-- That collections with one identity are equal adds nothing to their being equal entry by
entry. -/
theorem Shared.equal_collection (h : Shared vs) (ha : .collection i xs ∈ vs)
    (hb : .collection j ys ∈ vs) : (Value.collection i xs).equal (.collection j ys) = true ↔
      EqualEach xs.entries ys.entries := by
  rw [Value.equal_collection, or_iff_right_of_imp]
  rintro rfl
  rw [← h.same ha hb]
  refine List.forall₂_same.2 fun entry hentry => ⟨rfl, equal_self ?_⟩
  exact h.realFree _ (h.parts ha _ (List.mem_map_of_mem hentry))

/-- Equality is transitive: on whole values for what they are, and on collections entry by entry. -/
theorem Shared.equal_trans (h : Shared vs) (ha : a ∈ vs) (hb : b ∈ vs) (hc : c ∈ vs)
    (hab : a.equal b = true) (hbc : b.equal c = true) : a.equal c = true := by
  have hfree : a.RealFree := h.realFree a ha
  induction hfree generalizing b c with
  | whole hwhole => rwa [equal_congr_of_whole hwhole (h.realFree b hb) hab c]
  | @collection i xs _ ih =>
    obtain ⟨j, ys, rfl⟩ := eq_collection_of_equal hab
    obtain ⟨k, zs, rfl⟩ := eq_collection_of_equal hbc
    rw [h.equal_collection ha hb] at hab
    rw [h.equal_collection hb hc] at hbc
    rw [h.equal_collection ha hc]
    refine hab.trans hbc fun x hx y hy z hz hxy hyz => ?_
    have hx : x.2 ∈ xs.values := List.mem_map_of_mem hx
    have hy : y.2 ∈ ys.values := List.mem_map_of_mem hy
    have hz : z.2 ∈ zs.values := List.mem_map_of_mem hz
    exact ih x.2 hx (h.parts ha _ hx) (h.parts hb _ hy) (h.parts hc _ hz) hxy hyz

end Shared

end Value

/-! ## What is made -/

/-- Values without reals that were made one after the other up to a store, each collection of values
made before it and with an identity of its own. -/
inductive Store.Gathered : Store → List Value → Prop
  | none {st : Store} : st.Gathered []
  | later {st st' : Store} {vs : List Value} (h : st.Gathered vs)
      (hlater : st.nextIdent ≤ st'.nextIdent) : st'.Gathered vs
  | whole {st : Store} {vs : List Value} {v : Value} (h : st.Gathered vs) (hv : v.IsWhole) :
      st.Gathered (v :: vs)
  | collection {st : Store} {vs : List Value} {items : Collection Value} (h : st.Gathered vs)
      (parts : ∀ v ∈ items.values, v ∈ vs) :
      (newCollection items st).2.Gathered ((newCollection items st).1 :: vs)

namespace Store.Gathered

variable {st : Store} {vs : List Value}

/-- A collection that was made has an identity below the next. -/
theorem lt_nextIdent (h : st.Gathered vs) {i : Ident} {xs : Collection Value}
    (hmem : .collection i xs ∈ vs) : i < st.nextIdent := by
  induction h with
  | none => cases hmem
  | later _ hlater ih => exact Nat.lt_of_lt_of_le (ih hmem) hlater
  | whole _ hv ih => exact ih (hv.mem_tail hmem)
  | collection _ _ ih =>
    cases hmem with
    | head => exact Nat.lt_succ_self _
    | tail _ hmem => exact Nat.lt_succ_of_lt (ih hmem)

theorem shared (h : st.Gathered vs) : Value.Shared vs := by
  induction h with
  | none => exact ⟨fun _ hv => (nomatch hv), fun hv => (nomatch hv), fun hv => (nomatch hv)⟩
  | later _ _ ih => exact ih
  | whole _ hv ih => exact ih.whole hv
  | collection h parts ih =>
    exact ih.collection parts fun _ hmem => Nat.lt_irrefl _ (h.lt_nextIdent hmem)

end Store.Gathered

/-! ## Equality as scripts see it -/

namespace Value

variable {st : Store} {vs : List Value} {a b c : Value} {s t : String}

/-- The text of a string, and what a string has to be to equal an integer or a boolean. -/
def spelling? (v : Value) : Option String :=
  match v with
  | .string _ | .int _ | .bool _ => some v.display
  | _ => none

theorem display_int_inj {m n : Int64} : (int m).display = (int n).display ↔ m = n := by
  refine ⟨fun h => ?_, fun h => congrArg _ (congrArg _ h)⟩
  have hread := congrArg Decimal.integer? h
  change Decimal.integer? (toString m.toInt) = Decimal.integer? (toString n.toInt) at hread
  rwa [Decimal.integer?_toString, Decimal.integer?_toString, Option.some.injEq] at hread

theorem display_int_ne_bool (n : Int64) (x : Bool) : (int n).display ≠ (bool x).display := by
  intro h
  have hread := congrArg Decimal.integer? h
  change Decimal.integer? (toString n.toInt) = _ at hread
  rw [Decimal.integer?_toString] at hread
  cases x <;> cases hread

theorem display_bool_inj {x y : Bool} : (bool x).display = (bool y).display ↔ x = y := by
  cases x <;> cases y <;> decide

theorem not_realFree_real (x : Float) : ¬ (real x).RealFree := by
  rintro ⟨h⟩
  exact h

/-- Equal values are spelled in the same way. -/
theorem spelling?_of_equal (ha : a.RealFree) (hb : b.RealFree) (h : a.equal b = true) :
    a.spelling? = b.spelling? := by
  cases a with
  | real => exact absurd ha (not_realFree_real _)
  | _ =>
    cases b with
    | real => exact absurd hb (not_realFree_real _)
    | _ => first | rfl | cases h | rw [eq_of_beq h]

/-- What is spelled in any way is compared by that. -/
theorem looselyEqual_of_spelled (ha : a.spelling? = some s) (hb : b.spelling? = some t) :
    a.looselyEqual b = true ↔ s = t := by
  cases a with
  | string =>
    cases ha
    cases b with
    | string => cases hb; exact beq_iff_eq
    | int => cases hb; exact beq_iff_eq.trans eq_comm
    | bool => cases hb; exact beq_iff_eq.trans eq_comm
    | _ => cases hb
  | int =>
    cases ha
    cases b with
    | string => cases hb; exact beq_iff_eq
    | int => cases hb; exact beq_iff_eq.trans display_int_inj.symm
    | bool => cases hb; exact iff_of_false Bool.false_ne_true (display_int_ne_bool _ _)
    | _ => cases hb
  | bool =>
    cases ha
    cases b with
    | string => cases hb; exact beq_iff_eq
    | int => cases hb; exact iff_of_false Bool.false_ne_true (display_int_ne_bool _ _).symm
    | bool => cases hb; exact beq_iff_eq.trans display_bool_inj.symm
    | _ => cases hb
  | _ => cases ha

/-- All else is compared as in collections. -/
theorem looselyEqual_of_unspelled (ha : a.RealFree) (hb : b.RealFree)
    (h : a.spelling? = none ∨ b.spelling? = none) : a.looselyEqual b = a.equal b := by
  unfold looselyEqual
  split
  · rcases h with h | h <;> cases h
  · exact absurd hb (not_realFree_real _)
  · rcases h with h | h <;> cases h
  · rcases h with h | h <;> cases h
  · exact absurd ha (not_realFree_real _)
  · rcases h with h | h <;> cases h
  · rfl

/-- Two values are equal to a script if they are spelled in the same way and, if they are not
spelled at all, equal. -/
theorem looselyEqual_iff (ha : a.RealFree) (hb : b.RealFree) : a.looselyEqual b = true ↔
    a.spelling? = b.spelling? ∧ (a.spelling? = none → a.equal b = true) := by
  cases hs : a.spelling? with
  | none =>
    rw [looselyEqual_of_unspelled ha hb (.inl hs)]
    refine ⟨fun h => ⟨?_, fun _ => h⟩, fun h => h.2 rfl⟩
    rw [← spelling?_of_equal ha hb h, hs]
  | some s =>
    cases ht : b.spelling? with
    | none =>
      rw [looselyEqual_of_unspelled ha hb (.inr ht)]
      refine iff_of_false (fun h => ?_) (fun h => nomatch h.1)
      have hsame := spelling?_of_equal ha hb h
      rw [hs, ht] at hsame
      cases hsame
    | some t =>
      rw [looselyEqual_of_spelled hs ht, Option.some.injEq]
      exact ⟨fun h => ⟨h, fun hnone => nomatch hnone⟩, And.left⟩

theorem looselyEqual_of_equal (h : a.equal b = true) : a.looselyEqual b = true := by
  unfold looselyEqual
  split <;> first | exact h | cases h

theorem looselyEqual_self (ha : a.RealFree) : a.looselyEqual a = true :=
  looselyEqual_of_equal (equal_self ha)

theorem looselyEqual_comm (ha : a.RealFree) (hb : b.RealFree) (h : a.looselyEqual b = true) :
    b.looselyEqual a = true := by
  rw [looselyEqual_iff ha hb] at h
  rw [looselyEqual_iff hb ha, ← h.1, ← equal_comm ha]
  exact ⟨rfl, h.2⟩

theorem Shared.looselyEqual_trans (h : Shared vs) (ha : a ∈ vs) (hb : b ∈ vs) (hc : c ∈ vs)
    (hab : a.looselyEqual b = true) (hbc : b.looselyEqual c = true) :
    a.looselyEqual c = true := by
  have hfree := h.realFree
  rw [looselyEqual_iff (hfree a ha) (hfree b hb)] at hab
  rw [looselyEqual_iff (hfree b hb) (hfree c hc)] at hbc
  rw [looselyEqual_iff (hfree a ha) (hfree c hc)]
  refine ⟨hab.1.trans hbc.1, fun hnone => ?_⟩
  exact h.equal_trans ha hb hc (hab.2 hnone) (hbc.2 (hab.1 ▸ hnone))

/-! ## The operators -/

/-- The operator EQ gives true, whatever there is in the store, and leaves it as it is. -/
def FindsEqual (a b : Value) : Prop :=
  ∀ st, Operator.binary .eq a b st = (.bool true, st)

/-- All operators but OR_ELSE compute something of operands that are no errors. -/
theorem binary_of_noError {op : BinaryOp} (hop : op ≠ .orElse) (ha : a.isError = false)
    (hb : b.isError = false) : Operator.binary op a b = Operator.binarySound op a b := by
  unfold Operator.binary
  split
  · exact absurd rfl hop
  · split
    · cases ha
    · cases hb
    · rfl

theorem binary_eq (ha : a.isError = false) (hb : b.isError = false) (st : Store) :
    Operator.binary .eq a b st = (.bool (a.looselyEqual b), st) := by
  rw [binary_of_noError (by decide) ha hb]
  rfl

theorem binary_neq (ha : a.isError = false) (hb : b.isError = false) (st : Store) :
    Operator.binary .neq a b st = (.bool !(a.looselyEqual b), st) := by
  rw [binary_of_noError (by decide) ha hb]
  rfl

theorem findsEqual_iff (ha : a.isError = false) (hb : b.isError = false) :
    FindsEqual a b ↔ a.looselyEqual b = true := by
  refine ⟨fun h => ?_, fun h st => by rw [binary_eq ha hb, h]⟩
  have hresult := h .empty
  rw [binary_eq ha hb] at hresult
  exact Value.bool.inj (congrArg Prod.fst hresult)

/-! ## Members -/

section Members

variable {i j : Ident} {xs ys : Collection Value}

/-- Values that are equal are the same error, or EQ finds them equal. -/
theorem agree_of_equal (h : a.equal b = true) :
    (∃ e, a = .error e ∧ b = .error e) ∨ FindsEqual a b := by
  cases ha : a.isError with
  | true =>
    cases a with
    | error e =>
      cases b with
      | error e' =>
        have he : e = e' := eq_of_beq h
        exact .inl ⟨e, rfl, by rw [he]⟩
      | _ => cases h
    | _ => cases ha
  | false =>
    have hb : b.isError = false := by
      cases b with
      | error => cases a <;> first | cases h | cases ha
      | _ => rfl
    exact .inr ((findsEqual_iff ha hb).2 (looselyEqual_of_equal h))

/-- Under every key collections that are equal entry by entry have equal members, or both have
none. -/
theorem member?_of_equalEach (h : EqualEach xs.entries ys.entries) (key : Value) :
    Option.Rel (fun v w => v.equal w = true) ((Value.collection i xs).member? key)
      ((Value.collection j ys).member? key) := by
  cases key with
  | int n =>
    show Option.Rel _ ((position? n).bind xs.nth?) ((position? n).bind ys.nth?)
    cases position? n with
    | none => exact .none
    | some index => exact h.nth? index
  | string name => exact h.lookup? name
  | _ => exact .none

theorem member_of_equalEach (h : EqualEach xs.entries ys.entries) (key : Value) :
    (∃ e, (Value.collection i xs).member key = .error e ∧
      (Value.collection j ys).member key = .error e) ∨
    FindsEqual ((Value.collection i xs).member key) ((Value.collection j ys).member key) := by
  by_cases hkey : ∃ e, key = .error e
  · obtain ⟨e, rfl⟩ := hkey
    exact .inl ⟨e, rfl, rfl⟩
  · have hmember : ∀ k (zs : Collection Value), (Value.collection k zs).member key =
        ((Value.collection k zs).member? key).getD
          (.error (.noMember "collection" key.display)) := by
      intro k zs
      cases key with
      | error e => exact absurd ⟨e, rfl⟩ hkey
      | _ => rfl
    rw [hmember, hmember]
    have hfound := member?_of_equalEach (i := i) (j := j) h key
    generalize (Value.collection i xs).member? key = x,
      (Value.collection j ys).member? key = y at hfound
    cases hfound with
    | none => exact .inl ⟨_, rfl, rfl⟩
    | some hequal => exact agree_of_equal hequal

end Members

/-- On values without reals that are no errors EQ is reflexive, symmetric and transitive, whether it
goes by texts or not, and NEQ is its negation. Collections that EQ finds equal have the same length
and, under every key, the same error or members that EQ finds equal. -/
theorem equality_laws (h : st.Gathered vs) (ha : a ∈ vs) (hb : b ∈ vs) (hc : c ∈ vs)
    (hae : a.isError = false) (hbe : b.isError = false) (hce : c.isError = false) :
    FindsEqual a a ∧
    (FindsEqual a b → FindsEqual b a) ∧
    (FindsEqual a b → FindsEqual b c → FindsEqual a c) ∧
    (∃ result, ∀ st', Operator.binary .eq a b st' = (.bool result, st') ∧
      Operator.binary .neq a b st' = (.bool !result, st')) ∧
    ∀ i xs j ys, a = .collection i xs → b = .collection j ys → FindsEqual a b →
      xs.length = ys.length ∧
      ∀ key, (∃ e, a.member key = .error e ∧ b.member key = .error e) ∨
        FindsEqual (a.member key) (b.member key) := by
  have hshared : Shared vs := h.shared
  have hfree := hshared.realFree
  rw [findsEqual_iff hae hae, findsEqual_iff hae hbe, findsEqual_iff hbe hae,
    findsEqual_iff hbe hce, findsEqual_iff hae hce]
  refine ⟨looselyEqual_self (hfree a ha), looselyEqual_comm (hfree a ha) (hfree b hb),
    hshared.looselyEqual_trans ha hb hc,
    ⟨a.looselyEqual b, fun st' => ⟨binary_eq hae hbe st', binary_neq hae hbe st'⟩⟩, ?_⟩
  rintro i xs j ys rfl rfl hequal
  have heach : EqualEach xs.entries ys.entries := (hshared.equal_collection ha hb).1 hequal
  exact ⟨heach.length_eq, member_of_equalEach heach⟩

/-- The list of an integer and its text, with an identity. -/
def twin (id : Ident) : Value := .collection id (.ofList [.int 1, .string "1"])

/-- The integer, its text and as many lists of them. -/
def twins : Nat → List Value
  | 0 => [.int 1, .string "1"]
  | n + 1 => twin n :: twins n

theorem gathered_twins (n : Nat) :
    Store.Gathered { Store.empty with nextIdent := n } (twins n) := by
  have hparts : ∀ n, ∀ v ∈ [Value.int 1, .string "1"], v ∈ twins n := by
    intro n v hv
    induction n with
    | zero => exact hv
    | succ n ih => exact .tail _ ih
  induction n with
  | zero => exact .whole (.whole .none trivial) trivial
  | succ n ih => exact .collection ih (hparts n)

/-- Three lists that were made apart, each equal to the next. -/
theorem equality_laws_twins :
    FindsEqual (twin 0) (twin 1) ∧ FindsEqual (twin 1) (twin 2) ∧ FindsEqual (twin 0) (twin 2) ∧
    ∀ key, (∃ e, (twin 0).member key = .error e ∧ (twin 1).member key = .error e) ∨
      FindsEqual ((twin 0).member key) ((twin 1).member key) := by
  have hfirst : FindsEqual (twin 0) (twin 1) := fun _ => rfl
  have hsecond : FindsEqual (twin 1) (twin 2) := fun _ => rfl
  obtain ⟨-, -, htrans, -, hmembers⟩ := equality_laws (a := twin 0) (b := twin 1) (c := twin 2)
    (gathered_twins 3) (.tail _ (.tail _ (.head _))) (.tail _ (.head _)) (.head _) rfl rfl rfl
  exact ⟨hfirst, hsecond, htrans hfirst hsecond, (hmembers _ _ _ _ rfl rfl hfirst).2⟩

end Value

end ReactiveScript
