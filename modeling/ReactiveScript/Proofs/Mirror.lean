import ReactiveScript.Proofs.Later
import ReactiveScript.Proofs.Likeness
import ReactiveScript.Proofs.MemberInPass
import ReactiveScript.Tracking.Path

/-
  Stores that mirror one another.

  Two runs of a pass work on stores that need not be equal: the second one gave out other identities
  and handles before, and may know names that the first one does not know yet. `Store.Mirrors` says
  that from here on whatever the first run gets from its store the second one gets from its own, up
  to the renaming. What both have noted so far of the owners that were read, the lists of dependents
  and the content mark, is carried along (`Marks`). `Store.Paired` is the judgement on two
  operations: started on such stores they give results that are related and leave such stores, with
  the same marks.
-/

namespace ReactiveScript

open Value (Like like_nil like_error)

/-! ## Iterations -/

/-- Entries that are like in key and value. -/
def LikeEntry (r : Renaming) (x y : Entry) : Prop := Like r x.1 y.1 ∧ Like r x.2 y.2

/-- Iterations that yield like entries. -/
inductive LikeIteration (r : Renaming) : Iteration → Iteration → Prop
  | collection {c d : Collection Value} (h : LikeItems r c d) (pos : Nat) :
      LikeIteration r (.collection c pos) (.collection d pos)
  | range (next : Option Int64) (last index : Int64) :
      LikeIteration r (.range next last index) (.range next last index)
  | host {source source' : Nat → Option Entry}
      (h : ∀ i, Option.Rel (LikeEntry r) (source i) (source' i)) (drawn : Nat) :
      LikeIteration r (.host source drawn) (.host source' drawn)
  | empty : LikeIteration r .empty .empty

variable {r : Renaming}

theorem LikeItems.like_scriptKey {c d : Collection Value} (h : LikeItems r c d) (n : Nat) :
    Like r (c.scriptKey n) (d.scriptKey n) := by
  rw [← h.scriptKey n]
  unfold Collection.scriptKey
  split
  · exact .scalar trivial
  · split <;> exact .scalar trivial

theorem LikeIteration.next {it it' : Iteration} (h : LikeIteration r it it') :
    Option.Rel (LikeEntry r) it.next.1 it'.next.1 ∧ LikeIteration r it.next.2 it'.next.2 := by
  cases h with
  | @collection c d h pos =>
    have hvalue := h.nth? pos
    dsimp only [Iteration.next]
    generalize c.nth? pos = x, d.nth? pos = y at hvalue
    cases hvalue with
    | none => exact ⟨.none, .collection h pos⟩
    | some hvalue => exact ⟨.some ⟨h.like_scriptKey pos, hvalue⟩, .collection h (pos + 1)⟩
  | range next last index =>
    cases next with
    | none => exact ⟨.none, .range none last index⟩
    | some value =>
      unfold Iteration.next
      dsimp only
      split
      · exact ⟨.some ⟨.scalar trivial, .scalar trivial⟩, .range _ _ _⟩
      · exact ⟨.none, .range _ _ _⟩
  | host h drawn => exact ⟨h drawn, .host h (drawn + 1)⟩
  | empty => exact ⟨.none, .empty⟩

theorem likeIteration_ofEntries {xs ys : List Entry} (h : List.Forall₂ (LikeEntry r) xs ys) :
    LikeIteration r (.ofEntries xs) (.ofEntries ys) := by
  refine .host (fun i => ?_) 0
  induction h generalizing i with
  | nil => exact .none
  | cons hentry _ ih =>
    cases i with
    | zero => exact .some hentry
    | succ i => exact ih i

/-! ## Stores -/

/-- What passes note: the lists of dependents and whether measured content was read. -/
abbrev Marks := Array (List Dependency) × Bool

/-- What was noted in a store. -/
def Store.marks (s : Store) : Marks := (s.dependents, s.contentRead)

/-- The stores give out the same from here on, up to a renaming. `k` and `l` are noted in them. -/
structure Store.Mirrors (r : Renaming) (k l : Marks) (s t : Store) : Prop where
  fixtures : s.fixtures = r.fixtures
  fixtures' : t.fixtures = r.fixtures
  idents : ∀ i, r.ident (s.nextIdent + i) = t.nextIdent + i
  handles : ∀ i, r.usable (s.iterations.size + i) ∧
    r.handle (s.iterations.size + i) = t.iterations.size + i
  iterations : ∀ n, r.usable n →
    LikeIteration r (s.iterations[n]?.getD .empty) (t.iterations[r.handle n]?.getD .empty)
  marks : s.marks = k
  marks' : t.marks = l

namespace Store

variable {α β α' β' : Type} {R : α → β → Prop} {R' : α' → β' → Prop} {k l : Marks} {s t : Store}

/-- Operations that give related results on stores that mirror one another, and note nothing. -/
def Paired (r : Renaming) (R : α → β → Prop) (x : StateM Store α) (y : StateM Store β) : Prop :=
  ∀ k l s t, s.Mirrors r k l t → R (x s).1 (y t).1 ∧ (x s).2.Mirrors r k l (y t).2

theorem paired_pure {a : α} {b : β} (h : R a b) : Paired r R (pure a) (pure b) :=
  fun _ _ _ _ hst => ⟨h, hst⟩

theorem Paired.bind {x : StateM Store α} {y : StateM Store β} {f : α → StateM Store α'}
    {g : β → StateM Store β'} (hx : Paired r R x y)
    (hf : ∀ a b, R a b → Paired r R' (f a) (g b)) : Paired r R' (x >>= f) (y >>= g) := by
  intro k l s t hst
  obtain ⟨hR, hst'⟩ := hx k l s t hst
  exact hf _ _ hR k l _ _ hst'

theorem paired_fresh : Paired r (fun i j => r.ident i = j) fresh fresh := by
  intro k l s t h
  refine ⟨h.idents 0, ⟨h.fixtures, h.fixtures', fun i => ?_, h.handles, h.iterations, h.marks,
    h.marks'⟩⟩
  have hlater := h.idents (i + 1)
  rw [Nat.add_comm i 1, ← Nat.add_assoc, ← Nat.add_assoc] at hlater
  exact hlater

theorem paired_newIterator {it it' : Iteration} (h : LikeIteration r it it') :
    Paired r (Like r) (newIterator it) (newIterator it') := by
  intro k l s t hst
  obtain ⟨husable, hhandle⟩ := hst.handles 0
  refine ⟨?_, ⟨hst.fixtures, hst.fixtures', hst.idents, fun i => ?_, fun n hn => ?_, hst.marks,
    hst.marks'⟩⟩
  · have hlike : Like r (.iterator s.iterations.size) (.iterator (r.handle s.iterations.size)) :=
      .iterator husable
    rwa [show r.handle s.iterations.size = t.iterations.size from hhandle] at hlike
  · have hlater := hst.handles (i + 1)
    rw [Nat.add_comm i 1, ← Nat.add_assoc, ← Nat.add_assoc] at hlater
    simpa [newIterator] using hlater
  · have hend : r.handle n = t.iterations.size ↔ n = s.iterations.size := by
      rw [← show r.handle s.iterations.size = t.iterations.size from hhandle,
        r.handle_injective.eq_iff]
    have hold := hst.iterations n hn
    simp only [newIterator, Array.getElem?_push, hend]
    by_cases hlast : n = s.iterations.size
    · simpa [hlast] using h
    · simpa [hlast] using hold

theorem getD_setIfInBounds (its : Array Iteration) (m n : Nat) (it : Iteration)
    (h : its.size ≤ m → it = .empty) :
    ((its.setIfInBounds m it)[n]?).getD .empty = if m = n then it else (its[n]?).getD .empty := by
  rw [Array.getElem?_setIfInBounds]
  by_cases hmn : m = n
  · subst hmn
    by_cases hm : m < its.size
    · simp [hm]
    · simp [hm, h (Nat.le_of_not_lt hm)]
  · simp [hmn]

theorem paired_drawEntry {n : Nat} (hn : r.usable n) :
    Paired r (Option.Rel (LikeEntry r)) (drawEntry n) (drawEntry (r.handle n)) := by
  intro k l s t hst
  obtain ⟨hentry, hrest⟩ := (hst.iterations n hn).next
  refine ⟨hentry, ⟨hst.fixtures, hst.fixtures', hst.idents, fun i => ?_, fun m hm => ?_, hst.marks,
    hst.marks'⟩⟩
  · simpa [drawEntry] using hst.handles i
  · have hempty : ∀ (its : Array Iteration) (n : Nat), its.size ≤ n →
        (((its[n]?).getD .empty).next).2 = .empty := fun its n hsize => by
      rw [Array.getElem?_eq_none hsize]
      rfl
    simp only [drawEntry]
    rw [getD_setIfInBounds _ _ _ _ (hempty s.iterations n),
      getD_setIfInBounds _ _ _ _ (hempty t.iterations (r.handle n))]
    by_cases hsame : n = m
    · subst hsame
      simpa using hrest
    · have hother : r.handle n ≠ r.handle m := fun h => hsame (r.handle_injective h)
      rw [if_neg hsame, if_neg hother]
      exact hst.iterations m hm

theorem fixtures_internInput (s : Store) : (intern "input" s).2.fixtures = s.fixtures :=
  congrArg (Fixtures.mk · s.interrupts) (Names.intern_intern s.names "input")

theorem paired_internInput : Paired r (fun x y => x = y) (intern "input") (intern "input") := by
  intro k l s t hst
  have hinput : s.names.intern "input" = t.names.intern "input" :=
    congrArg Fixtures.input (hst.fixtures.trans hst.fixtures'.symm)
  have hvar : (s.names.intern "input").1 = (t.names.intern "input").1 := congrArg Prod.fst hinput
  exact ⟨hvar, { hst with
    fixtures := (fixtures_internInput s).trans hst.fixtures
    fixtures' := (fixtures_internInput t).trans hst.fixtures' }⟩

theorem paired_isInterrupted (handle : Nat) :
    Paired r (fun x y => x = y) (isInterrupted handle) (isInterrupted handle) := by
  intro k l s t hst
  have hinterrupts : s.interrupts = t.interrupts :=
    congrArg Fixtures.interrupts (hst.fixtures.trans hst.fixtures'.symm)
  refine ⟨?_, hst⟩
  simp only [isInterrupted, hinterrupts]

theorem paired_newCollection {c d : Collection Value} (h : LikeItems r c d) :
    Paired r (Like r) (newCollection c) (newCollection d) := by
  refine paired_fresh.bind fun i j hij => paired_pure ?_
  subst hij
  exact like_collection h

end Store

open Store

/-! ## Stand-ins -/

variable {a a' b b' v v' : Value}

theorem paired_either (ha : Like r a a') (hb : Like r b b') :
    Paired r (Like r) (either a b) (either a' b') := by
  unfold either
  rw [← ha.isNil, ← hb.isNil, ← ha.equal hb]
  by_cases h : (a.isNil || a.equal b) = true
  · rw [if_pos h, if_pos h]
    exact paired_pure hb
  · rw [if_neg h, if_neg h]
    by_cases h' : b.isNil = true
    · rw [if_pos h', if_pos h']
      exact paired_pure ha
    · rw [if_neg h', if_neg h']
      refine paired_fresh.bind fun i j hij => paired_pure ?_
      subst hij
      exact .union ha hb

theorem paired_newPlaceholder (node : Node) :
    Paired r (Like r) (newPlaceholder node) (newPlaceholder node) := by
  refine paired_fresh.bind fun i j hij => paired_pure ?_
  subst hij
  exact .placeholder

theorem paired_placeholdersOf (members : List (String × Node)) :
    Paired r (List.Forall₂ (LikeEntry r)) (placeholdersOf members) (placeholdersOf members) := by
  induction members with
  | nil => exact paired_pure .nil
  | cons member rest ih =>
    refine (paired_newPlaceholder member.2).bind fun v v' hv => ?_
    exact ih.bind fun xs ys hrest => paired_pure (.cons ⟨.scalar trivial, hv⟩ hrest)

theorem paired_newStandIn : Paired r (Like r) newStandIn newStandIn :=
  paired_newIterator (likeIteration_ofEntries (.cons ⟨.scalar trivial, like_nil⟩ .nil))

theorem like_orNil (h : Like r v v') : Like r v.orNil v'.orNil := by
  cases h with
  | scalar h =>
    cases v with
    | _ => first | exact .scalar trivial | cases h
  | collection keys values => exact .collection keys values
  | placeholder => exact .placeholder
  | union ha hb => exact .union ha hb
  | iterator h => exact .iterator h
  | script h hconst => exact .script h hconst
  | builtin h => exact .builtin h
  | closure hf vars values => exact .closure hf vars values
  | composition ha hb => exact .composition ha hb

/-- Members of collections, and of what is no object. -/
theorem paired_memberInPass (hv : Like r v v') (hobject : ∀ id body, v ≠ .object id body)
    (name : String) (dep dep' : Dependency) :
    Paired r (Like r) (v.memberInPass name dep) (v'.memberInPass name dep') := by
  cases hv with
  | scalar h =>
    cases v with
    | _ => first | exact paired_pure like_nil | cases h
  | @collection i xs ys isList keys values =>
    intro k l s t hst
    have hitems : LikeItems r ⟨xs, isList⟩ ⟨ys, isList⟩ := ⟨likeEach_iff.2 ⟨keys, values⟩, rfl⟩
    rw [Value.memberInPass_collection, Value.memberInPass_collection]
    exact ⟨like_orNil (like_getD (hitems.lookup? name)), hst⟩
  | placeholder | union => exact absurd rfl (hobject _ _)
  | _ => exact paired_pure like_nil

/-- The iterators of what is no object. -/
theorem paired_iteratorInPass (hv : Like r v v') (hobject : ∀ id body, v ≠ .object id body)
    (dep dep' : Dependency) :
    Paired r (Like r) (v.iteratorInPass dep) (v'.iteratorInPass dep') := by
  cases hv with
  | scalar h =>
    cases v with
    | _ => first | exact paired_newStandIn | cases h
  | @collection i xs ys isList keys values =>
    have hitems : LikeItems r ⟨xs, isList⟩ ⟨ys, isList⟩ := ⟨likeEach_iff.2 ⟨keys, values⟩, rfl⟩
    unfold Value.iteratorInPass
    rw [← hitems.isEmpty]
    split
    · exact paired_newStandIn
    · exact paired_newIterator (.collection hitems 0)
  | iterator h => exact paired_pure (.iterator h)
  | placeholder | union => exact absurd rfl (hobject _ _)
  | _ => exact paired_newStandIn

/-! ## Operators -/

theorem binary_iteratorR (a b : Value) : Operator.binary .iteratorR a b =
    if a.isError then pure a else if b.isError then pure b else Operator.range a b := by
  cases a <;> cases b <;> rfl

theorem binary_add {a b : Value} (ha : a.isCallable = true) (hb : b.isCallable = true) :
    Operator.binary .add a b = do return .composition (← fresh) a b := by
  cases a with
  | script | builtin | closure | composition =>
    cases b with
    | script | builtin | closure | composition => rfl
    | _ => cases hb
  | _ => cases ha

theorem isError_congr (h : Like r v v') : v.isError = v'.isError := by
  cases h <;> rfl

theorem rangeEnd_congr (h : Like r v v') : Operator.rangeEnd v = Operator.rangeEnd v' := by
  cases h <;> rfl

theorem paired_range (ha : Like r a a') (hb : Like r b b') :
    Paired r (Like r) (Operator.range a b) (Operator.range a' b') := by
  unfold Operator.range
  rw [← rangeEnd_congr ha, ← rangeEnd_congr hb]
  split
  · exact paired_newIterator (.range _ _ _)
  · exact paired_pure (like_error _)
  · exact paired_pure (like_error _)

/-- Operators that read no member. -/
theorem paired_binaryInPass {op : BinaryOp} (hop : op ≠ .member) (ha : Like r a a')
    (hb : Like r b b') (dep dep' : Dependency) :
    Paired r (Like r) (a.binaryInPass op b dep) (a'.binaryInPass op b' dep') := by
  cases op with
  | member => exact absurd rfl hop
  | add =>
    unfold Value.binaryInPass
    dsimp only
    rw [← ha.isCallable, ← hb.isCallable]
    by_cases h : (a.isCallable && b.isCallable) = true
    · obtain ⟨hcall, hcall'⟩ := Bool.and_eq_true_iff.1 h
      rw [if_pos h, if_pos h, binary_add hcall hcall',
        binary_add (ha.isCallable ▸ hcall) (hb.isCallable ▸ hcall')]
      refine paired_fresh.bind fun i j hij => paired_pure ?_
      subst hij
      exact .composition ha hb
    · rw [if_neg h, if_neg h]
      exact paired_either ha hb
  | orElse => exact paired_either ha hb
  | iteratorR =>
    have hrange : Paired r (Like r) (Operator.binary .iteratorR a b)
        (Operator.binary .iteratorR a' b') := by
      rw [binary_iteratorR, binary_iteratorR, ← isError_congr ha, ← isError_congr hb]
      split
      · exact paired_pure ha
      · split
        · exact paired_pure hb
        · exact paired_range ha hb
    refine hrange.bind fun v v' hv => ?_
    cases hv with
    | iterator h => exact paired_pure (.iterator h)
    | scalar h =>
      split
      · exact absurd h id
      · exact paired_newStandIn
    | _ => exact paired_newStandIn
  | _ => exact paired_pure like_nil

/-! ## Frames, collections and closures -/

theorem paired_eitherFrames {as bs as' bs' : List Value} (ha : List.Forall₂ (Like r) as as')
    (hb : List.Forall₂ (Like r) bs bs') :
    Paired r (List.Forall₂ (Like r)) (eitherFrames as bs) (eitherFrames as' bs') := by
  induction ha generalizing bs bs' with
  | nil => cases hb <;> exact paired_pure (by first | exact .nil | exact .cons ‹_› ‹_›)
  | cons ha has ih =>
    cases hb with
    | nil => exact paired_pure (.cons ha has)
    | cons hb hbs =>
      refine (paired_either ha hb).bind fun v v' hv => ?_
      exact (ih hbs).bind fun vs vs' hvs => paired_pure (.cons hv hvs)

theorem pairKey_congr (h : Like r v v') : pairKey v = pairKey v' := by
  cases h <;> rfl

/-- The same failure, or like collections. -/
theorem pushPairs_like {c d : Collection Value} {vs vs' : List Value} (h : LikeItems r c d)
    (hvs : List.Forall₂ (Like r) vs vs') :
    (∃ e, pushPairs c vs = .error e ∧ pushPairs d vs' = .error e) ∨
      ∃ c' d', pushPairs c vs = .ok c' ∧ pushPairs d vs' = .ok d' ∧ LikeItems r c' d' := by
  induction vs using keyedPairs.induct generalizing c d vs' with
  | case1 key v rest ih =>
    cases hvs with
    | cons hkey hvs =>
      cases hvs with
      | cons hv hrest =>
        unfold pushPairs
        rw [← pairKey_congr hkey]
        cases pairKey key with
        | error e => exact .inl ⟨e, rfl, rfl⟩
        | ok key => exact ih (h.push key hv) hrest
  | case2 vs hshort =>
    cases hvs with
    | nil => exact .inr ⟨c, d, rfl, rfl, h⟩
    | cons _ hrest =>
      cases hrest with
      | nil => exact .inr ⟨c, d, rfl, rfl, h⟩
      | cons => exact absurd rfl (hshort _ _ _)

theorem paired_makeObject {vs vs' : List Value} (h : List.Forall₂ (Like r) vs vs') :
    Paired r (Like r) (makeObject vs) (makeObject vs') := by
  unfold makeObject
  have hempty : LikeItems r .empty .empty := ⟨.nil, rfl⟩
  obtain ⟨e, hv, hv'⟩ | ⟨c, d, hv, hv', hitems⟩ := pushPairs_like hempty h
  · rw [hv, hv']
    exact paired_pure (like_error e)
  · rw [hv, hv']
    exact paired_newCollection hitems

theorem likeEach_append {κ : Type} {xs ys us vs : List (κ × Value)} (h : LikeEach r xs ys)
    (h' : LikeEach r us vs) : LikeEach r (xs ++ us) (ys ++ vs) :=
  List.rel_append h h'

theorem likeEach_overrideBindings {inner outer inner' outer' : Bindings}
    (hin : LikeEach r inner inner') (hout : LikeEach r outer outer') :
    LikeEach r (overrideBindings inner outer) (overrideBindings inner' outer') := by
  refine List.rel_foldl (fun merged merged' hmerged b b' hb => ?_) hin hout
  refine likeEach_append (List.rel_filter (fun x y hxy => ?_) hmerged) (.cons hb .nil)
  dsimp only
  rw [hxy.1, hb.1]

theorem paired_partialApply {f f' : Value} {bs bs' : Bindings} (hf : Like r f f')
    (hbs : LikeEach r bs bs') :
    Paired r (Like r) (partialApply f bs) (partialApply f' bs') := by
  have hmake : ∀ {g g' : Value} {cs cs' : Bindings}, Like r g g' → LikeEach r cs cs' →
      Paired r (Like r) (do return .closure (← fresh) g cs)
        (do return .closure (← fresh) g' cs') := by
    intro g g' cs cs' hg hcs
    refine paired_fresh.bind fun i j hij => paired_pure ?_
    subst hij
    exact .closure hg (likeEach_iff.1 hcs).1 (likeEach_iff.1 hcs).2
  cases hf with
  | scalar h =>
    cases f with
    | error e => exact paired_pure (like_error e)
    | _ => first | exact hmake (.scalar trivial) hbs | cases h
  | closure hg vars values =>
    exact hmake hg (likeEach_overrideBindings (likeEach_iff.2 ⟨vars, values⟩) hbs)
  | collection keys values => exact hmake (.collection keys values) hbs
  | placeholder => exact hmake .placeholder hbs
  | union ha hb => exact hmake (.union ha hb) hbs
  | iterator h => exact hmake (.iterator h) hbs
  | script h hconst => exact hmake (.script h hconst) hbs
  | builtin h => exact hmake (.builtin h) hbs
  | composition ha hb => exact hmake (.composition ha hb) hbs

end ReactiveScript
