import Mathlib.Logic.Function.Basic
import ReactiveScript.Proofs.Entrywise
import ReactiveScript.Proofs.Parts
import ReactiveScript.Tracking.Alternatives

/-
  Values up to identity.

  Two runs of a pass that differ in what they allocate hold values that are the same up to the
  identities and the handles given out. A renaming says how those of the first run read in the
  second one; `Like` relates the values. Nothing that a pass asks of a value tells like values
  apart: equality (`Like.equal`), texts (`Like.toText`), members (`LikeItems.lookup?`).

  There is no clause for host objects and none for dependency hooks, so a value that is like another
  has neither.
-/

namespace ReactiveScript

/-- What a pass sees of a store and leaves as it is. -/
structure Fixtures where
  /-- What interning `input` gives, the one name that a pass may bring in. -/
  input : Variable × Names
  interrupts : Array Bool

/-- The fixtures of a store. -/
def Store.fixtures (s : Store) : Fixtures := ⟨s.names.intern "input", s.interrupts⟩

/-- How the identities and the handles of one run read in another. -/
structure Renaming where
  ident : Ident → Ident
  handle : Nat → Nat
  /-- The handles that values may have. -/
  usable : Nat → Prop
  /-- What both runs have in common and keep. -/
  fixtures : Fixtures
  ident_injective : Function.Injective ident
  handle_injective : Function.Injective handle

/-- Nothing reads differently. -/
def Renaming.same (fixtures : Fixtures) : Renaming :=
  ⟨id, id, fun _ => True, fixtures, Function.injective_id, Function.injective_id⟩

namespace Value

/-- A value that has neither parts nor an identity. -/
def IsScalar : Value → Prop
  | .nil | .bool _ | .int _ | .real _ | .string _ | .color _ | .error _ => True
  | _ => False

/-- The same value up to a renaming. -/
inductive Like (r : Renaming) : Value → Value → Prop
  | scalar {v : Value} (h : v.IsScalar) : Like r v v
  | collection {i : Ident} {xs ys : List (String × Value)} {isList : Bool}
      (keys : Assoc.keys xs = Assoc.keys ys) (values : ∀ p ∈ xs.zip ys, Like r p.1.2 p.2.2) :
      Like r (.collection i ⟨xs, isList⟩) (.collection (r.ident i) ⟨ys, isList⟩)
  | placeholder {i : Ident} {node : Node} :
      Like r (.object i (.placeholder node)) (.object (r.ident i) (.placeholder node))
  | union {i : Ident} {a b a' b' : Value} (left : Like r a a') (right : Like r b b') :
      Like r (.object i (.union a b)) (.object (r.ident i) (.union a' b'))
  | iterator {handle : Nat} (h : r.usable handle) :
      Like r (.iterator handle) (.iterator (r.handle handle))
  | script {s : Script Value} (id : r.ident s.id = s.id)
      (constants : ∀ c ∈ s.constants, Like r c c) : Like r (.script s) (.script s)
  | builtin {i : Ident} {f : HostFunction Value} (h : f.hook = none) :
      Like r (.builtin i f) (.builtin (r.ident i) f)
  | closure {i : Ident} {f f' : Value} {bs bs' : Bindings} (function : Like r f f')
      (vars : Assoc.keys bs = Assoc.keys bs') (values : ∀ p ∈ bs.zip bs', Like r p.1.2 p.2.2) :
      Like r (.closure i f bs) (.closure (r.ident i) f' bs')
  | composition {i : Ident} {a b a' b' : Value} (first : Like r a a') (second : Like r b b') :
      Like r (.composition i a b) (.composition (r.ident i) a' b')

end Value

open Value (Like)

/-- Lists with the same keys and like values. -/
def LikeEach {κ : Type} (r : Renaming) : List (κ × Value) → List (κ × Value) → Prop :=
  List.Forall₂ fun x y => x.1 = y.1 ∧ Like r x.2 y.2

/-- Collections with the same keys and like values. -/
structure LikeItems (r : Renaming) (c d : Collection Value) : Prop where
  entries : LikeEach r c.entries d.entries
  isList : c.isList = d.isList

variable {κ : Type} {r : Renaming} {v w : Value} {xs ys : List (κ × Value)}

theorem likeEach_iff : LikeEach r xs ys ↔
    Assoc.keys xs = Assoc.keys ys ∧ ∀ p ∈ xs.zip ys, Like r p.1.2 p.2.2 := by
  induction xs generalizing ys with
  | nil => cases ys <;> simp [LikeEach, Assoc.keys]
  | cons x xs ih =>
    cases ys with
    | nil => simp [LikeEach, Assoc.keys]
    | cons y ys =>
      have ih' : List.Forall₂ (fun x y => x.1 = y.1 ∧ Like r x.2 y.2) xs ys ↔ _ := ih
      obtain ⟨k, a⟩ := x
      obtain ⟨l, b⟩ := y
      simp only [LikeEach, List.forall₂_cons, ih', Assoc.keys_cons, List.cons.injEq,
        List.zip_cons_cons, List.forall_mem_cons]
      tauto

theorem like_collection {i : Ident} {c d : Collection Value} (h : LikeItems r c d) :
    Like r (.collection i c) (.collection (r.ident i) d) := by
  obtain ⟨xs, isList⟩ := c
  obtain ⟨ys, isList'⟩ := d
  obtain ⟨hkeys, hvalues⟩ := likeEach_iff.1 h.entries
  obtain rfl : isList = isList' := h.isList
  exact .collection hkeys hvalues

namespace Value

theorem like_nil : Like r .nil .nil := .scalar trivial

theorem like_error (e : EvalError) : Like r (.error e) (.error e) := .scalar trivial

namespace Like

theorem isNil (h : Like r v w) : v.isNil = w.isNil := by
  cases h <;> rfl

theorem isCallable (h : Like r v w) : v.isCallable = w.isCallable := by
  cases h <;> rfl

theorem toText (h : Like r v w) : v.toText = w.toText := by
  cases h with
  | scalar => rfl
  | _ => rfl

end Like

theorem ident_beq (r : Renaming) (i j : Ident) : (r.ident i == r.ident j) = (i == j) := by
  rw [Bool.eq_iff_iff, beq_iff_eq, beq_iff_eq, r.ident_injective.eq_iff]

theorem handle_beq (r : Renaming) (m n : Nat) : (r.handle m == r.handle n) = (m == n) := by
  rw [Bool.eq_iff_iff, beq_iff_eq, beq_iff_eq, r.handle_injective.eq_iff]

/-- Entries are compared one by one. -/
theorem equalEntries_congr {xs ys us vs : List (String × Value)}
    (h : ∀ p ∈ xs.zip ys, ∀ b b', Like r b b' → p.1.2.equal b = p.2.2.equal b')
    (hkeys : Assoc.keys xs = Assoc.keys ys) (hb : LikeEach r us vs) :
    equalEntries xs us = equalEntries ys vs := by
  induction xs generalizing ys us vs with
  | nil =>
    cases ys with
    | cons => cases hkeys
    | nil => cases hb <;> rfl
  | cons x xs ih =>
    cases ys with
    | nil => cases hkeys
    | cons y ys =>
      obtain ⟨hkey, hrest⟩ := List.cons.inj hkeys
      cases hb with
      | nil => rfl
      | cons hentry hentries =>
        have hvalue := h (x, y) List.mem_cons_self _ _ hentry.2
        have htail := ih (fun p hp => h p (List.mem_cons_of_mem _ hp)) hrest hentries
        unfold equalEntries
        rw [hkey, hentry.1, hvalue, htail]

/-- Like values are equal to like values. -/
theorem Like.equal {a a' b b' : Value} (ha : Like r a a') (hb : Like r b b') :
    a.equal b = a'.equal b' := by
  induction ha generalizing b b' with
  | scalar ha =>
    rename_i v
    cases hb with
    | scalar => rfl
    | _ => cases v <;> first | rfl | cases ha
  | collection keys values ih =>
    cases hb with
    | scalar hb => cases b <;> first | rfl | cases hb
    | collection keys' values' =>
      unfold Value.equal
      rw [ident_beq, equalEntries_congr (fun p hp b b' hb => ih p hp hb) keys
        (likeEach_iff.2 ⟨keys', values'⟩)]
    | _ => rfl
  | placeholder | union | builtin | closure | composition =>
    cases hb with
    | scalar hb => cases b <;> first | rfl | cases hb
    | _ => first | rfl | exact (ident_beq r _ _).symm
  | iterator =>
    cases hb with
    | scalar hb => cases b <;> first | rfl | cases hb
    | iterator => exact (handle_beq r _ _).symm
    | _ => rfl
  | script =>
    cases hb with
    | scalar hb => cases b <;> rfl
    | _ => rfl

/-! ## Values that are like themselves -/

theorem eq_of_zip {xs ys : List (κ × Value)} (hkeys : Assoc.keys xs = Assoc.keys ys)
    (h : ∀ p ∈ xs.zip ys, p.1.2 = p.2.2) : xs = ys := by
  induction xs generalizing ys with
  | nil =>
    cases ys with
    | nil => rfl
    | cons => cases hkeys
  | cons x xs ih =>
    cases ys with
    | nil => cases hkeys
    | cons y ys =>
      obtain ⟨hkey, hrest⟩ := List.cons.inj hkeys
      have hvalue := h (x, y) List.mem_cons_self
      have htail := ih hrest fun p hp => h p (List.mem_cons_of_mem _ hp)
      rw [Prod.ext hkey hvalue, htail]

/-- Where nothing reads differently a value is like itself only. -/
theorem Like.eq_of_same {fixtures : Fixtures} (h : Like (.same fixtures) v w) : v = w := by
  induction h with
  | collection keys _ ih =>
    rw [eq_of_zip keys ih]
    rfl
  | union _ _ iha ihb =>
    rw [iha, ihb]
    rfl
  | closure _ vars _ ihf ih =>
    rw [eq_of_zip vars ih, ihf]
    rfl
  | composition _ _ iha ihb =>
    rw [iha, ihb]
    rfl
  | _ => rfl

/-- What a renaming must leave alone for a value to be like itself, if its parts are. -/
def Fixed (r : Renaming) : Value → Prop
  | .object _ (.host _) => False
  | .object i _ | .collection i _ | .closure i _ _ | .composition i _ _ => r.ident i = i
  | .builtin i f => f.hook = none ∧ r.ident i = i
  | .script s => r.ident s.id = s.id
  | .iterator n => r.usable n ∧ r.handle n = n
  | _ => True

theorem likeEach_self {xs : List (κ × Value)} (h : ∀ v ∈ xs.map Prod.snd, Like r v v) :
    LikeEach r xs xs :=
  List.forall₂_same.2 fun x hx => ⟨rfl, h x.2 (List.mem_map_of_mem hx)⟩

theorem like_self (h : v.Every (Fixed r)) : Like r v v := by
  induction h with
  | @intro v hv _ ih =>
    cases v with
    | collection i items =>
      have hid : r.ident i = i := hv
      have hlike : Like r (.collection i items) (.collection (r.ident i) items) :=
        like_collection ⟨likeEach_self ih, rfl⟩
      rwa [hid] at hlike
    | object i body =>
      cases body with
      | host => cases hv
      | placeholder node =>
        have hid : r.ident i = i := hv
        have hlike : Like r (.object i (.placeholder node))
            (.object (r.ident i) (.placeholder node)) := .placeholder
        rwa [hid] at hlike
      | union a b =>
        have hid : r.ident i = i := hv
        have hlike : Like r (.object i (.union a b)) (.object (r.ident i) (.union a b)) :=
          .union (ih a (by simp [children])) (ih b (by simp [children]))
        rwa [hid] at hlike
    | iterator n =>
      have hlike : Like r (.iterator n) (.iterator (r.handle n)) := .iterator hv.1
      rwa [hv.2] at hlike
    | script s => exact .script hv fun c hc => ih c (Array.mem_toList_iff.2 hc)
    | builtin i f =>
      have hlike : Like r (.builtin i f) (.builtin (r.ident i) f) := .builtin hv.1
      rwa [hv.2] at hlike
    | closure i f bs =>
      have hid : r.ident i = i := hv
      obtain ⟨hvars, hvalues⟩ := likeEach_iff.1
        (likeEach_self fun v hv => ih v (List.mem_cons_of_mem _ hv) : LikeEach r bs bs)
      have hlike : Like r (.closure i f bs) (.closure (r.ident i) f bs) :=
        .closure (ih f List.mem_cons_self) hvars hvalues
      rwa [hid] at hlike
    | composition i a b =>
      have hid : r.ident i = i := hv
      have hlike : Like r (.composition i a b) (.composition (r.ident i) a b) :=
        .composition (ih a (by simp [children])) (ih b (by simp [children]))
      rwa [hid] at hlike
    | _ => exact .scalar trivial

end Value

/-! ## Entries and collections -/

namespace LikeEach

theorem insert [DecidableEq κ] (h : LikeEach r xs ys) (key : κ) {v w : Value} (hv : Like r v w) :
    LikeEach r (Assoc.insert key v xs) (Assoc.insert key w ys) := by
  induction h with
  | nil => exact .cons ⟨rfl, hv⟩ .nil
  | @cons x y xs ys hentry hentries ih =>
    unfold Assoc.insert
    rw [← hentry.1]
    by_cases hkey : x.1 = key
    · rw [if_pos hkey, if_pos hkey]
      exact .cons ⟨rfl, hv⟩ hentries
    · rw [if_neg hkey, if_neg hkey]
      exact .cons ⟨rfl, hentry.2⟩ ih

end LikeEach

/-- What a lookup that may miss finds is like, with nil for what is missing. -/
theorem like_getD {a b : Option Value} (h : Option.Rel (Like r) a b) :
    Like r (a.getD .nil) (b.getD .nil) := by
  cases h with
  | none => exact Value.like_nil
  | some h => exact h

namespace LikeItems

variable {c d : Collection Value}

theorem length (h : LikeItems r c d) : c.length = d.length := h.entries.length_eq

theorem isEmpty (h : LikeItems r c d) : c.isEmpty = d.isEmpty := by
  obtain ⟨xs, isList⟩ := c
  obtain ⟨ys, isList'⟩ := d
  cases h.entries <;> rfl

theorem nth? (h : LikeItems r c d) (n : Nat) : Option.Rel (Like r) (c.nth? n) (d.nth? n) :=
  Entrywise.nth? h.entries n

theorem scriptKey (h : LikeItems r c d) (n : Nat) : c.scriptKey n = d.scriptKey n := by
  have hkey : c.nthKey? n = d.nthKey? n := by
    unfold Collection.nthKey?
    have hentry := forall₂_getElem? h.entries n
    generalize c.entries[n]? = x, d.entries[n]? = y at hentry
    cases hentry with
    | none => rfl
    | some hentry => exact congrArg some hentry.1
  unfold Collection.scriptKey
  rw [h.isList, hkey]

theorem lookup? (h : LikeItems r c d) (name : String) :
    Option.Rel (Like r) (c.lookup? name) (d.lookup? name) := Entrywise.lookup? h.entries name

theorem push (h : LikeItems r c d) (key : Option String) {v w : Value} (hv : Like r v w) :
    LikeItems r (c.push key v) (d.push key w) := by
  cases key with
  | some key => exact ⟨h.entries.insert key hv, rfl⟩
  | none =>
    have hlength : c.entries.length = d.entries.length := h.length
    refine ⟨?_, h.isList⟩
    unfold Collection.push
    rw [hlength]
    exact h.entries.insert _ hv

end LikeItems

end ReactiveScript
