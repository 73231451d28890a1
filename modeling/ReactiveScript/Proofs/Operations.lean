import Mathlib.Data.List.Forall2
import ReactiveScript.Proofs.StandIn
import ReactiveScript.Machine.Step
import ReactiveScript.Tracking.Path

/-
  What else a pass does to the store.

  Iterators, operators, collections, partial applications and joins of frames: each leads to a later
  world that knows the values it gives, provided that it knew the values they are made of.
-/

namespace ReactiveScript.World

variable {w : World} {st : Store}

/-! ## Iterators -/

theorem knows_scriptKey (w : World) (items : Collection Value) (index : Nat) :
    w.Knows (items.scriptKey index) := by
  unfold Collection.scriptKey
  by_cases h : items.isList = true
  · rw [if_pos h]
    exact knows_int w _
  · rw [if_neg h]
    cases items.nthKey? index with
    | some key => exact knows_string w key
    | none => exact knows_nil w

/-- What an iteration yields is known, and what it has then still to yield. -/
theorem knows_next {it : Iteration} (h : it.All w.Knows) :
    (∀ entry, it.next.1 = some entry → w.Knows entry.1 ∧ w.Knows entry.2) ∧
      it.next.2.All w.Knows := by
  cases it with
  | collection items pos =>
    simp only [Iteration.next]
    cases hv : items.nth? pos with
    | some v =>
      refine ⟨fun entry he => ?_, h⟩
      cases he
      obtain ⟨e, he, rfl⟩ := Option.map_eq_some_iff.1 hv
      exact ⟨knows_scriptKey w items pos, h _ (List.mem_map_of_mem (List.mem_of_getElem? he))⟩
    | none => exact ⟨fun entry he => (by cases he), h⟩
  | range next last index =>
    simp only [Iteration.next]
    cases next with
    | none => exact ⟨fun entry he => (by cases he), trivial⟩
    | some value =>
      by_cases hl : value ≤ last
      · simp only [if_pos hl]
        refine ⟨fun entry he => ?_, trivial⟩
        cases he
        exact ⟨knows_int w _, knows_int w _⟩
      · simp only [if_neg hl]
        exact ⟨fun entry he => (by cases he), trivial⟩
  | host source drawn => exact ⟨fun entry he => h drawn entry he, h⟩
  | empty => exact ⟨fun entry he => (by cases he), trivial⟩

theorem after_drawEntry (h : w.FitsStore st) (handle : Nat) :
    AfterStore w (fun drawn w' => ∀ entry, drawn = some entry → w'.Knows entry.1 ∧ w'.Knows entry.2)
      (Store.drawEntry handle st) := by
  have hit : (st.iterations[handle]?.getD .empty).All w.Knows := by
    cases hi : st.iterations[handle]? with
    | none => trivial
    | some it => exact h.iterations it (Array.mem_of_getElem? hi)
  obtain ⟨hentry, hrest⟩ := knows_next hit
  refine ⟨w, .refl w, ⟨h.next, h.dependents, fun it hmem => ?_⟩, hentry⟩
  rcases Array.mem_or_eq_of_mem_setIfInBounds hmem with hmem | rfl
  · exact h.iterations it hmem
  · exact hrest

theorem after_newIterator (h : w.FitsStore st) {it : Iteration} (hit : it.All w.Knows) :
    AfterStore w (fun v w' => w'.Knows v) (Store.newIterator it st) := by
  refine ⟨w, .refl w, ⟨h.next, h.dependents, fun it' hmem => ?_⟩, knows_iterator w _⟩
  rcases Array.mem_push.1 hmem with hmem | rfl
  · exact h.iterations it' hmem
  · exact hit

theorem all_ofEntries {entries : List Entry}
    (he : ∀ entry ∈ entries, w.Knows entry.1 ∧ w.Knows entry.2) :
    (Iteration.ofEntries entries).All w.Knows :=
  fun _ entry hentry => he entry (List.mem_of_getElem? hentry)

theorem after_newStandIn (h : w.FitsStore st) :
    AfterStore w (fun v w' => w'.Knows v) (newStandIn st) := by
  refine after_newIterator h (all_ofEntries fun entry he => ?_)
  rw [List.mem_singleton.1 he]
  exact ⟨knows_int w _, knows_nil w⟩

theorem after_toIterator (h : w.FitsStore st) {v : Value} (hv : w.Knows v) :
    AfterStore w (fun v w' => w'.Knows v) (v.toIterator st) := by
  cases v with
  | iterator handle => exact afterStore_pure h hv
  | error e => exact afterStore_pure h hv
  | nil => exact after_newIterator h trivial
  | collection id items => exact after_newIterator h fun x hx => hv.child hx
  | object id body =>
    cases body with
    | host o =>
      rcases o with ⟨typeName, members, entries, owners⟩
      cases entries with
      | none => exact afterStore_pure h (knows_error w _)
      | some entries =>
        refine after_newIterator h (all_ofEntries fun entry he => ?_)
        have hmem : ∀ x ∈ [entry.1, entry.2], w.Knows x := fun x hx =>
          hv.child (List.mem_append_right _ (List.mem_flatMap.2 ⟨entry, he, hx⟩))
        exact ⟨hmem _ (by simp), hmem _ (by simp)⟩
    | placeholder g => exact afterStore_pure h (knows_error w _)
    | union a b => exact afterStore_pure h (knows_error w _)
  | _ => exact afterStore_pure h (knows_error w _)

mutual

theorem after_noteReadBelow (g : Node) {w : World} {st : Store} (h : w.FitsStore st)
    (dep : Dependency) : AfterStore w (fun _ _ => True) (g.noteReadBelow dep st) :=
  match g with
  | .owner name scripts => (after_noteRead h (.owner name scripts) dep).mono fun _ _ _ _ => trivial
  | .group _ members => after_noteReadMembers members h dep

theorem after_noteReadMembers (members : List (String × Node)) {w : World} {st : Store}
    (h : w.FitsStore st) (dep : Dependency) :
    AfterStore w (fun _ _ => True) (Node.noteReadMembers members dep st) :=
  match members with
  | [] => afterStore_pure h trivial
  | (_, g) :: rest =>
    (after_noteReadBelow g h dep).bind fun _ _ _ _ h₁ _ => after_noteReadMembers rest h₁ dep

end

theorem after_placeholdersOf (h : w.FitsStore st) (members : List (String × Node)) :
    AfterStore w (fun entries w' => ∀ entry ∈ entries, w'.Knows entry.1 ∧ w'.Knows entry.2)
      (placeholdersOf members st) := by
  induction members generalizing w st with
  | nil => exact afterStore_pure h fun entry he => by cases he
  | cons member rest ih =>
    refine (after_newPlaceholder h member.2).bind fun v w₁ st₁ _ h₁ hv => ?_
    refine (ih h₁).bind fun entries w₂ st₂ hle₂ h₂ hentries => ?_
    refine afterStore_pure h₂ fun entry he => ?_
    rcases List.mem_cons.1 he with rfl | he
    · exact ⟨knows_string w₂ _, hle₂.knows hv.1⟩
    · exact hentries entry he

theorem after_nodeIterator (h : w.FitsStore st) (g : Node) (dep : Dependency) :
    AfterStore w (fun v w' => w'.Knows v) (g.iteratorInPass dep st) := by
  unfold Node.iteratorInPass
  refine (after_noteReadBelow g h dep).bind fun _ w₁ st₁ _ h₁ _ => ?_
  cases g with
  | owner name scripts => exact after_newStandIn h₁
  | group name members =>
    refine (after_placeholdersOf h₁ members).bind fun entries w₂ st₂ _ h₂ hentries => ?_
    exact after_newIterator h₂ (all_ofEntries hentries)

/-- The second side of a union is read in a later world than the first. -/
theorem after_iteratorInPass_of_le {w₀ : World} {v : Value} (hk : w₀.Knows v) (dep : Dependency)
    (hle : w₀.Le w) (h : w.FitsStore st) :
    AfterStore w (fun v w' => w'.Knows v) (v.iteratorInPass dep st) := by
  induction hk generalizing w st with
  | @intro v hv hparts ih =>
    have hknown : w.Knows v := hle.knows (.intro hv hparts)
    cases v with
    | object id body =>
      cases body with
      | host o =>
        rcases o with ⟨typeName, members, entries, owners⟩
        cases entries with
        | none => exact after_newStandIn h
        | some entries => exact after_toIterator h hknown
      | placeholder g => exact after_nodeIterator h g dep
      | union a b =>
        refine (ih a (by simp [Value.children]) hle h).bind fun x w₁ st₁ hle₁ h₁ hx => ?_
        refine (ih b (by simp [Value.children]) (hle.trans hle₁) h₁).bind
          fun y w₂ st₂ hle₂ h₂ _ => ?_
        exact afterStore_pure h₂ (hle₂.knows hx)
    | iterator handle => exact afterStore_pure h hknown
    | collection id items =>
      unfold Value.iteratorInPass
      by_cases he : items.isEmpty = true
      · simp only [if_pos he]
        exact after_newStandIn h
      · simp only [if_neg he]
        exact after_toIterator h hknown
    | _ => exact after_newStandIn h

/-! ## Operators -/

theorem after_unaryInPass (h : w.FitsStore st) (op : UnaryOp) {a : Value} (ha : w.Knows a)
    (dep : Dependency) : AfterStore w (fun v w' => w'.Knows v) (a.unaryInPass op dep st) := by
  cases op with
  | iteratorC => exact after_iteratorInPass_of_le ha dep (.refl w) h
  | negate => exact afterStore_pure h (knows_nil w)
  | not => exact afterStore_pure h (knows_nil w)

/-- A new value other than an object. -/
theorem after_fresh (h : w.FitsStore st) {make : Ident → Value} (hm : ∀ id, (make id).Made)
    (ho : ∀ id id' body, make id ≠ .object id' body)
    (hc : ∀ id, ∀ c ∈ (make id).children, w.Knows c) :
    AfterStore w (fun v w' => w'.Knows v)
      ((do return make (← Store.fresh) : StateM Store Value) st) :=
  ⟨w.skip, w.le_skip, h.skip, knows_made (hm _) (ho _) fun c hmem =>
    w.le_skip.knows (hc _ c hmem)⟩

theorem after_add (h : w.FitsStore st) {a b : Value} (ha : w.Knows a) (hb : w.Knows b)
    (hab : (a.isCallable && b.isCallable) = true) :
    AfterStore w (fun v w' => w'.Knows v) (Operator.binary .add a b st) := by
  have hcomp : AfterStore w (fun v w' => w'.Knows v)
      ((do return .composition (← Store.fresh) a b : StateM Store Value) st) := by
    refine after_fresh h (fun _ => trivial) (fun _ _ _ e => by cases e) fun _ c hc => ?_
    simp only [Value.children, List.mem_cons, List.not_mem_nil, or_false] at hc
    rcases hc with rfl | rfl
    · exact ha
    · exact hb
  have he : Operator.binary .add a b = (do return .composition (← Store.fresh) a b) := by
    rw [Bool.and_eq_true] at hab
    cases a <;> cases hab.1 <;> cases b <;> cases hab.2 <;> rfl
  rw [he]
  exact hcomp

theorem binary_range (a b : Value) :
    (∃ e, Operator.binary .iteratorR a b = pure (.error e)) ∨
      Operator.binary .iteratorR a b = Operator.range a b := by
  cases a with
  | error e => exact .inl ⟨e, rfl⟩
  | _ =>
    cases b with
    | error e => exact .inl ⟨e, rfl⟩
    | _ => exact .inr rfl

theorem after_range (h : w.FitsStore st) (a b : Value) :
    AfterStore w (fun v w' => w'.Knows v) (Operator.binary .iteratorR a b st) := by
  have hrange : AfterStore w (fun v w' => w'.Knows v) (Operator.range a b st) := by
    unfold Operator.range
    rcases Operator.rangeEnd a with e | first
    · exact afterStore_pure h (knows_error w e)
    · rcases Operator.rangeEnd b with e | last
      · exact afterStore_pure h (knows_error w e)
      · exact after_newIterator h trivial
  rcases binary_range a b with ⟨e, he⟩ | he
  · rw [he]
    exact afterStore_pure h (knows_error w e)
  · rw [he]
    exact hrange

/-- What a binary operator of a pass gives covers either operand if it may give either. -/
theorem after_binaryInPass (h : w.FitsStore st) (op : BinaryOp) {a b : Value} (ha : w.Knows a)
    (hb : w.Knows b) (dep : Dependency) :
    AfterStore w (fun v w' => w'.Knows v ∧ (op = .orElse → w.Separates → ∀ g,
      Covers w.old g a ∨ Covers w.old g b → Covers w.old g v)) (a.binaryInPass op b dep st) := by
  cases op with
  | orElse =>
    refine (after_either h ha hb).mono fun v w' _ hv => ⟨hv.1, fun _ hs g hg => ?_⟩
    exact (hv.2 hs).covers ha hb hg
  | member =>
    exact (after_memberInPassAt h ha dep).mono fun v w' _ hv => ⟨hv.1, fun e => by cases e⟩
  | add =>
    unfold Value.binaryInPass
    by_cases hc : (a.isCallable && b.isCallable) = true
    · simp only [if_pos hc]
      exact (after_add h ha hb hc).mono fun v w' _ hv => ⟨hv, fun e => by cases e⟩
    · simp only [if_neg hc]
      exact (after_either h ha hb).mono fun v w' _ hv => ⟨hv.1, fun e => by cases e⟩
  | iteratorR =>
    refine (after_range h a b).bind fun v w₁ st₁ _ h₁ hv => ?_
    cases v with
    | iterator handle => exact afterStore_pure h₁ ⟨hv, fun e => by cases e⟩
    | _ => exact (after_newStandIn h₁).mono fun v w' _ hv => ⟨hv, fun e => by cases e⟩
  | _ => exact afterStore_pure h ⟨knows_nil w, fun e => by cases e⟩

/-! ## Frames -/

/-- The value at each position may be either of those in two frames. -/
def EitherFrame (old : Ident → Prop) (as bs vs : List Value) : Prop :=
  List.Forall₂ (fun pair v => EitherOf old pair.1 pair.2 v) (as.zip bs) vs

/-- It covers what the value there covers in either frame. -/
theorem EitherFrame.covers {as bs vs : List Value} (h : EitherFrame w.old as bs vs)
    (ha : ∀ v ∈ as, w.Knows v) (hb : ∀ v ∈ bs, w.Knows v) (hl : as.length = bs.length)
    {gs : List Origin} (hg : List.Forall₂ (CoversOrigin w.old) gs as ∨
      List.Forall₂ (CoversOrigin w.old) gs bs) : List.Forall₂ (CoversOrigin w.old) gs vs := by
  induction as generalizing bs vs gs with
  | nil =>
    rw [List.eq_nil_of_length_eq_zero hl.symm] at h hg
    cases h
    exact hg.elim id id
  | cons a as ih =>
    cases bs with
    | nil => cases hl
    | cons b bs =>
      cases h with
      | cons hv h =>
        have hcov := fun g => hv.covers (g := g) (ha a List.mem_cons_self) (hb b List.mem_cons_self)
        have ha' := fun x hx => ha x (List.mem_cons_of_mem _ hx)
        have hb' := fun x hx => hb x (List.mem_cons_of_mem _ hx)
        rcases hg with hg | hg
        · cases hg with
          | cons hg hgs =>
            have hrest := ih h ha' hb' (Nat.succ.inj hl) (.inl hgs)
            exact .cons (fun g e => hcov g (.inl (hg g e))) hrest
        · cases hg with
          | cons hg hgs =>
            have hrest := ih h ha' hb' (Nat.succ.inj hl) (.inr hgs)
            exact .cons (fun g e => hcov g (.inr (hg g e))) hrest

theorem after_eitherFrames (h : w.FitsStore st) {as bs : List Value} (ha : ∀ v ∈ as, w.Knows v)
    (hb : ∀ v ∈ bs, w.Knows v) :
    AfterStore w (fun vs w' => (∀ v ∈ vs, w'.Knows v) ∧ (as.length = bs.length →
      vs.length = as.length ∧ (w.Separates → EitherFrame w.old as bs vs)))
      (eitherFrames as bs st) := by
  induction as generalizing bs w st with
  | nil =>
    have he : eitherFrames [] bs = (pure bs : StateM Store (List Value)) := by cases bs <;> rfl
    rw [he]
    refine afterStore_pure h ⟨hb, fun hl => ?_⟩
    rw [List.eq_nil_of_length_eq_zero hl.symm]
    exact ⟨rfl, fun _ => .nil⟩
  | cons a as ih =>
    cases bs with
    | nil => exact afterStore_pure h ⟨ha, fun hl => by cases hl⟩
    | cons b bs =>
      refine (after_either h (ha a List.mem_cons_self) (hb b List.mem_cons_self)).bind
        fun v w₁ st₁ hle₁ h₁ hv => ?_
      refine (ih h₁ (fun x hx => hle₁.knows (ha x (List.mem_cons_of_mem _ hx)))
        fun x hx => hle₁.knows (hb x (List.mem_cons_of_mem _ hx))).bind
        fun vs w₂ st₂ hle₂ h₂ hvs => ?_
      refine afterStore_pure h₂ ⟨fun x hx => ?_, fun hl => ?_⟩
      · rcases List.mem_cons.1 hx with rfl | hx
        · exact hle₂.knows hv.1
        · exact hvs.1 x hx
      · obtain ⟨hlength, heither⟩ := hvs.2 (Nat.succ.inj hl)
        refine ⟨congrArg (· + 1) hlength, fun hs => .cons (hv.2 hs) ?_⟩
        exact hle₁.old ▸ heither (hle₁.separates hs)

theorem quiet_eitherFrames (as bs : List Value) : Quiet (eitherFrames as bs) := by
  induction as generalizing bs with
  | nil => cases bs <;> exact quiet_pure _
  | cons a as ih =>
    cases bs with
    | nil => exact quiet_pure _
    | cons b bs => exact (quiet_either a b).bind fun v => (ih bs).bind fun vs => quiet_pure _

/-! ## Collections and partial applications -/

theorem mem_values_push {c : Collection Value} {key : Option String} {v x : Value}
    (h : x ∈ (c.push key v).values) : x = v ∨ x ∈ c.values := by
  obtain ⟨entry, he, rfl⟩ := List.mem_map.1 h
  have hentry : entry.2 = v ∨ entry ∈ c.entries := by
    cases key <;> exact Assoc.mem_insert he
  exact hentry.imp_right List.mem_map_of_mem

theorem mem_values_pushPairs {c d : Collection Value} {values : List Value} {x : Value}
    (hd : pushPairs c values = .ok d) (h : x ∈ d.values) : x ∈ values ∨ x ∈ c.values := by
  induction c, values using pushPairs.induct with
  | case1 c key v rest k hk ih =>
    rw [pushPairs, hk] at hd
    rcases ih hd with hx | hx
    · exact .inl (List.mem_cons_of_mem _ (List.mem_cons_of_mem _ hx))
    · rcases mem_values_push hx with rfl | hx
      · exact .inl (List.mem_cons_of_mem _ List.mem_cons_self)
      · exact .inr hx
  | case2 c key v rest e hk =>
    rw [pushPairs, hk] at hd
    cases hd
  | case3 values c hn =>
    have he : pushPairs c values = .ok c := by
      rcases values with _ | ⟨a, _ | ⟨b, rest⟩⟩
      · rfl
      · rfl
      · exact (hn a b rest rfl).elim
    rw [he] at hd
    cases hd
    exact .inr h

theorem after_makeObject (h : w.FitsStore st) {values : List Value}
    (hv : ∀ v ∈ values, w.Knows v) :
    AfterStore w (fun v w' => w'.Knows v) (makeObject values st) := by
  unfold makeObject
  cases hp : pushPairs .empty values with
  | error e => exact afterStore_pure h (knows_error w e)
  | ok c =>
    refine after_fresh h (fun _ => trivial) (fun _ _ _ e => by cases e) fun _ x hx => ?_
    rcases mem_values_pushPairs hp hx with hx | hx
    · exact hv x hx
    · cases hx

theorem mem_overrideBindings {inner outer : Bindings} {x : Variable × Value}
    (h : x ∈ overrideBindings inner outer) : x ∈ inner ∨ x ∈ outer := by
  unfold overrideBindings at h
  induction outer generalizing inner with
  | nil => exact .inl h
  | cons b rest ih =>
    rcases ih h with h | h
    · rcases List.mem_append.1 h with h | h
      · exact .inl (List.mem_filter.1 h).1
      · exact .inr (List.mem_singleton.1 h ▸ List.mem_cons_self)
    · exact .inr (List.mem_cons_of_mem _ h)

theorem after_partialApply (h : w.FitsStore st) {function : Value} (hf : w.Knows function)
    {bindings : Bindings} (hb : ∀ b ∈ bindings, w.Knows b.2) :
    AfterStore w (fun v w' => w'.Knows v) (partialApply function bindings st) := by
  have hclosure : ∀ {f : Value} {bs : Bindings}, w.Knows f → (∀ b ∈ bs, w.Knows b.2) →
      AfterStore w (fun v w' => w'.Knows v)
        ((do return .closure (← Store.fresh) f bs : StateM Store Value) st) := by
    intro f bs hf hbs
    refine after_fresh h (fun _ => trivial) (fun _ _ _ e => by cases e) fun _ x hx => ?_
    rcases List.mem_cons.1 hx with rfl | hx
    · exact hf
    · obtain ⟨b, hmem, rfl⟩ := List.mem_map.1 hx
      exact hbs b hmem
  cases function with
  | error e => exact afterStore_pure h (knows_error w e)
  | closure id inner captured =>
    refine hclosure (hf.child List.mem_cons_self) fun b hmem => ?_
    rcases mem_overrideBindings hmem with hmem | hmem
    · exact hf.child (List.mem_cons_of_mem _ (List.mem_map_of_mem hmem))
    · exact hb b hmem
  | _ => exact hclosure hf hb

end ReactiveScript.World
