import Mathlib.Data.Set.Basic
import ReactiveScript.Proofs.World
import ReactiveScript.Proofs.Origin
import ReactiveScript.Tracking.Alternatives

/-
  Stand-ins cover what they stand for.

  `Covers old g v` says that the stand-in `v` may be the node `g`: it is a placeholder of `g` made by
  the pass, or a union of which one side covers `g`. A value that may be either of two covers what
  either covers (`EitherOf.covers`), although equal values are joined without a union, because in a
  known world equal stand-ins are the same. Reading a member of what covers a group registers the
  dependency with the group's member and gives what covers that member (`after_memberInPass_of_le`).
  All operations of a pass on the store lead to a later world that knows their values.
-/

namespace ReactiveScript

/-- The value may be the node. -/
inductive Covers (old : Ident → Prop) (g : Node) : Value → Prop
  | here {id : Ident} : ¬ old id → Covers old g (.object id (.placeholder g))
  | left {id : Ident} {a b : Value} : ¬ old id → Covers old g a → Covers old g (.object id (.union a b))
  | right {id : Ident} {a b : Value} : ¬ old id → Covers old g b →
    Covers old g (.object id (.union a b))

theorem Covers.object {old : Ident → Prop} {g : Node} {v : Value} (h : Covers old g v) :
    ∃ id body, v = .object id body ∧ ¬ old id := by
  cases h with
  | here h => exact ⟨_, _, rfl, h⟩
  | left h _ => exact ⟨_, _, rfl, h⟩
  | right h _ => exact ⟨_, _, rfl, h⟩

/-- The value may be what its origin says, if that is a node. -/
def CoversOrigin (old : Ident → Prop) (o : Origin) (v : Value) : Prop :=
  ∀ g, o = .node g → Covers old g v

/-- The owner that the node is, if it is one. -/
def ownerOf (g : Node) : Set OwnerId := {o | o ∈ g.asOwner}

namespace World

variable {w : World} {st : Store}

/-- Identities given out before the pass are below those it gives out. -/
def Separates (w : World) : Prop := ∀ id, w.old id → id < w.next

theorem Le.separates {w' : World} (h : w.Le w') (hs : w.Separates) : w'.Separates :=
  fun id hid => Nat.lt_of_lt_of_le (hs id (h.old ▸ hid)) h.next

theorem Separates.next (h : w.Separates) : ¬ w.old w.next :=
  fun hid => Nat.lt_irrefl _ (h _ hid)

/-- Known objects with one identity that the pass gave out are the same. -/
theorem Knows.object_unique {id : Ident} {a b : ObjectBody Value} (hn : ¬ w.old id)
    (ha : w.Knows (.object id a)) (hb : w.Knows (.object id b)) : a = b := by
  rcases ha.holds.2 id a rfl with h | ⟨-, ha⟩
  · exact absurd h hn
  · rcases hb.holds.2 id b rfl with h | ⟨-, hb⟩
    · exact absurd h hn
    · exact ha.trans hb.symm

theorem equal_object {id : Ident} {body : ObjectBody Value} {v : Value}
    (h : (Value.object id body).equal v = true) : ∃ other, v = .object id other := by
  cases v with
  | object id' other =>
    have : id = id' := beq_iff_eq.1 h
    exact ⟨other, this ▸ rfl⟩
  | _ => cases h

/-! ## Making stand-ins -/

/-- A new object whose parts are known. -/
theorem after_object (h : w.FitsStore st) {body : ObjectBody Value}
    (hm : ∀ o, body ≠ .host o)
    (hc : ∀ c ∈ (Value.object w.next body).children, w.Knows c) :
    AfterStore w (fun v w' => w'.Knows v ∧ v = .object w.next body)
      ((do return .object (← Store.fresh) body : StateM Store Value) st) := by
  have hmade : (Value.object w.next body).Made := by
    cases body with
    | host o => exact absurd rfl (hm o)
    | placeholder _ => trivial
    | union _ _ => trivial
  refine ⟨w.extend body, w.le_extend body, h.extend body, ?_⟩
  have he : (Value.object st.nextIdent body) = .object w.next body := by rw [h.next]
  show (w.extend body).Knows (.object st.nextIdent body) ∧ _
  rw [he]
  exact ⟨knows_extend hmade hc, he⟩

theorem after_newPlaceholder (h : w.FitsStore st) (g : Node) :
    AfterStore w (fun v w' => w'.Knows v ∧ v = .object w.next (.placeholder g))
      (newPlaceholder g st) :=
  after_object h (fun _ e => by cases e) fun c hc => by cases hc

/-- What the value that may be either of two is: one of them if they can not be told apart or the other
is nil, else their union. -/
inductive EitherOf (old : Ident → Prop) (a b : Value) : Value → Prop
  | same : (a.isNil || a.equal b) = true → EitherOf old a b b
  | first : b.isNil = true → EitherOf old a b a
  | union {id : Ident} : ¬ old id → EitherOf old a b (.object id (.union a b))

/-- It covers what either covers. -/
theorem EitherOf.covers {a b v : Value} (h : EitherOf w.old a b v) (ha : w.Knows a) (hb : w.Knows b)
    {g : Node} (hg : Covers w.old g a ∨ Covers w.old g b) : Covers w.old g v := by
  cases h with
  | same h1 =>
    rcases hg with hg | hg
    · -- the left one is equal to the right one, so both are the same object
      obtain ⟨id, body, rfl, hn⟩ := hg.object
      rw [Bool.or_eq_true] at h1
      rcases h1 with h1 | h1
      · cases h1
      · obtain ⟨other, rfl⟩ := equal_object h1
        exact Knows.object_unique hn ha hb ▸ hg
    · exact hg
  | first h2 =>
    refine hg.resolve_right fun hg => ?_
    obtain ⟨id, body, rfl, -⟩ := hg.object
    cases h2
  | union hn => exact hg.elim (.left hn) (.right hn)

theorem after_either (h : w.FitsStore st) {a b : Value} (ha : w.Knows a) (hb : w.Knows b) :
    AfterStore w (fun v w' => w'.Knows v ∧ (w.Separates → EitherOf w.old a b v))
      (either a b st) := by
  unfold either
  by_cases h1 : (a.isNil || a.equal b) = true
  · simp only [if_pos h1]
    exact afterStore_pure h ⟨hb, fun _ => .same h1⟩
  · simp only [if_neg h1]
    by_cases h2 : b.isNil = true
    · simp only [if_pos h2]
      exact afterStore_pure h ⟨ha, fun _ => .first h2⟩
    · simp only [if_neg h2]
      have hc : ∀ c ∈ (Value.object w.next (.union a b)).children, w.Knows c := by
        intro c hc
        simp only [Value.children, List.mem_cons, List.not_mem_nil, or_false] at hc
        rcases hc with rfl | rfl
        · exact ha
        · exact hb
      refine (after_object h (fun _ e => by cases e) hc).mono ?_
      rintro v w' - ⟨hv, rfl⟩
      exact ⟨hv, fun hs => .union hs.next⟩

/-! ## What leaves the lists of dependents alone -/

/-- No list of dependents is touched. -/
def Quiet {α : Type} (x : StateM Store α) : Prop := ∀ st, (x st).2.dependents = st.dependents

theorem Quiet.bind {α β : Type} {x : StateM Store α} {f : α → StateM Store β} (hx : Quiet x)
    (hf : ∀ a, Quiet (f a)) : Quiet (x >>= f) :=
  fun st => (hf (x st).1 (x st).2).trans (hx st)

theorem quiet_pure {α : Type} (a : α) : Quiet (pure a) := fun _ => rfl

theorem quiet_either (a b : Value) : Quiet (either a b) := by
  unfold either
  by_cases h1 : (a.isNil || a.equal b) = true
  · simp only [if_pos h1]
    exact quiet_pure b
  · simp only [if_neg h1]
    by_cases h2 : b.isNil = true
    · simp only [if_pos h2]
      exact quiet_pure a
    · simp only [if_neg h2]
      exact fun _ => rfl

theorem AfterStore.quiet {α : Type} {B : α → World → Prop} {x : StateM Store α}
    (h : AfterStore w B (x st)) (hst : w.FitsStore st) (hx : Quiet x) :
    AfterStore w (fun a w' => B a w' ∧ w'.dependents = w.dependents) (x st) := by
  obtain ⟨w', hle, hfit, hB⟩ := h
  exact ⟨w', hle, hfit, hB, hfit.dependents.symm.trans ((hx st).trans hst.dependents)⟩

/-! ## Registering dependencies -/

/-- The dependency is in the list of the owner, if there is such a list. -/
def Registered (w : World) (dep : Dependency) (owner : OwnerId) : Prop :=
  owner < w.dependents.size → dep ∈ w.dependents[owner]?.getD []

theorem Le.registered {w' : World} (h : w.Le w') {dep : Dependency} {owner : OwnerId}
    (hr : w.Registered dep owner) : w'.Registered dep owner := fun hlt =>
  h.dependents.2 owner dep (hr (h.dependents.1 ▸ hlt))

/-- The dependency was added to the lists of these owners, and nothing else to any list. -/
def Notes (dep : Dependency) (w w' : World) (owners : Set OwnerId) : Prop :=
  ∀ (o : OwnerId) d, d ∈ w'.dependents[o]?.getD [] ↔
    d ∈ w.dependents[o]?.getD [] ∨ d = dep ∧ o ∈ owners ∧ o < w.dependents.size

theorem notes_of_eq {w' : World} (h : w'.dependents = w.dependents) (dep : Dependency) :
    Notes dep w w' ∅ := by
  intro o d
  rw [h]
  exact ⟨.inl, fun hd => hd.resolve_right fun hd => hd.2.1⟩

theorem Notes.trans {w' w'' : World} {dep : Dependency} {owners owners' : Set OwnerId}
    (h : Notes dep w w' owners) (h' : Notes dep w' w'' owners') (hle : w.Le w') :
    Notes dep w w'' (owners ∪ owners') := by
  intro o d
  rw [h' o d, h o d, hle.dependents.1, Set.mem_union]
  constructor
  · rintro ((hd | ⟨rfl, ho, hlt⟩) | ⟨rfl, ho, hlt⟩)
    · exact .inl hd
    · exact .inr ⟨rfl, .inl ho, hlt⟩
    · exact .inr ⟨rfl, .inr ho, hlt⟩
  · rintro (hd | ⟨rfl, ho | ho, hlt⟩)
    · exact .inl (.inl hd)
    · exact .inl (.inr ⟨rfl, ho, hlt⟩)
    · exact .inr ⟨rfl, ho, hlt⟩

theorem Notes.registered {w' : World} {dep : Dependency} {owners : Set OwnerId}
    (h : Notes dep w w' owners) (hle : w.Le w') {owner : OwnerId} (ho : owner ∈ owners) :
    w'.Registered dep owner := fun hlt =>
  (h owner dep).2 (.inr ⟨rfl, ho, hle.dependents.1 ▸ hlt⟩)

theorem after_addDependent (h : w.FitsStore st) (owner : OwnerId) (dep : Dependency) :
    AfterStore w (fun _ w' => dep.isDummy = false → Notes dep w w' {owner})
      (Store.addDependent owner dep st) := by
  unfold Store.addDependent
  by_cases hd : (dep.isDummy || (st.dependents[owner]?.getD []).contains dep) = true
  · simp only [if_pos hd]
    refine ⟨w, .refl w, h, fun hdummy o d => ⟨.inl, fun hmem => hmem.elim id ?_⟩⟩
    rw [hdummy, Bool.false_or, List.contains_iff_mem, h.dependents] at hd
    rintro ⟨rfl, rfl, -⟩
    exact hd
  · simp only [if_neg hd]
    generalize hl : st.dependents.setIfInBounds owner
      (st.dependents[owner]?.getD [] ++ [dep]) = list
    -- the list of the owner got the dependency, if there is one; the others are as they were
    have hget : ∀ (o : OwnerId) d, d ∈ list[o]?.getD [] ↔ d ∈ w.dependents[o]?.getD [] ∨
        d = dep ∧ o ∈ ({owner} : Set OwnerId) ∧ o < w.dependents.size := by
      intro o d
      rw [← hl, h.dependents, Array.getElem?_setIfInBounds]
      by_cases ho : owner = o
      · subst ho
        by_cases hlt : owner < w.dependents.size
        · have ho : owner ∈ ({owner} : Set OwnerId) := rfl
          simp [hlt, ho]
        · simp [hlt]
      · rw [if_neg ho]
        exact ⟨.inl, fun hmem => hmem.resolve_right fun hmem => ho hmem.2.1.symm⟩
    have hkeeps : Keeps w.dependents list :=
      ⟨by rw [← hl, h.dependents, Array.size_setIfInBounds], fun o d hmem => (hget o d).2 (.inl hmem)⟩
    exact ⟨{ w with dependents := list }, ⟨rfl, rfl, Nat.le_refl _, fun _ _ => rfl, hkeeps, rfl,
      rfl, rfl⟩, ⟨h.next, rfl, h.iterations⟩, fun _ => hget⟩

theorem after_markContent (h : w.FitsStore st) :
    AfterStore w (fun _ w' => w'.dependents = w.dependents) (Store.markContent st) :=
  ⟨w, .refl w, ⟨h.next, h.dependents, h.iterations⟩, rfl⟩

theorem after_noteRead (h : w.FitsStore st) (g : Node) (dep : Dependency) :
    AfterStore w (fun _ w' => dep.isDummy = false → Notes dep w w' (ownerOf g))
      (g.noteRead dep st) := by
  cases g with
  | owner name scripts =>
    unfold Node.noteRead
    have hset : ownerOf (.owner name scripts) = {scripts} := by
      ext o
      exact List.mem_singleton
    rw [hset]
    have hadd : ∀ w₁ st₁, w₁.FitsStore st₁ → AfterStore w₁
        (fun _ w' => dep.isDummy = false → Notes dep w₁ w' {scripts})
        ((do let _ ← Store.addDependent scripts dep : StateM Store Unit) st₁) := by
      intro w₁ st₁ h₁
      obtain ⟨w₂, hle₂, h₂, hn⟩ := after_addDependent h₁ scripts dep
      exact ⟨w₂, hle₂, h₂, hn⟩
    by_cases hc : (dep.isDummy && Node.isContentName name) = true
    · simp only [if_pos hc]
      refine (after_markContent h).bind fun _ w₁ st₁ _ h₁ heq => ?_
      refine (hadd w₁ st₁ h₁).mono fun _ w₂ _ hn hd o d => ?_
      rw [hn hd o d, heq]
    · simp only [if_neg hc]
      exact hadd w st h
  | group name members =>
    have hset : ownerOf (.group name members) = ∅ :=
      Set.eq_empty_of_forall_notMem fun o ho => by cases ho
    exact afterStore_pure h fun _ => hset ▸ notes_of_eq rfl dep

/-- Owners of host objects are registered one by one; nothing is said of them. -/
theorem after_forM {α : Type} {f : α → StateM Store Unit} (list : List α)
    (hf : ∀ a ∈ list, ∀ w' st', w'.FitsStore st' → AfterStore w' (fun _ _ => True) (f a st'))
    (h : w.FitsStore st) : AfterStore w (fun _ _ => True) (list.forM f st) := by
  induction list generalizing w st with
  | nil => exact afterStore_pure h trivial
  | cons a rest ih =>
    show AfterStore w _ ((f a >>= fun _ => rest.forM f) st)
    refine (hf a List.mem_cons_self w st h).bind fun _ w₁ st₁ _ h₁ _ => ?_
    exact ih (fun b hb => hf b (List.mem_cons_of_mem _ hb)) h₁

theorem after_noteReadHost (h : w.FitsStore st) (o : HostObject Value) (name : String)
    (dep : Dependency) : AfterStore w (fun _ _ => True) (o.noteRead name dep st) := by
  refine after_forM _ (fun owner _ w₁ st₁ h₁ => ?_) h
  exact (after_addDependent h₁ owner.2 dep).bind fun _ w₂ st₂ _ h₂ _ => afterStore_pure h₂ trivial

/-! ## Members -/

/-- What covers a node covers its member, and the dependency is registered with it. -/
def CoversMember (w w' : World) (dep : Dependency) (name : String) (object v : Value) : Prop :=
  w.Separates → ∀ g n, Covers w.old g object → g.get? name = some n →
    Covers w.old n v ∧ (dep.isDummy = false → ∀ o ∈ n.asOwner, w'.Registered dep o)

theorem after_nodeMember (h : w.FitsStore st) (g : Node) (name : String) (dep : Dependency) :
    AfterStore w (fun v w' => w'.Knows v ∧ (w.Separates → ∀ n, g.get? name = some n →
      Covers w.old n v ∧ (dep.isDummy = false → ∀ o ∈ n.asOwner, w'.Registered dep o)))
      (g.memberInPass name dep st) := by
  unfold Node.memberInPass
  cases hg : g.get? name with
  | none =>
    refine afterStore_pure h ⟨knows_nil w, fun _ n hn => ?_⟩
    cases hn
  | some n =>
    refine (after_noteRead h n dep).bind fun _ w₁ st₁ hle h₁ hr => ?_
    refine (after_newPlaceholder h₁ n).mono fun v w₂ hle₂ hv => ⟨hv.1, fun hs n' hn' => ?_⟩
    cases hn'
    have hnew : ¬ w.old w₁.next := hle.old ▸ (hle.separates hs).next
    exact ⟨hv.2 ▸ .here hnew, fun hd o ho => hle₂.registered ((hr hd).registered hle ho)⟩

theorem knows_getD_nil {v : Option Value} (h : ∀ x, v = some x → w.Knows x) :
    w.Knows (v.getD .nil) := by
  cases v with
  | none => exact knows_nil w
  | some x => exact h x rfl

theorem mem_values_of_lookup? {items : Collection Value} {name : String} {v : Value}
    (h : items.lookup? name = some v) : v ∈ items.values := by
  unfold Collection.lookup? at h
  cases hg : items.get? name with
  | some x =>
    rw [hg] at h
    cases h
    exact List.mem_map_of_mem (Assoc.mem_of_find? hg)
  | none =>
    rw [hg] at h
    obtain ⟨index, -, h⟩ := Option.bind_eq_some_iff.1 h
    obtain ⟨entry, he, rfl⟩ := Option.map_eq_some_iff.1 h
    exact List.mem_map_of_mem (List.mem_of_getElem? he)

theorem covers_isObject {old : Ident → Prop} {v : Value} (h : ∀ id body, v ≠ .object id body)
    (g : Node) : ¬ Covers old g v := by
  intro hg
  obtain ⟨id, body, rfl, -⟩ := hg.object
  exact h id body rfl

/-- The right side of a union is read in a later world than the left one, so the value is known in
an earlier world than the one in which its member is read. -/
theorem after_memberInPass_of_le {w₀ : World} {object : Value} (hk : w₀.Knows object)
    (name : String) (dep : Dependency) (hle : w₀.Le w) (h : w.FitsStore st) :
    AfterStore w (fun v w' => w'.Knows v ∧ CoversMember w w' dep name object v)
      (object.memberInPass name dep st) := by
  induction hk generalizing w st with
  | @intro object hobject hparts ih =>
    have hknown : w.Knows object := hle.knows (.intro hobject hparts)
    have uncovered : ∀ {v : Value} {w' : World}, (∀ g, ¬ Covers w.old g object) →
        CoversMember w w' dep name object v := fun hn _ g _ hg => absurd hg (hn g)
    cases object with
    | object id body =>
      cases body with
      | host o =>
        refine (after_noteReadHost h o name dep).bind fun _ w₁ st₁ hle₁ h₁ _ => ?_
        refine afterStore_pure h₁ ⟨knows_getD_nil fun x hx => ?_, uncovered fun g hg => by cases hg⟩
        refine (hle₁.knows hknown).child ?_
        exact List.mem_append_left _ (List.mem_map_of_mem (Assoc.mem_of_find? hx))
      | placeholder g =>
        refine (after_nodeMember h g name dep).mono fun v w₁ _ hv => ⟨hv.1, ?_⟩
        intro hs g' n hg hn
        cases hg
        exact hv.2 hs n hn
      | union a b =>
        refine (ih a (by simp [Value.children]) hle h).bind fun x w₁ st₁ hle₁ h₁ hx => ?_
        refine (ih b (by simp [Value.children]) (hle.trans hle₁) h₁).bind
          fun y w₂ st₂ hle₂ h₂ hy => ?_
        refine (after_either h₂ (hle₂.knows hx.1) hy.1).mono fun v w₃ hle₃ hv => ⟨hv.1, ?_⟩
        intro hs g n hg hn
        have hs₁ := hle₁.separates hs
        have hs₂ := hle₂.separates hs₁
        have hold := hle₂.old.trans hle₁.old
        cases hg with
        | left _ hg =>
          obtain ⟨hc, hr⟩ := hx.2 hs g n hg hn
          have hcov := (hv.2 hs₂).covers (hle₂.knows hx.1) hy.1 (.inl (hold ▸ hc))
          refine ⟨hold ▸ hcov, fun hd o ho => ?_⟩
          exact hle₃.registered (hle₂.registered (hr hd o ho))
        | right _ hg =>
          obtain ⟨hc, hr⟩ := hy.2 hs₁ g n (hle₁.old ▸ hg) hn
          have hcov := (hv.2 hs₂).covers (hle₂.knows hx.1) hy.1 (.inr (hle₂.old ▸ hc))
          refine ⟨hold ▸ hcov, fun hd o ho => ?_⟩
          exact hle₃.registered (hr hd o ho)
    | collection id items =>
      have hu := fun v w' => @uncovered v w' (covers_isObject fun _ _ e => by cases e)
      have hm : w.Knows ((Value.collection id items).member (.string name)) := by
        unfold Value.member
        cases hv : items.lookup? name with
        | some v =>
          have : (Value.collection id items).member? (.string name) = some v := hv
          rw [this]
          exact hknown.child (mem_values_of_lookup? hv)
        | none =>
          have : (Value.collection id items).member? (.string name) = none := hv
          rw [this]
          exact knows_error _ _
      unfold Value.memberInPass
      generalize (Value.collection id items).member (.string name) = v at hm ⊢
      cases v with
      | error e => exact afterStore_pure h ⟨knows_nil w, hu _ _⟩
      | _ => exact afterStore_pure h ⟨hm, hu _ _⟩
    | _ =>
      exact afterStore_pure h ⟨knows_nil w, uncovered (covers_isObject fun _ _ e => by cases e)⟩

theorem after_memberInPassAt (h : w.FitsStore st) {object key : Value} (hk : w.Knows object)
    (dep : Dependency) :
    AfterStore w (fun v w' => w'.Knows v ∧ ∀ name, key.toText = .ok name →
      CoversMember w w' dep name object v) (object.memberInPassAt key dep st) := by
  unfold Value.memberInPassAt
  cases hn : key.toText with
  | ok name =>
    refine (after_memberInPass_of_le hk name dep (.refl w) h).mono fun v w' _ hv => ⟨hv.1, ?_⟩
    intro name' hn'
    cases hn'
    exact hv.2
  | error e => exact afterStore_pure h ⟨knows_nil w, fun name hn' => by cases hn'⟩

end World

end ReactiveScript
