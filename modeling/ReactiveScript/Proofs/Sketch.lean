import ReactiveScript.Proofs.Paths

/-
  What a pass makes of what it reads, exactly.

  `Pictures old v nodes` says that the stand-in `v` may be each of these nodes and no other. Where two
  values are joined the nodes of both are (`EitherOf.pictures`), and reading a member registers the
  dependency with the owners among the members of the nodes and with no other owner
  (`after_memberInPass`). `Leads w v first` says which node the first element of a list of stand-ins
  is a placeholder of; of a union of lists it is that of the left one (`EitherOf.leads`). A `Sketch` is
  either of the two, or nothing.
-/

namespace ReactiveScript

/-- The value is made of placeholders by the pass, and may be exactly these nodes. -/
inductive Pictures (old : Ident → Prop) : Value → Set Node → Prop
  | placeholder {id : Ident} {g : Node} : ¬ old id → Pictures old (.object id (.placeholder g)) {g}
  | union {id : Ident} {a b : Value} {nodes others : Set Node} : ¬ old id → Pictures old a nodes →
    Pictures old b others → Pictures old (.object id (.union a b)) (nodes ∪ others)
  | scalar {v : Value} : (∀ id body, v ≠ .object id body) → (∀ id items, v ≠ .collection id items) →
    Pictures old v ∅

variable {old : Ident → Prop}

theorem pictures_nil (old : Ident → Prop) : Pictures old .nil ∅ :=
  .scalar (fun _ _ e => by cases e) fun _ _ e => by cases e

theorem pictures_iterator (old : Ident → Prop) (handle : Nat) :
    Pictures old (.iterator handle) ∅ :=
  .scalar (fun _ _ e => by cases e) fun _ _ e => by cases e

theorem Pictures.unique {v : Value} {nodes others : Set Node} (h : Pictures old v nodes)
    (h' : Pictures old v others) : nodes = others := by
  induction h generalizing others with
  | placeholder _ =>
    cases h' with
    | placeholder _ => rfl
    | scalar hno _ => exact absurd rfl (hno _ _)
  | union _ _ _ iha ihb =>
    cases h' with
    | union _ ha hb => rw [iha ha, ihb hb]
    | scalar hno _ => exact absurd rfl (hno _ _)
  | scalar hno _ =>
    cases h' with
    | placeholder _ => exact absurd rfl (hno _ _)
    | union _ _ _ => exact absurd rfl (hno _ _)
    | scalar _ _ => rfl

/-- The members of nodes under a name. -/
def membersOf (name : String) (nodes : Set Node) : Set Node :=
  {n | ∃ g ∈ nodes, g.get? name = some n}

/-- The owners among nodes. -/
def ownersAmong (nodes : Set Node) : Set OwnerId := {o | ∃ g ∈ nodes, o ∈ ownerOf g}

theorem membersOf_union (name : String) (nodes others : Set Node) :
    membersOf name (nodes ∪ others) = membersOf name nodes ∪ membersOf name others := by
  ext n
  constructor
  · rintro ⟨g, hg | hg, hn⟩
    · exact .inl ⟨g, hg, hn⟩
    · exact .inr ⟨g, hg, hn⟩
  · rintro (⟨g, hg, hn⟩ | ⟨g, hg, hn⟩)
    · exact ⟨g, .inl hg, hn⟩
    · exact ⟨g, .inr hg, hn⟩

theorem membersOf_empty (name : String) : membersOf name ∅ = ∅ :=
  Set.eq_empty_of_forall_notMem fun _ ⟨_, hg, _⟩ => hg

theorem membersOf_of_none {g : Node} {name : String} (h : g.get? name = none) :
    membersOf name {g} = ∅ := by
  refine Set.eq_empty_of_forall_notMem ?_
  rintro n ⟨_, rfl, hn⟩
  rw [h] at hn
  cases hn

theorem membersOf_of_some {g n : Node} {name : String} (h : g.get? name = some n) :
    membersOf name {g} = {n} := by
  ext n'
  constructor
  · rintro ⟨_, rfl, hn⟩
    rw [h] at hn
    exact (Option.some.inj hn).symm
  · rintro rfl
    exact ⟨g, rfl, h⟩

theorem ownersAmong_union (nodes others : Set Node) :
    ownersAmong (nodes ∪ others) = ownersAmong nodes ∪ ownersAmong others := by
  ext o
  constructor
  · rintro ⟨g, hg | hg, ho⟩
    · exact .inl ⟨g, hg, ho⟩
    · exact .inr ⟨g, hg, ho⟩
  · rintro (⟨g, hg, ho⟩ | ⟨g, hg, ho⟩)
    · exact ⟨g, .inl hg, ho⟩
    · exact ⟨g, .inr hg, ho⟩

theorem ownersAmong_empty : ownersAmong ∅ = ∅ :=
  Set.eq_empty_of_forall_notMem fun _ ⟨_, hg, _⟩ => hg

theorem ownersAmong_singleton (g : Node) : ownersAmong {g} = ownerOf g := by
  ext o
  constructor
  · rintro ⟨_, rfl, ho⟩
    exact ho
  · exact fun ho => ⟨g, rfl, ho⟩

namespace World

variable {w : World} {st : Store}

/-- The value that may be either may be the nodes of both. -/
theorem EitherOf.pictures {a b v : Value} {nodes others : Set Node} (h : EitherOf w.old a b v)
    (hka : w.Knows a) (hkb : w.Knows b) (ha : Pictures w.old a nodes)
    (hb : Pictures w.old b others) : Pictures w.old v (nodes ∪ others) := by
  cases h with
  | same h =>
    -- two new objects with one identity are the same; anything else shows no node
    have hsub : nodes = others ∨ nodes = ∅ := by
      rw [Bool.or_eq_true] at h
      cases ha with
      | scalar _ _ => exact .inr rfl
      | placeholder hn =>
        rcases h with h | h
        · cases h
        · obtain ⟨body, rfl⟩ := equal_object h
          obtain rfl := Knows.object_unique hn hka hkb
          exact .inl (Pictures.unique (.placeholder hn) hb)
      | union hn ha₁ ha₂ =>
        rcases h with h | h
        · cases h
        · obtain ⟨body, rfl⟩ := equal_object h
          obtain rfl := Knows.object_unique hn hka hkb
          exact .inl (Pictures.unique (.union hn ha₁ ha₂) hb)
    rcases hsub with rfl | rfl
    · rw [Set.union_self]
      exact hb
    · rw [Set.empty_union]
      exact hb
  | first h =>
    have hnil : b = .nil := by cases b <;> first | rfl | cases h
    subst hnil
    rw [hb.unique (pictures_nil w.old), Set.union_empty]
    exact ha
  | union hn => exact .union hn ha hb

/-! ## Members -/

/-- Reading a member registers the dependency with the owners among the members of the nodes. The
right side of a union is read in a later world than the left one. -/
theorem after_memberInPass {w₀ : World} {object : Value} {nodes : Set Node}
    (hp : Pictures w₀.old object nodes) (hk : w₀.Knows object) (name : String) {dep : Dependency}
    (hdep : dep.isDummy = false) (hle : w₀.Le w) (hs : w.Separates) (h : w.FitsStore st) :
    AfterStore w (fun v w' => w'.Knows v ∧ Pictures w.old v (membersOf name nodes) ∧
      Notes dep w w' (ownersAmong (membersOf name nodes))) (object.memberInPass name dep st) := by
  induction hp generalizing w st with
  | @placeholder id g _ =>
    show AfterStore w _ (g.memberInPass name dep st)
    unfold Node.memberInPass
    cases hg : g.get? name with
    | none =>
      rw [membersOf_of_none hg, ownersAmong_empty]
      exact afterStore_pure h ⟨knows_nil w, pictures_nil _, notes_of_eq rfl dep⟩
    | some n =>
      rw [membersOf_of_some hg, ownersAmong_singleton]
      refine (after_noteRead h n dep).bind fun _ w₁ st₁ hle₁ h₁ hnotes => ?_
      have hmade := (after_newPlaceholder h₁ n).quiet h₁ fun _ => rfl
      refine hmade.mono fun v w₂ hle₂ hv => ?_
      obtain ⟨⟨hknown, rfl⟩, hquiet⟩ := hv
      have hnew : ¬ w.old w₁.next := hle₁.old ▸ (hle₁.separates hs).next
      have hall := (hnotes hdep).trans (notes_of_eq hquiet dep) hle₁
      rw [Set.union_empty] at hall
      exact ⟨hknown, .placeholder hnew, hall⟩
  | @union id a b nodes others _ _ _ iha ihb =>
    have hka : w₀.Knows a := hk.child (by simp [Value.children])
    have hkb : w₀.Knows b := hk.child (by simp [Value.children])
    rw [membersOf_union, ownersAmong_union]
    refine (iha hka hle hs h).bind fun x w₁ st₁ hle₁ h₁ hx => ?_
    have hs₁ := hle₁.separates hs
    refine (ihb hkb (hle.trans hle₁) hs₁ h₁).bind fun y w₂ st₂ hle₂ h₂ hy => ?_
    have hs₂ := hle₂.separates hs₁
    have hold : w₂.old = w.old := hle₂.old.trans hle₁.old
    have hjoined := (after_either h₂ (hle₂.knows hx.1) hy.1).quiet h₂ (quiet_either x y)
    refine hjoined.mono fun v w₃ hle₃ hv => ?_
    obtain ⟨⟨hknown, heither⟩, hquiet⟩ := hv
    have hpx : Pictures w₂.old x _ := hold ▸ hx.2.1
    have hpy : Pictures w₂.old y _ := hle₂.old ▸ hy.2.1
    have hall := (hx.2.2.trans hy.2.2 hle₁).trans (notes_of_eq hquiet dep) (hle₁.trans hle₂)
    rw [Set.union_empty] at hall
    exact ⟨hknown, hold ▸ (heither hs₂).pictures (hle₂.knows hx.1) hy.1 hpx hpy, hall⟩
  | @scalar v hno hnone =>
    have hnil : v.memberInPass name dep = (pure .nil : StateM Store Value) := by
      cases v with
      | object id body => exact absurd rfl (hno id body)
      | collection id items => exact absurd rfl (hnone id items)
      | _ => rfl
    rw [hnil, membersOf_empty, ownersAmong_empty]
    exact afterStore_pure h ⟨knows_nil w, pictures_nil _, notes_of_eq rfl dep⟩

/-! ## Lists of stand-ins -/

/-- What a world notes for the identity of a list, which is no object: the node that its first element
is a placeholder of. -/
def listMark : Option Node → ObjectBody Value
  | some g => .placeholder g
  | none => .union .nil .nil

theorem listMark_injective {first other : Option Node} (h : listMark first = listMark other) :
    first = other := by
  cases first <;> cases other <;> cases h <;> rfl

end World

open World in
/-- A list of stand-ins, or a union of lists, whose iterator begins with a placeholder of the node. -/
inductive Leads (w : World) : Value → Option Node → Prop
  | empty {id : Ident} {items : Collection Value} : ¬ w.old id → id < w.next →
    w.body id = listMark none → items.entries = [] → Leads w (.collection id items) none
  | first {id id' : Ident} {items : Collection Value} {key : String} {g : Node}
    {rest : List (String × Value)} : ¬ w.old id → id < w.next → w.body id = listMark (some g) →
    ¬ w.old id' → items.entries = (key, .object id' (.placeholder g)) :: rest →
    Leads w (.collection id items) (some g)
  | union {id : Ident} {a b : Value} {first other : Option Node} : ¬ w.old id → Leads w a first →
    Leads w b other → Leads w (.object id (.union a b)) first

namespace World

variable {w : World} {st : Store}

theorem Le.leads {w' : World} (hle : w.Le w') {v : Value} {first : Option Node}
    (h : Leads w v first) : Leads w' v first := by
  induction h with
  | empty hn hlt hbody he =>
    exact .empty (hle.old ▸ hn) (Nat.lt_of_lt_of_le hlt hle.next) ((hle.body _ hlt).trans hbody) he
  | first hn hlt hbody hn' he =>
    exact .first (hle.old ▸ hn) (Nat.lt_of_lt_of_le hlt hle.next) ((hle.body _ hlt).trans hbody)
      (hle.old ▸ hn') he
  | union hn _ _ iha ihb => exact .union (hle.old ▸ hn) iha ihb

/-- The mark of a list is that of its first element. -/
theorem leads_mark {id : Ident} {items : Collection Value} {first : Option Node}
    (h : Leads w (.collection id items) first) : w.body id = listMark first := by
  cases h with
  | empty _ _ hbody _ => exact hbody
  | first _ _ hbody _ _ => exact hbody

theorem leads_unique {v : Value} {first other : Option Node} (h : Leads w v first)
    (h' : Leads w v other) : first = other := by
  induction h generalizing other with
  | empty _ _ hbody _ => exact listMark_injective (hbody.symm.trans (leads_mark h'))
  | first _ _ hbody _ _ => exact listMark_injective (hbody.symm.trans (leads_mark h'))
  | union _ _ _ iha _ =>
    cases h' with
    | union _ ha _ => exact iha ha

/-- Equal lists begin with the same element, because known stand-ins that are equal are the same. -/
theorem leads_of_equal {id id' : Ident} {items items' : Collection Value}
    {first other : Option Node} (h : (Value.collection id items).equal (.collection id' items') = true)
    (hk : w.Knows (.collection id items)) (hk' : w.Knows (.collection id' items'))
    (ha : Leads w (.collection id items) first) (hb : Leads w (.collection id' items') other) :
    first = other := by
  rcases items with ⟨entries, isList⟩
  rcases items' with ⟨entries', isList'⟩
  rw [Value.equal, Bool.or_eq_true] at h
  rcases h with hid | h
  · rw [beq_iff_eq.1 hid] at ha
    exact listMark_injective ((leads_mark ha).symm.trans (leads_mark hb))
  · cases ha with
    | empty _ _ _ he =>
      cases hb with
      | empty _ _ _ _ => rfl
      | first _ _ _ _ he' =>
        dsimp only at he he'
        rw [he, he'] at h
        cases h
    | @first _ i _ key g rest _ _ _ hn he =>
      dsimp only at he
      subst he
      cases hb with
      | empty _ _ _ he' =>
        dsimp only at he'
        rw [he'] at h
        cases h
      | @first _ i' _ key' g' rest' _ _ _ _ he' =>
        dsimp only at he'
        subst he'
        simp only [Value.equalEntries, Bool.and_eq_true] at h
        have hsame : i = i' := beq_iff_eq.1 h.1.2
        subst hsame
        have hg : w.Knows (.object i (.placeholder g)) := hk.child List.mem_cons_self
        have hg' : w.Knows (.object i (.placeholder g')) := hk'.child List.mem_cons_self
        have hbody := Knows.object_unique hn hg hg'
        injection hbody with hnode
        rw [hnode]

/-- Of a value that may be either list the left one gives the first element. -/
theorem EitherOf.leads {a b v : Value} {first other : Option Node} (h : EitherOf w.old a b v)
    (hka : w.Knows a) (hkb : w.Knows b) (ha : Leads w a first) (hb : Leads w b other) :
    Leads w v first := by
  cases h with
  | union hn => exact .union hn ha hb
  | first hnil =>
    cases hb <;> cases hnil
  | same h =>
    suffices hfirst : first = other by
      rw [hfirst]
      exact hb
    cases a with
    | collection id items =>
      cases b with
      | collection id' items' => exact leads_of_equal h hka hkb ha hb
      | object id' body => cases h
      | _ => cases hb
    | object id body =>
      obtain ⟨body', rfl⟩ := equal_object h
      cases ha with
      | union hn ha₁ ha₂ =>
        obtain rfl := Knows.object_unique hn hka hkb
        exact leads_unique (.union hn ha₁ ha₂) hb
    | _ => cases ha

/-- The keys and values of a list: no entry has a key. -/
def withoutKeys (values : List Value) : List Value := values.flatMap fun v => [.nil, v]

/-- The collection of the values in order. -/
def pushList (c : Collection Value) (values : List Value) : Collection Value :=
  values.foldl (fun c v => c.push none v) c

theorem pushPairs_withoutKeys (c : Collection Value) (values : List Value) :
    pushPairs c (withoutKeys values) = .ok (pushList c values) := by
  induction values generalizing c with
  | nil => rfl
  | cons v rest ih => exact ih (c.push none v)

theorem repr_zero_ne (n : Nat) : Nat.repr 0 ≠ Nat.repr (n + 1) := by
  intro h
  have hlen : (Nat.repr (n + 1)).length ≤ 1 := h ▸ Nat.le_refl 1
  have hlt : n + 1 < 10 := (Nat.length_repr_le_iff Nat.one_pos).1 hlen
  have hsmall : ∀ k < 9, Nat.repr 0 ≠ Nat.repr (k + 1) := by decide
  exact hsmall n (by omega) h

/-- The entry under key zero stays the first one. -/
theorem entries_pushList {c : Collection Value} {v : Value} {rest : List (String × Value)}
    (h : c.entries = (Nat.repr 0, v) :: rest) (values : List Value) :
    ∃ rest', (pushList c values).entries = (Nat.repr 0, v) :: rest' := by
  induction values generalizing c rest with
  | nil => exact ⟨rest, h⟩
  | cons u values ih =>
    have hkey : Nat.repr 0 ≠ Nat.repr c.entries.length := by
      rw [h]
      exact repr_zero_ne rest.length
    have hpush : (c.push none u).entries =
        (Nat.repr 0, v) :: Assoc.insert (Nat.repr c.entries.length) u rest := by
      show Assoc.insert (Nat.repr c.entries.length) u c.entries = _
      rw [h, Assoc.insert, if_neg (h ▸ hkey)]
    exact ih hpush

/-- The node that the first of some values is a placeholder of. -/
inductive HeadLeads (old : Ident → Prop) : List Value → Option Node → Prop
  | nil : HeadLeads old [] none
  | cons {id : Ident} {g : Node} {rest : List Value} : ¬ old id →
    HeadLeads old (.object id (.placeholder g) :: rest) (some g)

theorem after_makeList {values : List Value} {first : Option Node} (hs : w.Separates)
    (h : w.FitsStore st) (hk : ∀ v ∈ values, w.Knows v) (hfirst : HeadLeads w.old values first) :
    AfterStore w (fun v w' => (w'.Knows v ∧ Leads w' v first) ∧ w'.dependents = w.dependents)
      (makeObject (withoutKeys values) st) := by
  have hpairs := pushPairs_withoutKeys .empty values
  have hvalues : ∀ v ∈ (pushList .empty values).values, w.Knows v := by
    intro v hv
    rcases mem_values_pushPairs hpairs hv with hv | hv
    · obtain ⟨u, hu, hv⟩ := List.mem_flatMap.1 hv
      rcases List.mem_cons.1 hv with rfl | hv
      · exact knows_nil w
      · exact List.mem_singleton.1 hv ▸ hk u hu
    · cases hv
  have hle := w.le_extend (listMark first)
  have hlt : w.next < (w.extend (listMark first)).next := Nat.lt_succ_self _
  have hbody : (w.extend (listMark first)).body w.next = listMark first := if_pos rfl
  unfold makeObject
  rw [hpairs]
  refine ⟨w.extend (listMark first), hle, h.extend _, ⟨?_, ?_⟩, rfl⟩
  · exact knows_made trivial (fun _ _ e => by cases e) fun v hv => hle.knows (hvalues v hv)
  · show Leads _ (.collection st.nextIdent (pushList .empty values)) first
    rw [h.next]
    cases hfirst with
    | nil => exact .empty hs.next hlt hbody rfl
    | @cons id g rest hn =>
      obtain ⟨entries, he⟩ := entries_pushList
        (c := Collection.push .empty none (.object id (.placeholder g))) rfl rest
      exact .first hs.next hlt hbody hn he

/-- What an iteration yields next is a placeholder of the node, or no node. -/
def Yields (old : Ident → Prop) (it : Iteration) (first : Option Node) : Prop :=
  ∃ key v, it.next.1 = some (key, v) ∧ Pictures old key ∅ ∧ Pictures old v {g | first = some g}

theorem yields_standIn (old : Ident → Prop) : Yields old .standIn none := by
  have hempty : {g : Node | (none : Option Node) = some g} = ∅ :=
    Set.eq_empty_of_forall_notMem fun _ e => by cases e
  refine ⟨.int 0, .nil, rfl, ?_, hempty ▸ pictures_nil old⟩
  exact .scalar (fun _ _ e => by cases e) fun _ _ e => by cases e

theorem pictures_scriptKey (old : Ident → Prop) (items : Collection Value) (index : Nat) :
    Pictures old (items.scriptKey index) ∅ := by
  unfold Collection.scriptKey
  by_cases h : items.isList = true
  · rw [if_pos h]
    exact .scalar (fun _ _ e => by cases e) fun _ _ e => by cases e
  · rw [if_neg h]
    cases items.nthKey? index with
    | some key => exact .scalar (fun _ _ e => by cases e) fun _ _ e => by cases e
    | none => exact pictures_nil old

theorem yields_ofCollection {items : Collection Value} {key : String} {id : Ident} {g : Node}
    {rest : List (String × Value)} (hn : ¬ old id)
    (he : items.entries = (key, .object id (.placeholder g)) :: rest) :
    Yields old (.ofCollection items) (some g) := by
  have hnth : items.nth? 0 = some (.object id (.placeholder g)) := by
    unfold Collection.nth?
    rw [he]
    rfl
  have hset : {n | some g = some n} = ({g} : Set Node) := by
    ext n
    exact ⟨fun e => (Option.some.inj e).symm, fun e => congrArg some (Eq.symm e)⟩
  refine ⟨items.scriptKey 0, .object id (.placeholder g), ?_, pictures_scriptKey old items 0, ?_⟩
  · simp only [Iteration.ofCollection, Iteration.next, hnth]
  · rw [hset]
    exact .placeholder hn

theorem newIterator_eq (it : Iteration) (st : Store) :
    ∃ handle st', Store.newIterator it st = (.iterator handle, st') ∧
      st'.dependents = st.dependents ∧ (∃ more, st'.iterations = st.iterations ++ more) ∧
      st'.iterations[handle]? = some it :=
  ⟨_, _, rfl, rfl, ⟨#[it], Array.push_eq_append⟩, Array.getElem?_push_size⟩

/-- The iterator of lists begins with the first element; no list of dependents is touched, and the
iterations that there were are as before. -/
theorem iteratorInPass_leads {v : Value} {first : Option Node} (h : Leads w v first)
    (dep : Dependency) (st : Store) :
    ∃ handle st', v.iteratorInPass dep st = (.iterator handle, st') ∧
      st'.dependents = st.dependents ∧ (∃ more, st'.iterations = st.iterations ++ more) ∧
      ∃ it, st'.iterations[handle]? = some it ∧ Yields w.old it first := by
  induction h generalizing st with
  | @empty id items _ _ _ he =>
    obtain ⟨handle, st', hrun, hd, hmore, hit⟩ := newIterator_eq .standIn st
    refine ⟨handle, st', ?_, hd, hmore, _, hit, yields_standIn _⟩
    rw [← hrun]
    unfold Value.iteratorInPass Collection.isEmpty
    rw [he]
    rfl
  | @first id id' items key g rest _ _ _ hn he =>
    obtain ⟨handle, st', hrun, hd, hmore, hit⟩ := newIterator_eq (.ofCollection items) st
    refine ⟨handle, st', ?_, hd, hmore, _, hit, yields_ofCollection hn he⟩
    rw [← hrun]
    unfold Value.iteratorInPass Collection.isEmpty
    rw [he]
    rfl
  | @union id a b first other _ _ _ iha ihb =>
    obtain ⟨handle, st₁, ha, hd₁, ⟨more₁, hm₁⟩, it, hit, hy⟩ := iha st
    obtain ⟨handle', st₂, hb, hd₂, ⟨more₂, hm₂⟩, -⟩ := ihb st₁
    refine ⟨handle, st₂, ?_, hd₂.trans hd₁, ⟨more₁ ++ more₂, ?_⟩, it, ?_, hy⟩
    · show (a.iteratorInPass dep >>= fun x => b.iteratorInPass dep >>= fun _ => pure x) st = _
      show ((a.iteratorInPass dep st).1,
        (b.iteratorInPass dep (a.iteratorInPass dep st).2).2) = _
      rw [ha, hb]
    · rw [hm₂, hm₁, Array.append_assoc]
    · rw [hm₂]
      have hlt : handle < st₁.iterations.size := (Array.getElem?_eq_some_iff.1 hit).1
      rw [Array.getElem?_append_left hlt, hit]

end World

/-! ## Sketches -/

/-- What is known of an operand: nothing, the nodes it may be, or the first element of a list. -/
inductive Sketch
  | any
  | nodes (set : Set Node)
  | list (first : Option Node)

namespace Sketch

/-- The sketch of a value that may be either of two. -/
def join : Sketch → Sketch → Sketch
  | nodes set, nodes other => nodes (set ∪ other)
  | list first, list _ => list first
  | _, _ => any

theorem join_self (d : Sketch) : d.join d = d := by
  cases d with
  | any => rfl
  | nodes set => exact congrArg nodes (Set.union_self set)
  | list first => rfl

theorem join_right_comm (a b c : Sketch) : (a.join b).join c = (a.join c).join b := by
  cases a <;> cases b <;> cases c <;> first | rfl | exact congrArg nodes (Set.union_right_comm _ _ _)

/-- The sketch of what a binary operator gives in a pass. -/
def operated (op : BinaryOp) (d e : Sketch) : Sketch :=
  match op with
  | .add | .orElse => d.join e
  | _ => nodes ∅

end Sketch

namespace World

variable {w : World} {st : Store}

/-- The value is as the sketch says. -/
def Shows (w : World) : Sketch → Value → Prop
  | .any, _ => True
  | .nodes set, v => Pictures w.old v set
  | .list first, v => Leads w v first

theorem Le.shows {w' : World} (hle : w.Le w') {d : Sketch} {v : Value} (h : w.Shows d v) :
    w'.Shows d v := by
  cases d with
  | any => trivial
  | nodes set =>
    show Pictures w'.old v set
    rw [hle.old]
    exact h
  | list first => exact hle.leads h

theorem EitherOf.shows {a b v : Value} {d e : Sketch} (h : EitherOf w.old a b v) (hka : w.Knows a)
    (hkb : w.Knows b) (ha : w.Shows d a) (hb : w.Shows e b) : w.Shows (d.join e) v := by
  cases d with
  | any => trivial
  | nodes set =>
    cases e with
    | nodes other => exact h.pictures hka hkb ha hb
    | any | list _ => trivial
  | list first =>
    cases e with
    | list other => exact h.leads hka hkb ha hb
    | any | nodes _ => trivial

/-- A function shows no node. -/
theorem shows_callable {v u : Value} {d e : Sketch} {id : Ident} (hv : v.isCallable = true)
    (hu : u.isCallable = true) (hd : w.Shows d v) (he : w.Shows e u) :
    w.Shows (d.join e) (.composition id v u) := by
  have hnone : ∀ {x : Value} {set : Set Node}, x.isCallable = true → Pictures w.old x set →
      set = ∅ := by
    intro x set hx hp
    refine hp.unique (.scalar (fun id body e => ?_) fun id items e => ?_) <;> rw [e] at hx <;> cases hx
  cases d with
  | any => trivial
  | nodes set =>
    cases e with
    | any | list _ => trivial
    | nodes other =>
      rw [hnone hv hd, hnone hu he]
      show Pictures w.old _ (∅ ∪ ∅)
      rw [Set.union_self]
      exact .scalar (fun _ _ e => by cases e) fun _ _ e => by cases e
  | list first => cases hd <;> cases hv

/-- What an operator gives in a pass, the reading of members apart. -/
theorem after_operator (h : w.FitsStore st) (hs : w.Separates) {op : BinaryOp}
    (hop : op ≠ .member) {a b : Value} (hka : w.Knows a) (hkb : w.Knows b) {d e : Sketch}
    (ha : w.Shows d a) (hb : w.Shows e b) (dep : Dependency) :
    AfterStore w (fun v w' => w'.Knows v ∧ w'.Shows (Sketch.operated op d e) v)
      (a.binaryInPass op b dep st) := by
  have heither : AfterStore w (fun v w' => w'.Knows v ∧ w'.Shows (d.join e) v)
      (either a b st) :=
    (after_either h hka hkb).mono fun v w' hle hv =>
      ⟨hv.1, hle.shows ((hv.2 hs).shows hka hkb ha hb)⟩
  cases op with
  | member => exact absurd rfl hop
  | orElse => exact heither
  | add =>
    unfold Value.binaryInPass
    by_cases hc : (a.isCallable && b.isCallable) = true
    · simp only [if_pos hc]
      obtain ⟨w', hle, hfit, hv⟩ := after_add h hka hkb hc
      refine ⟨w', hle, hfit, hv, hle.shows ?_⟩
      rw [Bool.and_eq_true] at hc
      have hcomposed : (Operator.binary .add a b st).1 = .composition st.nextIdent a b := by
        cases a <;> cases hc.1 <;> cases b <;> cases hc.2 <;> rfl
      rw [hcomposed]
      exact shows_callable hc.1 hc.2 ha hb
    · simp only [if_neg hc]
      exact heither
  | iteratorR =>
    have hscalar : ∀ w' : World, ∀ handle, w'.Shows (.nodes ∅) (.iterator handle) :=
      fun w' handle => pictures_iterator w'.old handle
    refine (after_range h a b).bind fun v w₁ st₁ _ h₁ hv => ?_
    cases v with
    | iterator handle => exact afterStore_pure h₁ ⟨hv, hscalar w₁ handle⟩
    | _ =>
      obtain ⟨w₂, hle₂, h₂, hv₂⟩ := after_newStandIn h₁
      exact ⟨w₂, hle₂, h₂, hv₂, hscalar w₂ _⟩
  | _ => exact afterStore_pure h ⟨knows_nil w, pictures_nil w.old⟩

theorem quiet_operator {op : BinaryOp} (hop : op ≠ .member) (a b : Value) (dep : Dependency) :
    Quiet (a.binaryInPass op b dep) := by
  cases op with
  | member => exact absurd rfl hop
  | orElse => exact quiet_either a b
  | add =>
    unfold Value.binaryInPass
    by_cases hc : (a.isCallable && b.isCallable) = true
    · simp only [if_pos hc]
      rw [Bool.and_eq_true] at hc
      cases a <;> cases hc.1 <;> cases b <;> cases hc.2 <;> exact fun _ => rfl
    · simp only [if_neg hc]
      exact quiet_either a b
  | iteratorR =>
    refine Quiet.bind ?_ fun v => ?_
    · rcases binary_range a b with ⟨e, he⟩ | he
      · rw [he]
        exact quiet_pure _
      · rw [he]
        unfold Operator.range
        rcases Operator.rangeEnd a with e | first
        · exact quiet_pure _
        · rcases Operator.rangeEnd b with e | last
          · exact quiet_pure _
          · exact fun _ => rfl
    · cases v <;> exact fun _ => rfl
  | _ => exact quiet_pure _

end World

end ReactiveScript
