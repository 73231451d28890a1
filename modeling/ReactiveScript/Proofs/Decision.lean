import ReactiveScript.Proofs.Round
import ReactiveScript.Proofs.TermRun

/-
  Scripts that decide by the card.

  A decision chooses between constants by members of `card` and of `card style`. What its script gives
  in a machine that shows a card is what the decision picks on that card (`Computed.gives_decision`),
  and that depends only on the members it reads (`Decision.pick_congr`). So if the owners of these
  members list who decides by them, the script is pure, and it always comes back: cards whose scripts
  are decisions meet what is asked of a session (`Setup.Decided`).
-/

namespace ReactiveScript

/-! ## Collections filled alike -/

namespace Collection

variable {α β : Type}

/-- Entries with the same keys, and with related values under one of them. -/
structure Alike (R : α → β → Prop) (key : String) (es : List (Option String × α))
    (es' : List (Option String × β)) : Prop where
  length : es'.length = es.length
  entry : ∀ ⦃i : Nat⦄ ⦃e : Option String × α⦄ ⦃e' : Option String × β⦄, es[i]? = some e →
    es'[i]? = some e' →
      ∃ name, e.1 = some name ∧ e'.1 = some name ∧ (name = key → R e.2 e'.2)

variable {R : α → β → Prop} {key : String} {es : List (Option String × α)}
  {es' : List (Option String × β)}

/-- Collections filled alike have related values under the key. -/
theorem Alike.get?_pushAll (h : Alike R key es es') {c : Collection α} {c' : Collection β}
    (hc : Option.Rel R (c.get? key) (c'.get? key)) :
    Option.Rel R ((c.pushAll es).get? key) ((c'.pushAll es').get? key) := by
  induction es generalizing es' c c' with
  | nil =>
    obtain rfl := List.length_eq_zero_iff.1 h.length
    exact hc
  | cons e rest ih =>
    obtain ⟨e', rest', rfl⟩ := List.exists_cons_of_length_eq_add_one h.length
    have hpush : Option.Rel R ((c.push e.1 e.2).get? key) ((c'.push e'.1 e'.2).get? key) := by
      obtain ⟨name, hname, hname', hvalue⟩ := h.entry (i := 0) rfl rfl
      rw [hname, hname']
      show Option.Rel R (Assoc.find? key (Assoc.insert name e.2 c.entries))
        (Assoc.find? key (Assoc.insert name e'.2 c'.entries))
      rw [Assoc.find?_insert, Assoc.find?_insert]
      by_cases hkey : name = key
      · rw [if_pos hkey, if_pos hkey]
        exact .some (hvalue hkey)
      · rw [if_neg hkey, if_neg hkey]
        exact hc
    exact ih ⟨Nat.succ.inj h.length, fun i _ _ he he' => h.entry (i := i + 1) he he'⟩ hpush

theorem Alike.get?_ofEntries (h : Alike R key es es') :
    Option.Rel R ((ofEntries es).get? key) ((ofEntries es').get? key) := h.get?_pushAll .none

end Collection

theorem Value.member_collection {id : Ident} {items : Collection Value} {name : String} {v : Value}
    (h : items.get? name = some v) : (Value.collection id items).member (.string name) = v := by
  show (items.lookup? name).getD _ = v
  unfold Collection.lookup?
  rw [h]
  rfl

/-- The entries of a style as scripts see it. -/
def Style.items (s : Style) : Collection Value :=
  .ofEntries ((s.properties.map fun p => (some p.name, p.value)) ++ s.contentEntries)

theorem Style.get?_items (s : Style) (p : Property) :
    s.items.get? p.name = some (HostValue.toValue (Property.get s p).value) := by
  unfold items contentEntries
  cases s.content <;> cases p <;> rfl

/-! ## Members of the card -/

/-- What scripts see of a card: a field, or a property of a style. -/
inductive View
  | field (name : String)
  | property (style : String) (p : Property)

namespace View

/-- The value that is seen. -/
def value? (t : Template) : View → Option Value
  | .field name =>
    (Collection.ofEntries (t.fields.map fun c => (some c.field.name, c.field.value))).get? name
  | .property style p =>
    (Collection.ofEntries (t.styles.map fun c =>
      (some c.style.name, HostValue.toValue (Property.get c.style p).value))).get? style

/-- The term that reads it, given the variables of `card` and `card style`. -/
def term (x y : Variable) : View → Term
  | .field name => .member (.var x) (.string name)
  | .property style p => .member (.member (.var y) (.string style)) (.string p.name)

/-- What is seen on two cards of one shape is related. -/
def Each (R : Value → Value → Prop) (t t' : Template) : View → Prop
  | .field name => ∀ ⦃j : Nat⦄ ⦃c c' : FieldCell⦄, t.fields[j]? = some c → t'.fields[j]? = some c' →
      c.field.name = name → R c.field.value c'.field.value
  | .property style p => ∀ ⦃j : Nat⦄ ⦃s s' : Style⦄, t.styleAt? j = some s →
      t'.styleAt? j = some s' → s.name = style →
        R (HostValue.toValue (Property.get s p).value) (HostValue.toValue (Property.get s' p).value)

variable {t t' : Template} {m : Machine} {x y : Variable}

theorem value?_rel {R : Value → Value → Prop} (hshape : t.SameShape t') {view : View}
    (h : view.Each R t t') : Option.Rel R (view.value? t) (view.value? t') := by
  cases view with
  | field name =>
    refine Collection.Alike.get?_ofEntries ⟨by simp [hshape.length_fields], fun i e e' he he' => ?_⟩
    rw [List.getElem?_map] at he he'
    obtain ⟨c, hc, rfl⟩ := Option.map_eq_some_iff.1 he
    obtain ⟨c', hc', rfl⟩ := Option.map_eq_some_iff.1 he'
    obtain ⟨c₀, hc₀, hsame⟩ := hshape.field hc'
    cases hc.symm.trans hc₀
    have hname : c'.field.name = c.field.name := congrArg Prod.fst hsame
    exact ⟨c.field.name, rfl, congrArg some hname, h hc hc'⟩
  | property style p =>
    refine Collection.Alike.get?_ofEntries ⟨by simp [hshape.length_styles], fun i e e' he he' => ?_⟩
    rw [List.getElem?_map] at he he'
    obtain ⟨c, hc, rfl⟩ := Option.map_eq_some_iff.1 he
    obtain ⟨c', hc', rfl⟩ := Option.map_eq_some_iff.1 he'
    have hs := Template.styleAt?_eq_some.2 ⟨c, hc, rfl⟩
    have hs' := Template.styleAt?_eq_some.2 ⟨c', hc', rfl⟩
    obtain ⟨s₀, hs₀, hsame⟩ := hshape.style hs'
    cases hs.symm.trans hs₀
    have hname : c'.style.name = c.style.name := congrArg Prod.fst hsame
    exact ⟨c.style.name, rfl, congrArg some hname, h hs hs'⟩

/-- The entries under which scripts see the styles hold their properties. -/
theorem alike_styles (styles : List StyleCell) (style : String) (p : Property) (st : Store) :
    Collection.Alike (fun seen v : Value => ∃ id items, seen = .collection id items ∧
        items.get? p.name = some v) style
      ((styles.mapM fun c => do return (some c.style.name, ← c.style.toValue) :
        StateM Store (List (Option String × Value))) st).1
      (styles.map fun c => (some c.style.name, HostValue.toValue (Property.get c.style p).value)) := by
  induction styles generalizing st with
  | nil => exact ⟨rfl, fun _ _ _ he _ => by cases he⟩
  | cons c rest ih =>
    have hrest := ih (c.style.toValue st).2
    rw [List.mapM_cons]
    refine ⟨congrArg (· + 1) hrest.length, fun i e e' he he' => ?_⟩
    cases i with
    | zero =>
      cases he
      cases he'
      exact ⟨c.style.name, rfl, rfl, fun _ => ⟨_, _, rfl, c.style.get?_items p⟩⟩
    | succ i => exact hrest.entry he he'

/-- Reading what is seen changes nothing. -/
theorem evaluate_term {view : View} {v : Value} (hshown : t.Shown m)
    (hx : m.store.names.find? "card" = some x) (hy : m.store.names.find? "card style" = some y)
    (hv : view.value? t = some v) (st : Store) :
    (view.term x y).evaluate m.context.env.get? st = (.ok v, st) := by
  obtain ⟨⟨st₁, x', hx', hcard⟩, st₂, y', hy', hstyles⟩ := hshown
  cases hx.symm.trans hx'
  cases hy.symm.trans hy'
  cases view with
  | field name =>
    simp only [term, Term.evaluate, hcard]
    exact congrArg (fun u => (Except.ok u, st)) (Value.member_collection hv)
  | property style p =>
    simp only [term, Term.evaluate, hstyles]
    -- The style seen under the name has the property that is seen.
    have hrel := (alike_styles t.styles style p st₂).get?_ofEntries
    rw [show (Collection.ofEntries (t.styles.map fun c =>
      (some c.style.name, HostValue.toValue (Property.get c.style p).value))).get? style = some v
      from hv] at hrel
    generalize hseen : Collection.get? _ style = seen at hrel
    cases hrel with
    | some hstyle =>
      obtain ⟨id, items, rfl, hitem⟩ := hstyle
      exact congrArg (fun u => (Except.ok u, st))
        ((congrArg (fun u => Value.member u _) (Value.member_collection hseen)).trans
          (Value.member_collection hitem))

end View

/-! ## Decisions -/

/-- A choice between constants by members of the card. -/
inductive Decision
  | leaf (v : Value)
  | test (view : View) (yes no : Decision)

namespace Decision

/-- The members that are read. -/
def views : Decision → List View
  | .leaf _ => []
  | .test view yes no => view :: (yes.views ++ no.views)

/-- The constants. -/
def leaves : Decision → List Value
  | .leaf v => [v]
  | .test _ yes no => yes.leaves ++ no.leaves

/-- The term of a decision, given the variables of `card` and `card style`. -/
def term (x y : Variable) : Decision → Term
  | .leaf v => .const v
  | .test view yes no => .ite (view.term x y) (yes.term x y) (no.term x y)

/-- The script of a decision. -/
def script (ident : Ident) (x y : Variable) (d : Decision) : Script Value :=
  ⟨ident, (d.term x y).assemble.code, (d.term x y).assemble.constants⟩

/-- What is chosen on a card. -/
def pick (t : Template) : Decision → Except EvalError Value
  | .leaf v => .ok v
  | .test view yes no => do
    if ← ((view.value? t).getD .nil).toBool then yes.pick t else no.pick t

/-- What the script of a decision returns on a card. -/
def result (t : Template) (d : Decision) : Except EvalError Value := (d.pick t).bind Value.force

/-- The host value that is computed on a card, unless the decision fails. -/
def given (α : Type) [HostValue α] (d : Decision) (t : Template) : Option α :=
  ((d.result t).bind HostValue.ofValue).toOption

/-- Every result equals itself. -/
def SelfEqual (α : Type) [HostValue α] (d : Decision) : Prop :=
  ∀ v ∈ d.leaves, ∀ x : α, HostValue.ofValue v = .ok x → HostValue.same x x = true

variable {t t' : Template} {m : Machine} {x y : Variable} {d : Decision}

/-- Evaluating a decision changes nothing. -/
theorem evaluate_term (hshown : t.Shown m) (hx : m.store.names.find? "card" = some x)
    (hy : m.store.names.find? "card style" = some y)
    (hviews : ∀ view ∈ d.views, (view.value? t).isSome) (st : Store) :
    (d.term x y).evaluate m.context.env.get? st = (d.pick t, st) := by
  induction d with
  | leaf v => rfl
  | test view yes no ihyes ihno =>
    obtain ⟨hview, hrest⟩ := List.forall_mem_cons.1 hviews
    obtain ⟨v, hv⟩ := Option.isSome_iff_exists.1 hview
    have hyes := ihyes fun view hmem => hrest view (List.mem_append_left _ hmem)
    have hno := ihno fun view hmem => hrest view (List.mem_append_right _ hmem)
    rw [term, Term.evaluate, Calculation.run_bind, view.evaluate_term hshown hx hy hv st, pick, hv]
    unfold Calculation.choose
    dsimp only [Option.getD]
    cases v.toBool with
    | error e => rfl
    | ok b =>
      cases b with
      | true => exact hyes
      | false => exact hno

/-- Only the members that are read count. -/
theorem pick_congr (h : ∀ view ∈ d.views, view.value? t' = view.value? t) :
    d.pick t' = d.pick t := by
  induction d with
  | leaf v => rfl
  | test view yes no ihyes ihno =>
    obtain ⟨hview, hrest⟩ := List.forall_mem_cons.1 h
    rw [pick, pick, hview, ihyes fun view hmem => hrest view (List.mem_append_left _ hmem),
      ihno fun view hmem => hrest view (List.mem_append_right _ hmem)]

/-- What is chosen is one of the constants. -/
theorem mem_leaves {v : Value} (h : d.pick t = .ok v) : v ∈ d.leaves := by
  induction d with
  | leaf u =>
    cases h
    exact List.mem_singleton_self _
  | test view yes no ihyes ihno =>
    rw [pick] at h
    cases hbool : ((view.value? t).getD .nil).toBool with
    | error e =>
      rw [hbool] at h
      cases h
    | ok b =>
      rw [hbool] at h
      cases b with
      | true => exact List.mem_append_left _ (ihyes h)
      | false => exact List.mem_append_right _ (ihno h)

/-- What is computed is one of the constants, converted. -/
theorem exists_leaf {α : Type} [HostValue α] {r : α} (h : d.given α t = some r) :
    ∃ v ∈ d.leaves, HostValue.ofValue v = .ok r := by
  unfold given result at h
  cases hpick : d.pick t with
  | error e =>
    rw [hpick] at h
    cases h
  | ok v =>
    refine ⟨v, mem_leaves hpick, ?_⟩
    rw [hpick] at h
    dsimp only [Except.bind] at h
    cases hforce : v.force with
    | error e =>
      rw [hforce] at h
      cases h
    | ok u =>
      obtain rfl : u = v := by cases v <;> cases hforce <;> rfl
      rw [hforce] at h
      dsimp only at h
      cases hr : (HostValue.ofValue u : Except EvalError α) with
      | error e =>
        rw [hr] at h
        cases h
      | ok x =>
        rw [hr] at h
        cases h
        rfl

theorem SelfEqual.same {α : Type} [HostValue α] (h : d.SelfEqual α) {r : α}
    (hr : d.given α t = some r) : HostValue.same r r = true := by
  obtain ⟨v, hmem, hv⟩ := exists_leaf hr
  exact h v hmem r hv

theorem result_term (hshown : t.Shown m) (hx : m.store.names.find? "card" = some x)
    (hy : m.store.names.find? "card style" = some y)
    (hviews : ∀ view ∈ d.views, (view.value? t).isSome) (st : Store) :
    (d.term x y).result m.context.env.get? st = (d.result t, st) := by
  unfold Term.result result
  rw [Calculation.run_bind, d.evaluate_term hshown hx hy hviews st]
  cases d.pick t with
  | error e => rfl
  | ok v =>
    dsimp only [Except.bind]
    cases v.force <;> rfl

end Decision

/-- What the script of a decision gives in a machine that shows a card. -/
theorem Computed.gives_decision {α : Type} [HostValue α] {budget : Nat} {p : Computed α}
    {s : Script Value} {t : Template} {m : Machine} {x y : Variable} {d : Decision}
    (hs : p.script = some s) {st st' : Store} {b : Builder}
    (hbuild : (d.term x y).assemble.build st = ((.ok s, b), st'))
    (hbudget : (d.term x y).size < budget) (hshown : t.Shown m)
    (hx : m.store.names.find? "card" = some x) (hy : m.store.names.find? "card style" = some y)
    (hviews : ∀ view ∈ d.views, (view.value? t).isSome) : p.gives budget m = d.given α t := by
  obtain ⟨hcode, hconst⟩ := Term.built_eq hbuild
  unfold gives evaluate Decision.given
  rw [hs]
  dsimp only
  rw [Run.run_bind, Run.eval_term (Script.hasCode_of_ops hcode)
    (Script.hasConstants_of_toList hconst) hbudget, d.result_term hshown hx hy hviews]
  cases d.result t with
  | error e => rfl
  | ok v =>
    dsimp only [Except.mapError, Except.bind]
    rw [Run.run_ofExcept]
    cases (HostValue.ofValue v : Except EvalError α) <;> rfl

/-! ## Cards whose scripts are decisions -/

namespace Setup

/-- The member is there, and its owners list who depends on it. -/
def Lists (w : Setup) (dep : Dependency) (view : View) : Prop :=
  (view.value? w.card).isSome = true ∧
    match view with
    | .field name => ∀ c ∈ w.card.fields, c.field.name = name →
        dep ∈ w.lists[c.field.dependents]?.getD []
    | .property style _ => ∀ c ∈ w.card.styles, c.style.name = style →
        dep ∈ w.lists[c.style.dependents]?.getD []

/-- The script is that of a decision, for which the budget is enough. -/
structure Decides (w : Setup) (x y : Variable) (dep : Dependency) (s : Script Value)
    (d : Decision) : Prop where
  built : ∃ st b st', (d.term x y).assemble.build st = ((.ok s, b), st')
  size : (d.term x y).size < w.budget
  lists : ∀ view ∈ d.views, w.Lists dep view

/-- All scripts of the card are those of decisions. -/
structure Decided (w : Setup) (x y : Variable) : Prop where
  card : w.machine.store.names.find? "card" = some x
  styles : w.machine.store.names.find? "card style" = some y
  field : ∀ ⦃i : Nat⦄ ⦃c : FieldCell⦄ ⦃s : Script Value⦄, w.card.fields[i]? = some c →
    c.field.content.script = some s → ∃ d, w.Decides x y ⟨.cardField, i⟩ s d ∧ d.SelfEqual Value
  property : ∀ ⦃i : Nat⦄ ⦃st : Style⦄ ⦃p : Property⦄ ⦃s : Script Value⦄,
    w.card.styleAt? i = some st → (Property.get st p).script = some s →
      ∃ d, w.Decides x y ⟨.style, i⟩ s d ∧ d.SelfEqual p.Carrier

variable {w : Setup} {x y : Variable} {t t' : Template} {m m' : Machine} {dep : Dependency}
  {s : Script Value} {d : Decision}

/-- What is there stays there. -/
theorem Lists.isSome {view : View} (h : w.Lists dep view) (hsession : w.Session t m) :
    (view.value? t).isSome = true := by
  have hrel : Option.Rel (fun _ _ => True) (view.value? w.card) (view.value? t) := by
    refine View.value?_rel hsession.sameShape ?_
    cases view
    · exact fun _ _ _ _ _ _ => trivial
    · exact fun _ _ _ _ _ _ => trivial
  obtain ⟨v, hv⟩ := Option.isSome_iff_exists.1 h.1
  rw [hv] at hrel
  generalize view.value? t = seen at hrel
  cases hrel
  rfl

/-- Cards that agree in what lists a dependency look the same to it. -/
theorem Lists.value?_eq {view : View} {content : Bool} (h : w.Lists dep view)
    (hsession : w.Session t m) (hsession' : w.Session t' m')
    (hagree : t.Agree w.lists dep content t') : view.value? t' = view.value? t := by
  have hrel : Option.Rel (fun v v' => v' = v) (view.value? t) (view.value? t') := by
    refine View.value?_rel (hsession.sameShape.symm.trans hsession'.sameShape) ?_
    cases view with
    | field name =>
      intro j c c' hc hc' hname
      obtain ⟨c₀, hc₀, hsame⟩ := hsession.sameShape.field hc
      have hmem := h.2 c₀ (List.mem_of_getElem? hc₀) ((congrArg Prod.fst hsame).symm.trans hname)
      have hdependents : c.field.dependents = c₀.field.dependents := congrArg (fun x => x.2.2) hsame
      rw [← hdependents] at hmem
      exact hagree.fields hc hc' hmem
    | property style p =>
      intro j s s' hs hs' hname
      obtain ⟨s₀, hs₀, hsame⟩ := hsession.sameShape.style hs
      obtain ⟨c₀, hc₀, rfl⟩ := Template.styleAt?_eq_some.1 hs₀
      have hmem := h.2 c₀ (List.mem_of_getElem? hc₀) ((congrArg Prod.fst hsame).symm.trans hname)
      have hdependents : s.dependents = c₀.style.dependents := congrArg (fun x => x.2.1) hsame
      rw [← hdependents] at hmem
      rw [(hagree.styles hs hs' hmem).1 p]
  generalize view.value? t = seen at hrel ⊢
  generalize view.value? t' = seen' at hrel ⊢
  cases hrel with
  | some h => exact congrArg some h
  | none => rfl

/-- What the script gives in a machine of the session. -/
theorem Decides.gives_eq {α : Type} [HostValue α] {p : Computed α} (h : w.Decides x y dep s d)
    (hdecided : w.Decided x y) (hs : p.script = some s) (hsession : w.Session t m)
    (hshown : t.Shown m) : p.gives w.budget m = d.given α t := by
  obtain ⟨st, b, st', hbuild⟩ := h.built
  exact p.gives_decision hs hbuild h.size hshown (hsession.later.names hdecided.card)
    (hsession.later.names hdecided.styles) fun view hview => (h.lists view hview).isSome hsession

/-- What the script gives depends only on what lists the dependency. -/
theorem Decides.repeats {α : Type} [HostValue α] {p p' : Computed α} {content : Bool}
    (h : w.Decides x y dep s d) (hself : d.SelfEqual α) (hdecided : w.Decided x y)
    (hs : p.script = some s) (hs' : p'.script = some s) (hsession : w.Session t m)
    (hsession' : w.Session t' m') (hshown : t.Shown m) (hshown' : t'.Shown m')
    (hagree : t.Agree w.lists dep content t') :
    Repeats p.value p'.value (p.gives w.budget m) (p'.gives w.budget m') := by
  have hpick : d.pick t' = d.pick t := Decision.pick_congr fun view hview =>
    (h.lists view hview).value?_eq hsession hsession' hagree
  have hgiven : d.given α t' = d.given α t := by
    unfold Decision.given Decision.result
    rw [hpick]
  rw [h.gives_eq hdecided hs hsession hshown, h.gives_eq hdecided hs' hsession' hshown', hgiven]
  cases hr : d.given α t with
  | none => trivial
  | some r => exact repeats_self (hself.same hr)

namespace Decided

theorem pureField (h : w.Decided x y) (i : Nat) : w.PureField i := by
  intro t t' m m' c c' hsession hsession' hshown hshown' hc hc' _ _ hagree
  obtain ⟨c₀, hc₀, hsame⟩ := hsession.sameShape.field hc
  obtain ⟨c₁, hc₁, hsame'⟩ := hsession'.sameShape.field hc'
  cases hc₀.symm.trans hc₁
  have hscript : c.field.content.script = c₀.field.content.script := congrArg (fun x => x.2.1) hsame
  have hscript' : c'.field.content.script = c₀.field.content.script :=
    congrArg (fun x => x.2.1) hsame'
  cases hs : c₀.field.content.script with
  | none =>
    rw [Computed.gives_of_unscripted (hscript.trans hs),
      Computed.gives_of_unscripted (hscript'.trans hs)]
    trivial
  | some s =>
    obtain ⟨d, hd, hself⟩ := h.field hc₀ hs
    exact hd.repeats hself h (hscript.trans hs) (hscript'.trans hs) hsession hsession' hshown hshown'
      hagree

theorem pureProperty (h : w.Decided x y) (i : Nat) (p : Property) : w.PureProperty i p := by
  intro t t' m m' s₁ s₂ hsession hsession' hshown hshown' hs₁ hs₂ hagree
  obtain ⟨s₀, hs₀, hsame⟩ := hsession.sameShape.style hs₁
  obtain ⟨s₀', hs₀', hsame'⟩ := hsession'.sameShape.style hs₂
  cases hs₀.symm.trans hs₀'
  have hscript : (Property.get s₁ p).script = (Property.get s₀ p).script :=
    congrArg (fun x => (x.2.2 p).1) hsame
  have hscript' : (Property.get s₂ p).script = (Property.get s₀ p).script :=
    congrArg (fun x => (x.2.2 p).1) hsame'
  cases hs : (Property.get s₀ p).script with
  | none =>
    rw [Computed.gives_of_unscripted (hscript.trans hs),
      Computed.gives_of_unscripted (hscript'.trans hs)]
    trivial
  | some s =>
    obtain ⟨d, hd, hself⟩ := h.property hs₀ hs
    exact hd.repeats hself h (hscript.trans hs) (hscript'.trans hs) hsession hsession' hshown hshown'
      hagree

/-- The script of a decision comes back in any machine. -/
theorem returns (h : w.Decided x y) : w.Returns := by
  have hreturned : ∀ {dep s d} (m : Machine), w.Decides x y dep s d →
      Run.Returned (Run.eval w.budget s true m).1 := by
    intro dep s d m hd
    obtain ⟨st, b, st', hbuild⟩ := hd.built
    obtain ⟨hcode, hconst⟩ := Term.built_eq hbuild
    rw [Run.eval_term (Script.hasCode_of_ops hcode) (Script.hasConstants_of_toList hconst) hd.size]
    generalize (d.term x y).result m.context.env.get? m.store = out
    rcases out with ⟨e | v, st⟩
    · exact Run.returned_error e
    · exact Run.returned_ok v
  rintro t m s hsession (⟨c, hc, hs⟩ | ⟨-, c, hc, p, hs⟩)
  · obtain ⟨i, hi⟩ := List.mem_iff_getElem?.1 hc
    obtain ⟨d, hd, -⟩ := h.field hi hs
    exact hreturned m hd
  · obtain ⟨i, hi⟩ := List.mem_iff_getElem?.1 hc
    obtain ⟨d, hd, -⟩ := h.property (Template.styleAt?_eq_some.2 ⟨c, hi, rfl⟩) hs
    exact hreturned m hd

end Decided

end Setup

/-- A machine in which `card` and `card style` are the first names, with empty lists of dependents for
some owners. -/
def Machine.forCard (owners : Nat) : Machine :=
  ⟨.ofSettings ⟨10, false, 0⟩, { Store.empty with
    names := ⟨#["card", "card style"]⟩
    nextIdent := owners
    dependents := .replicate owners [] }⟩

end ReactiveScript
