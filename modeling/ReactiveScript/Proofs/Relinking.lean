import ReactiveScript.Proofs.Alignment

/-
  Linking starts from scratch.

  The lists of dependents, the content flags and the card's own registry entries that linking finds
  play no part in what it leaves, and neither do values, ages and marks of the card, or how many
  identities and iterators were given out before (`Template.link_from_scratch`). So linking twice is
  linking once, provided that the first time leaves the variables as they were, for which no
  variable may be bound deeper than the current level (`Template.link_twice_reads_more` is a case
  where one is).
-/

namespace ReactiveScript

open Value (Like Fixed)
open PassEvent

/-! ## Values without state -/

/-- The value is no object of the host and no iterator, and has no dependency hook. Its identity was
given out before `next`. -/
def Value.Plain (next : Ident) : Value → Prop
  | .object _ (.host _) | .iterator _ => False
  | .object id _ | .collection id _ | .closure id _ _ | .composition id _ _ => id < next
  | .builtin id f => f.hook = none ∧ id < next
  | .script s => s.id < next
  | _ => True

/-- The card's owners have lists, and all values that linking it can meet are plain. -/
structure Template.Plain (t : Template) (m : Machine) : Prop where
  owners : ∀ owner ∈ t.owners, owner < m.store.dependents.size
  env : m.context.env.All (Value.Every (Value.Plain m.store.nextIdent))
  stack : ∀ v ∈ m.context.stack, v.Every (Value.Plain m.store.nextIdent)
  scripts : ∀ s, t.Runs True s → ∀ c ∈ s.constants, c.Every (Value.Plain m.store.nextIdent)

/-! ## Later identities and handles -/

/-- Numbers from `i` on read as numbers from `j` on. -/
def shift (i j n : Nat) : Nat := if n < i then n else n - i + j

theorem shift_of_lt {i n : Nat} (h : n < i) (j : Nat) : shift i j n = n := if_pos h

theorem shift_add (i j n : Nat) : shift i j (i + n) = j + n := by
  unfold shift
  rw [if_neg (by omega)]
  omega

theorem shift_injective {i j : Nat} (h : i ≤ j) : Function.Injective (shift i j) := by
  intro a b hab
  unfold shift at hab
  split at hab <;> split at hab <;> omega

/-- Identities from `i` on and handles from `n` on read as those from `j` on and from `k` on. No
other handle is used. -/
def Renaming.above (fixtures : Fixtures) {i j n k : Nat} (hi : i ≤ j) (hn : n ≤ k) : Renaming where
  ident := shift i j
  handle := shift n k
  usable handle := n ≤ handle
  fixtures
  ident_injective := shift_injective hi
  handle_injective := shift_injective hn

section

variable {fixtures : Fixtures} {i j n k : Nat} {hi : i ≤ j} {hn : n ≤ k}

theorem fixed_above {v : Value} (h : v.Plain i) : Fixed (.above fixtures hi hn) v := by
  have hid : ∀ {id : Nat}, id < i → (Renaming.above fixtures hi hn).ident id = id :=
    fun hlt => shift_of_lt hlt j
  cases v with
  | object id body =>
    cases body with
    | host => exact h
    | _ => exact hid h
  | builtin id f => exact ⟨h.1, hid h.2⟩
  | iterator => exact absurd h id
  | collection | script | closure | composition => exact hid h
  | _ => trivial

theorem like_above {v : Value} (h : v.Every (Value.Plain i)) :
    Like (.above fixtures hi hn) v v :=
  Value.like_self (h.mono fun _ => fixed_above)

/-- Where identities read differently from `i` on, only later ones are given out. -/
theorem le_of_mirrors_above {marks marks' : Marks} {m w : Machine} (hij : i < j)
    (h : m.Mirrors (.above fixtures hi hn) marks marks' w) :
    i ≤ m.store.nextIdent ∧ n ≤ m.store.iterations.size := by
  refine ⟨?_, (h.store.handles 0).1⟩
  by_contra hlt
  obtain ⟨d, rfl⟩ : ∃ d, i = m.store.nextIdent + d := ⟨i - m.store.nextIdent, by omega⟩
  have hnow : shift _ j m.store.nextIdent = w.store.nextIdent := h.store.idents 0
  have hthen : shift _ j (m.store.nextIdent + d) = w.store.nextIdent + d := h.store.idents d
  rw [shift_of_lt (by omega)] at hnow
  have hstart := shift_add (m.store.nextIdent + d) j 0
  rw [Nat.add_zero, Nat.add_zero] at hstart
  omega

end

/-! ## Machines that passes can not tell apart -/

/-- What a pass finds is the same, apart from lists of dependents. -/
structure Machine.Alike (m w : Machine) : Prop where
  env : m.context.env.Same w.context.env
  stack : w.context.stack = m.context.stack
  settings : w.context.settings = m.context.settings
  callDepth : w.context.callDepth = m.context.callDepth
  analyzing : w.context.analyzing = m.context.analyzing
  registry : ∀ var, w.context.registry.lookup? var = m.context.registry.lookup? var
  fixtures : w.store.fixtures = m.store.fixtures

/-- The machine when identities up to `i` and `k` iterators were given out. -/
def Machine.raised (i : Ident) (k : Nat) (m : Machine) : Machine :=
  { m with store := { m.store with nextIdent := i, iterations := Array.replicate k .empty } }

theorem Machine.Alike.raised {m w : Machine} (h : m.Alike w) (i : Ident) (k : Nat) :
    m.Alike (w.raised i k) := { h with }

theorem Machine.Alike.refl (m : Machine) : m.Alike m :=
  ⟨.refl _, rfl, rfl, rfl, rfl, fun _ => rfl, rfl⟩

theorem Machine.Alike.symm {m w : Machine} (h : m.Alike w) : w.Alike m :=
  ⟨h.env.symm, h.stack.symm, h.settings.symm, h.callDepth.symm, h.analyzing.symm,
    fun var => (h.registry var).symm, h.fixtures.symm⟩

/-- Machines that passes can not tell apart are aligned if one gave out more than the other. -/
theorem Machine.Alike.aligned {m w : Machine} (h : m.Alike w)
    {L : Array (List Dependency) → Array (List Dependency) → Prop}
    (hi : m.store.nextIdent ≤ w.store.nextIdent)
    (hn : m.store.iterations.size ≤ w.store.iterations.size)
    (henv : m.context.env.All (Value.Every (Value.Plain m.store.nextIdent)))
    (hstack : ∀ v ∈ m.context.stack, v.Every (Value.Plain m.store.nextIdent))
    (hlists : L m.store.dependents w.store.dependents) :
    m.Aligned (.above m.store.fixtures hi hn) L w where
  lists := hlists
  mirrors :=
    { env := h.env.mirrors (henv.mono fun _ => like_above)
      stack := by
        rw [h.stack]
        exact List.forall₂_same.2 fun v hv => like_above (hstack v hv)
      settings := h.settings.symm
      callDepth := h.callDepth.symm
      analyzing := h.analyzing.symm
      registry := fun var => (h.registry var).symm
      store :=
        { fixtures := rfl
          fixtures' := h.fixtures
          idents := shift_add _ _
          handles := fun d => ⟨Nat.le_add_right _ d, shift_add _ _ d⟩
          iterations := fun handle hle => by
            obtain ⟨d, rfl⟩ := Nat.exists_eq_add_of_le hle
            have hread : (Renaming.above m.store.fixtures hi hn).handle
                (m.store.iterations.size + d) = w.store.iterations.size + d := shift_add _ _ d
            rw [hread, Array.getElem?_eq_none (Nat.le_add_right _ d),
              Array.getElem?_eq_none (Nat.le_add_right _ d)]
            exact .empty
          marks := rfl
          marks' := rfl } }

/-- What linking a card finds besides the card is the same: variables and operands, limits and
names, and what is registered under other names. Lists of dependents may hold anything. -/
structure Machine.SameSurroundings (m n : Machine) : Prop where
  env : m.context.env.Same n.context.env
  stack : n.context.stack = m.context.stack
  settings : n.context.settings = m.context.settings
  callDepth : n.context.callDepth = m.context.callDepth
  analyzing : n.context.analyzing = m.context.analyzing
  registry : ∀ var, m.store.names.find? "card" ≠ some var →
    m.store.names.find? "card style" ≠ some var →
      n.context.registry.lookup? var = m.context.registry.lookup? var
  names : n.store.names = m.store.names
  interrupts : n.store.interrupts = m.store.interrupts

theorem Machine.SameSurroundings.refl (m : Machine) : m.SameSurroundings m :=
  ⟨.refl _, rfl, rfl, rfl, rfl, fun _ _ _ => rfl, rfl, rfl⟩

/-! ## Cards with the same owners -/

namespace Template

/-- The same owners in the same order, with the same names, scripts and lists. What was stored in
them may differ, and so may content flags. -/
structure SameOwners (t t' : Template) : Prop where
  fields : t'.fields.map (·.field.shape) = t.fields.map (·.field.shape)
  styles : t'.styles.map (·.style.owner) = t.styles.map (·.style.owner)

variable {t t' t₁ : Template} {m n m₁ : Machine} {budget : Nat}

namespace SameOwners

theorem refl (t : Template) : t.SameOwners t := ⟨rfl, rfl⟩

theorem symm (h : t.SameOwners t') : t'.SameOwners t := ⟨h.fields.symm, h.styles.symm⟩

theorem owners (h : t.SameOwners t') : t'.owners = t.owners := by
  have hfields := congrArg (List.map fun shape => shape.2.2) h.fields
  have hstyles := congrArg (List.map fun owner => owner.2.1) h.styles
  rw [List.map_map, List.map_map] at hfields hstyles
  exact congrArg₂ List.append hfields hstyles

theorem fieldsNode (h : t.SameOwners t') : t'.fieldsNode = t.fieldsNode := by
  have hshape : ∀ t : Template, t.fieldsNode = (t.fields.map (·.field.shape)).foldl
      (fun node shape => node.addMember (.ofOwner shape.1 shape.2.2)) (.emptyGroup "card") := by
    intro t
    rw [List.foldl_map]
    rfl
  rw [hshape, hshape, h.fields]

/-- The group of a style is known from its name and its list. -/
theorem toNode_eq (s : Style) : s.toNode =
    (Property.all.map Property.name ++ ["content width", "content height", "content lines"]).foldl
      (fun node name => node.addMember (.ofOwner name s.owner.2.1)) (.emptyGroup s.owner.1) := rfl

theorem stylesNode (h : t.SameOwners t') : t'.stylesNode = t.stylesNode := by
  have hshape : ∀ t : Template, t.stylesNode = (t.styles.map (·.style.owner)).foldl
      (fun node owner => node.addMember <|
        (Property.all.map Property.name ++
          ["content width", "content height", "content lines"]).foldl
            (fun node name => node.addMember (.ofOwner name owner.2.1)) (.emptyGroup owner.1))
      (.emptyGroup "card style") := by
    intro t
    rw [List.foldl_map]
    unfold Template.stylesNode
    simp only [toNode_eq]
  rw [hshape, hshape, h.styles]

end SameOwners

theorem forall₂_of_map_eq {α β : Type} {f : α → β} {xs ys : List α} (h : ys.map f = xs.map f) :
    List.Forall₂ (fun x y => f y = f x) xs ys := by
  rw [← List.forall₂_eq_eq_eq, List.forall₂_map_left_iff, List.forall₂_map_right_iff] at h
  exact h.flip

/-- Scripts whose constants are like themselves make cards with the same owners match. -/
theorem SameOwners.matches {r : Renaming} (h : t.SameOwners t')
    (hlike : ∀ s, t.Runs True s → ∀ c ∈ s.constants, Like r c c) :
    FieldsMatch r t.fields t'.fields ∧ StylesMatch r t.styles t'.styles := by
  refine ⟨(List.forall₂_and_left _ _).2 ⟨fun c hc s hs => ?fields, forall₂_of_map_eq h.fields⟩,
    (List.forall₂_and_left _ _).2 ⟨fun c hc p s hs => ?styles, forall₂_of_map_eq h.styles⟩⟩
  case fields => exact hlike s (.inl ⟨c, hc, hs⟩)
  case styles => exact hlike s (.inr ⟨trivial, c, hc, p, hs⟩)

/-- The passes over cards with the same owners, on machines that passes can not tell apart and of
which the second one gave out more than the first. -/
theorem SameOwners.trackAll (h : t.SameOwners t') {p w : Machine} (halike : p.Alike w)
    (hplain : t.Plain p) (hi : p.store.nextIdent ≤ w.store.nextIdent)
    (hn : p.store.iterations.size ≤ w.store.iterations.size)
    {L : Array (List Dependency) → Array (List Dependency) → Prop} (hL : Lasting L)
    (hlists : L p.store.dependents w.store.dependents) (budget : Nat) :
    Related (fun a b => SameFlags a.1.styles b.1.styles a.2 b.2) (t.trackAll budget p).1
        (t'.trackAll budget w).1 ∧
      (t.trackAll budget p).2.Aligned (.above p.store.fixtures hi hn) L
        (t'.trackAll budget w).2 := by
  obtain ⟨hfields, hstyles⟩ := h.matches fun s hs c hc => like_above (hplain.scripts s hs c hc)
  have haligned := halike.aligned hi hn hplain.env hplain.stack hlists
  exact aligned_trackAll hL hfields hstyles budget p w haligned

/-! ## The card's variables -/

/-- Only `card` and `card style` are the card's variables. -/
theorem cardNames_fst_of_find? {names : Names} {var : Variable}
    (h : names.find? "card" = some var) : (cardNames names).1 = var :=
  congrArg Prod.fst (Names.intern_of_find? h)

theorem cardNames_snd_of_find? {names : Names} {var : Variable}
    (h : names.find? "card style" = some var) : (cardNames names).2.1 = var := by
  have hlater := Names.find?_intern_of_find? h "card"
  exact congrArg Prod.fst (Names.intern_of_find? hlater)

/-- Enrolling a card a second time finds its variables, also if `input` came in. -/
theorem cardNames_again {names later : Names}
    (h : later.intern "input" = (cardNames names).2.2.intern "input") :
    cardNames later = ((cardNames names).1, (cardNames names).2.1, later) := by
  have hfind : ∀ name, "input" ≠ name →
      later.find? name = (cardNames names).2.2.find? name := fun name hne => by
    rw [← Names.find?_intern_of_ne hne, h, Names.find?_intern_of_ne hne]
  have hcard : later.find? "card" = some (cardNames names).1 := by
    rw [hfind _ (by decide)]
    exact Names.find?_intern_of_find? (Names.find?_intern names "card") "card style"
  have hstyle : later.find? "card style" = some (cardNames names).2.1 := by
    rw [hfind _ (by decide)]
    exact Names.find?_intern (names.intern "card").2 "card style"
  have hlater : cardNames later = ((later.intern "card").1,
      ((later.intern "card").2.intern "card style").1,
      ((later.intern "card").2.intern "card style").2) := rfl
  rw [hlater, Names.intern_of_find? hcard]
  dsimp only
  rw [Names.intern_of_find? hstyle]

/-- Enrolling cards with the same owners in the same surroundings leaves nothing to tell apart. -/
theorem SameOwners.enrolled_alike (h : t.SameOwners t') (hsame : m.SameSurroundings n) :
    (t.enrolled m).Alike (t'.enrolled n) where
  env := hsame.env
  stack := hsame.stack
  settings := hsame.settings
  callDepth := hsame.callDepth
  analyzing := hsame.analyzing
  registry var := by
    rw [lookup?_enrolled, lookup?_enrolled, hsame.names, h.fieldsNode, h.stylesNode]
    by_cases hstyle : (cardNames m.store.names).2.1 = var
    · rw [if_pos hstyle, if_pos hstyle]
    by_cases hcard : (cardNames m.store.names).1 = var
    · rw [if_neg hstyle, if_neg hstyle, if_pos hcard, if_pos hcard]
    rw [if_neg hstyle, if_neg hstyle, if_neg hcard, if_neg hcard]
    exact hsame.registry var (fun hfind => hcard (cardNames_fst_of_find? hfind))
      fun hfind => hstyle (cardNames_snd_of_find? hfind)
  fixtures := by
    unfold Store.fixtures enrolled
    dsimp only
    rw [hsame.names, hsame.interrupts]

theorem Plain.enrolled (h : t.Plain m) : t.Plain (t.enrolled m) where
  owners owner howner := by
    show owner < (clearedLists t.owners m.store.dependents).size
    rw [size_clearedLists]
    exact h.owners owner howner
  env := h.env
  stack := h.stack
  scripts := h.scripts

/-! ## What owners are left with -/

/-- The same list, without dummies and repetitions. -/
def ProperList (list list' : List Dependency) : Prop :=
  list = list' ∧ list.Nodup ∧ ∀ dep ∈ list, dep.isDummy = false

/-- The lists of the card's owners are the same and proper. -/
abbrev OwnersAgree (t : Template) (size : Nat) :
    Array (List Dependency) → Array (List Dependency) → Prop :=
  ListsRelated size (· ∈ t.owners) fun _ => ProperList

theorem lasting_ownersAgree (t : Template) (size : Nat) : Lasting (t.OwnersAgree size) := by
  refine lasting_listsRelated fun owner dep signalled l l' hdep h => ?_
  obtain ⟨rfl, hnodup, hreal⟩ := h
  refine ⟨rfl, nodup_register hnodup signalled, fun other hother => ?_⟩
  rcases mem_register hother with rfl | hold
  · exact hdep
  · exact hreal other hold

theorem getElem?_enrolled {owner : OwnerId} (h : t.Plain m) (howner : owner ∈ t.owners) :
    (t.enrolled m).store.dependents[owner]? = some [] := by
  show (clearedLists t.owners m.store.dependents)[owner]? = some []
  rw [getElem?_clearedLists, if_pos howner, Array.getElem?_eq_getElem (h.owners owner howner)]
  rfl

/-- Enrolled cards with the same owners agree: all their owners' lists are empty. -/
theorem SameOwners.ownersAgree_enrolled (h : t.SameOwners t') (hm : t.Plain m) (hn : t'.Plain n) :
    t.OwnersAgree (t.enrolled m).store.dependents.size (t.enrolled m).store.dependents
      (t'.enrolled n).store.dependents := by
  refine ⟨rfl, fun owner howner => ?_⟩
  rw [getElem?_enrolled hm howner, getElem?_enrolled hn (h.owners ▸ howner)]
  exact .some ⟨rfl, List.nodup_nil, fun _ hdep => by cases hdep⟩

/-! ## Two runs -/

/-- Two cards with the same owners that are linked in the same surroundings: the same failure, or
the same content flags; and the same lists. The first machine has given out no less than before, and
the names and switches are those with which the passes began. -/
theorem SameOwners.link (h : t.SameOwners t') (hsame : m.SameSurroundings n) (hm : t.Plain m)
    (hn : t'.Plain n) (budget : Nat) :
    Related (fun a b => SameFlags a.1.styles b.1.styles a.2 b.2) (t.link budget m).1
        (t'.link budget n).1 ∧
      t.OwnersAgree (t.enrolled m).store.dependents.size (t.link budget m).2.store.dependents
        (t'.link budget n).2.store.dependents ∧
      m.store.nextIdent ≤ (t.link budget m).2.store.nextIdent ∧
      m.store.iterations.size ≤ (t.link budget m).2.store.iterations.size ∧
      (t.link budget m).2.store.fixtures = (t.enrolled m).store.fixtures := by
  -- both are compared with one machine that has given out more than either
  let next := max m.store.nextIdent n.store.nextIdent + 1
  let count := max m.store.iterations.size n.store.iterations.size
  have hm' : m.store.nextIdent < next := Nat.lt_succ_of_le (Nat.le_max_left ..)
  have hn' : n.store.nextIdent < next := Nat.lt_succ_of_le (Nat.le_max_right ..)
  have hcount : (Array.replicate count Iteration.empty).size = count := Array.size_replicate
  have hfirst := (SameOwners.refl t).trackAll ((Machine.Alike.refl _).raised next count)
    hm.enrolled (Nat.le_of_lt hm') (hcount.symm ▸ Nat.le_max_left ..)
    (lasting_ownersAgree t _) ((SameOwners.refl t).ownersAgree_enrolled hm hm) budget
  have hsecond := h.symm.trackAll ((h.enrolled_alike hsame).symm.raised next count)
    hn.enrolled (Nat.le_of_lt hn') (hcount.symm ▸ Nat.le_max_right ..)
    (lasting_ownersAgree t' _) (h.symm.ownersAgree_enrolled hn hm) budget
  rw [run_link, run_link]
  obtain ⟨hresults, haligned⟩ := hfirst
  obtain ⟨hresults', haligned'⟩ := hsecond
  obtain ⟨hident, hiterations⟩ := le_of_mirrors_above hm' haligned.mirrors
  refine ⟨related_of_common hresults hresults' fun a b c hac hbc => ?flags,
    haligned.lists.of_common haligned'.lists (fun owner howner => h.owners ▸ howner)
      fun owner x y z hxz hyz => ?lists,
    hident, hiterations, haligned.mirrors.store.fixtures⟩
  case flags =>
    refine ⟨hac.1.trans hbc.1.symm, fun hnone => ?_⟩
    exact (hac.2 hnone).trans (hbc.2 (hbc.1.trans (hac.1.symm.trans hnone))).symm
  case lists =>
    obtain ⟨rfl, hnodup, hreal⟩ := hxz
    exact ⟨hyz.1.symm, hnodup, hreal⟩

/-! ## Linking again -/

/-- Linking keeps the owners. -/
theorem sameOwners_of_link (hlink : t.link budget m = (.ok (t₁, none), m₁)) : t.SameOwners t₁ := by
  obtain ⟨hfields, -, hstyles⟩ := owner_link hlink
  exact ⟨by rw [hfields], hstyles⟩

theorem styles_eq_of_flags {cells cells' : List StyleCell}
    (h : List.Forall₂ (fun c c' => c.style.Reclassified c'.style) cells cells')
    (hflags : cells.map (·.style.flags) = cells'.map (·.style.flags)) :
    cells'.map StyleCell.style = cells.map StyleCell.style := by
  induction h with
  | nil => rfl
  | cons hc _ ih =>
    obtain ⟨hflag, hrest⟩ := List.cons.inj hflags
    exact congrArg₂ List.cons (hc.eq_of_flags hflag.symm) (ih hrest)

/-- A card that was linked is the same after it is linked again, if its scripted properties have the
same content flags. -/
theorem eq_of_relinked {t₂ : Template} {m' m₂ : Machine}
    (hlink : t.link budget m = (.ok (t₁, none), m₁))
    (hagain : t₁.link budget m' = (.ok (t₂, none), m₂))
    (hflags : t₁.styles.map (·.style.flags) = t₂.styles.map (·.style.flags)) : t₂ = t₁ := by
  obtain ⟨cells, _, -, rfl⟩ := link_cases hlink
  obtain ⟨cells', _, hstyles, rfl⟩ := link_cases hagain
  have hsame : cells'.map StyleCell.style = cells.map StyleCell.style := by
    refine (styles_eq_of_flags (reclassified_linkStyles hstyles) ?_).trans (List.map_map ..)
    exact hflags.trans (List.map_map ..)
  have hdirty : ∀ cells : List StyleCell, (cells.map fun c => { c with dirty := true }) =
      (cells.map StyleCell.style).map (StyleCell.mk · true) := by
    intro cells
    rw [List.map_map]
    rfl
  unfold markAllDirty
  rw [hdirty cells', hsame, ← hdirty cells]

/-- Passes of a card leave nothing that later passes could tell apart, where no variable is bound
deeper than the current level and no script is under analysis. -/
theorem alike_relinked (hm : t.Plain m) (hanalyzing : m.context.analyzing = [])
    (hlevels : m.context.env.LevelsBounded) (hlink : t.link budget m = (.ok (t₁, none), m₁)) :
    (t.enrolled m).Alike (t₁.enrolled m₁) := by
  obtain ⟨-, -, -, -, hfixtures⟩ := (SameOwners.refl t).link (.refl m) hm hm budget
  have hcard := sameOwners_of_link hlink
  rw [hlink] at hfixtures
  rw [run_link] at hlink
  have hback := (Run.passClosed_neutral.trackAll budget t (t.enrolled m) (hlink ▸ trivial)).1
  have hregistry := (Run.passClosed_keeps Context.registry).trackAll budget t (t.enrolled m)
  have hsettings := (Run.passClosed_keeps Context.settings).trackAll budget t (t.enrolled m)
  rw [hlink] at hback hregistry hsettings
  have hnames := cardNames_again (congrArg Fixtures.input hfixtures)
  have hnone : m₁.context.analyzing = [] :=
    List.subset_nil.1 (hanalyzing ▸ hback.analyzing)
  exact {
    env := hback.env.same hlevels
    stack := hback.stack
    settings := hsettings
    callDepth := hback.callDepth
    analyzing := hnone.trans hanalyzing.symm
    registry := fun var => by
      rw [lookup?_enrolled, hnames, hcard.fieldsNode, hcard.stylesNode, hregistry, lookup?_enrolled]
      dsimp only
      split
      · rfl
      · split <;> rfl
    fixtures := by
      rw [← hfixtures]
      unfold enrolled Store.fixtures
      dsimp only
      rw [hnames] }

/-- The lists of the card's owners are the same. Another owner's list is the one it ends with, as
long as the first run has registered nobody else. -/
def EndsAgree (t : Template) (ends : Array (List Dependency)) (owner : OwnerId)
    (list list' : List Dependency) : Prop :=
  if owner ∈ t.owners then list = list'
  else list ⊆ ends[owner]?.getD [] → list' = ends[owner]?.getD []

theorem lasting_endsAgree (t : Template) (ends : Array (List Dependency)) (size : Nat) :
    Lasting (ListsRelated size (fun _ => True) (t.EndsAgree ends)) := by
  refine lasting_listsRelated fun owner dep signalled l l' _ h => ?_
  unfold EndsAgree at h ⊢
  by_cases howner : owner ∈ t.owners
  · rw [if_pos howner] at h ⊢
    rw [h]
  · rw [if_neg howner] at h ⊢
    intro hsub
    rw [h fun _ hold => hsub (subset_register dep signalled l hold)]
    cases signalled with
    | false => rw [register_false]; rfl
    | true => exact register_of_mem (hsub (mem_register_self dep l)) true

/-- Enrolled for the first time and again: the card's owners have empty lists, and the others those
that the first run ends with. -/
theorem endsAgree_enrolled (hcard : t.SameOwners t₁)
    (hsize : m₁.store.dependents.size = m.store.dependents.size) :
    ListsRelated (t.enrolled m).store.dependents.size (fun _ => True)
      (t.EndsAgree m₁.store.dependents) (t.enrolled m).store.dependents
      (t₁.enrolled m₁).store.dependents := by
  refine ⟨rfl, fun owner _ => ?_⟩
  show Option.Rel _ (clearedLists t.owners m.store.dependents)[owner]?
    (clearedLists t₁.owners m₁.store.dependents)[owner]?
  rw [getElem?_clearedLists, getElem?_clearedLists, hcard.owners]
  by_cases hlt : owner < m.store.dependents.size
  · rw [Array.getElem?_eq_getElem hlt, Array.getElem?_eq_getElem (hsize ▸ hlt)]
    unfold EndsAgree
    by_cases howner : owner ∈ t.owners
    · simp only [if_pos howner]
      exact .some rfl
    · simp only [if_neg howner]
      refine .some fun _ => ?_
      rw [Array.getElem?_eq_getElem (hsize ▸ hlt)]
      rfl
  · have hge := Nat.le_of_not_lt hlt
    rw [Array.getElem?_eq_none hge, Array.getElem?_eq_none (hsize ▸ hge)]
    split <;> exact .none

/-- Lists that agree with those at the end are those at the end. -/
theorem eq_of_endsAgree {ends lists : Array (List Dependency)} {size : Nat}
    (h : ListsRelated size (fun _ => True) (t.EndsAgree ends) ends lists) : lists = ends := by
  refine Array.ext_getElem? fun owner => ?_
  have hrelated := h.related owner trivial
  unfold EndsAgree at hrelated
  generalize hx : ends[owner]? = x, lists[owner]? = y at hrelated
  cases hrelated with
  | none => rfl
  | @some list list' hagree =>
    by_cases howner : owner ∈ t.owners
    · rw [if_pos howner] at hagree
      rw [hagree]
    · rw [if_neg howner] at hagree
      exact congrArg some (hagree (List.Subset.refl list))

/-- Linking a card again, in a machine that the first time left without variables bound deeper than
the current level, changes neither the card nor any list nor what is registered. -/
theorem link_again (hm : t.Plain m) (hanalyzing : m.context.analyzing = [])
    (hlevels : m.context.env.LevelsBounded) (hlink : t.link budget m = (.ok (t₁, none), m₁)) :
    ∃ m₂, t₁.link budget m₁ = (.ok (t₁, none), m₂) ∧
      m₂.store.dependents = m₁.store.dependents ∧
      ∀ var, m₂.context.registry.lookup? var = m₁.context.registry.lookup? var := by
  obtain ⟨-, hlists, hident, hiterations, -⟩ := (SameOwners.refl t).link (.refl m) hm hm budget
  have halike := alike_relinked hm hanalyzing hlevels hlink
  have hcard := sameOwners_of_link hlink
  have htrack := (run_link budget t m).symm.trans hlink
  rw [hlink] at hlists hident hiterations
  have hsize : m₁.store.dependents.size = m.store.dependents.size :=
    hlists.size.trans (size_clearedLists ..)
  obtain ⟨hresults, haligned⟩ := hcard.trackAll halike hm.enrolled hident hiterations
    (lasting_endsAgree t m₁.store.dependents _) (endsAgree_enrolled hcard hsize) budget
  rw [htrack] at hresults haligned
  rw [run_link]
  rcases hagain : t₁.trackAll budget (t₁.enrolled m₁) with ⟨stop | ⟨t₂, failure⟩, m₂⟩
  · rw [hagain] at hresults
    cases hresults
  · rw [hagain] at hresults haligned
    obtain ⟨hfailure, hflags⟩ := hresults
    obtain rfl : none = failure := hfailure
    obtain rfl := eq_of_relinked hlink ((run_link budget t₁ m₁).trans hagain) (hflags rfl)
    exact ⟨m₂, rfl, eq_of_endsAgree haligned.lists, fun var => (haligned.mirrors.registry var).symm⟩

/-- Linking starts from scratch. Say two cards have the same owners with the same names and scripts,
and two machines the same surroundings, without host objects, iterators and hooks. If linking the
one card in the one machine succeeds, so does linking the other in the other one: scripted
properties get the same content flags and owners the same lists, in the same order, whatever flags,
lists and registry entries of the card there were, and whatever was stored in its owners. No list
repeats a dependency or has a dummy. Where no variable is bound deeper than the current level,
linking the card again changes nothing. -/
theorem link_from_scratch (hcard : t.SameOwners t') (hsame : m.SameSurroundings n) (hm : t.Plain m)
    (hn : t'.Plain n) (hlink : t.link budget m = (.ok (t₁, none), m₁)) :
    (∃ t₂ n₁, t'.link budget n = (.ok (t₂, none), n₁) ∧
      t₂.styles.map (·.style.flags) = t₁.styles.map (·.style.flags) ∧
      ∀ owner ∈ t.owners,
        (Store.dependentsOf owner n₁.store).1 = (Store.dependentsOf owner m₁.store).1) ∧
    (∀ owner ∈ t.owners, (Store.dependentsOf owner m₁.store).1.Nodup ∧
      ∀ dep ∈ (Store.dependentsOf owner m₁.store).1, dep.isDummy = false) ∧
    (m.context.analyzing = [] → m.context.env.LevelsBounded →
      ∃ m₂, t₁.link budget m₁ = (.ok (t₁, none), m₂) ∧
        m₂.store.dependents = m₁.store.dependents ∧
        ∀ var, m₂.context.registry.lookup? var = m₁.context.registry.lookup? var) := by
  obtain ⟨hresults, hlists, -, -, -⟩ := hcard.link hsame hm hn budget
  rw [hlink] at hresults hlists
  have hagree : ∀ owner ∈ t.owners,
      (Store.dependentsOf owner m₁.store).1 =
        (Store.dependentsOf owner (t'.link budget n).2.store).1 ∧
      (Store.dependentsOf owner m₁.store).1.Nodup ∧
      ∀ dep ∈ (Store.dependentsOf owner m₁.store).1, dep.isDummy = false := by
    intro owner howner
    have hrelated := hlists.related owner howner
    unfold Store.dependentsOf
    dsimp only
    generalize m₁.store.dependents[owner]? = x, (t'.link budget n).2.store.dependents[owner]? = y
      at hrelated
    cases hrelated with
    | none => exact ⟨rfl, List.nodup_nil, fun _ hdep => by cases hdep⟩
    | some hrelated => exact hrelated
  refine ⟨?other, fun owner howner => (hagree owner howner).2,
    fun hanalyzing hlevels => link_again hm hanalyzing hlevels hlink⟩
  case other =>
    rcases hother : t'.link budget n with ⟨stop | ⟨t₂, failure⟩, n₁⟩
    · rw [hother] at hresults
      cases hresults
    · rw [hother] at hresults hagree
      obtain ⟨hfailure, hflags⟩ := hresults
      obtain rfl : none = failure := hfailure
      exact ⟨t₂, n₁, rfl, (hflags rfl).symm, fun owner howner => (hagree owner howner).1.symm⟩

/-- A script that returns the card's price. -/
def readsPrice : Script Value :=
  ⟨0, #[.of .getVar 0, .of .memberC 0, .of .ret 0], #[.string "price"]⟩

/-- A script that returns the measured height of the style `box`. -/
def readsBoxHeight : Script Value :=
  ⟨1, #[.of .getVar 1, .of .memberC 0, .of .memberC 1, .of .ret 0],
    #[.string "box", .string "content height"]⟩

/-- A card with a field that reads another one, and a style that reads its own measured height. -/
def pricedCard (price : Value) (readsContent : Bool) : Template where
  fields := [⟨⟨"total", .ofParts price (some readsPrice), 0⟩, 0⟩, ⟨⟨"price", .fixed price, 1⟩, 0⟩]
  styles := [⟨⟨"box", .fixed 0, .fixed 0, ⟨0, some readsBoxHeight, readsContent⟩, .fixed 0, .fixed 0,
    .fixed true, .fixed "", none, 2, []⟩, false⟩]
  age := 0

theorem sameOwners_pricedCard (price price' : Value) (readsContent readsContent' : Bool) :
    (pricedCard price readsContent).SameOwners (pricedCard price' readsContent') := by
  refine ⟨rfl, congrArg (fun scripts => [("box", 2, scripts)]) (funext fun p => ?_)⟩
  cases p <;> rfl

/-- A machine that knows the card's variables. -/
def cardMachine (list : List Dependency) (nodes : List (Variable × Node)) : Machine where
  context := { Context.ofSettings ⟨10, false, 0⟩ with registry := ⟨nodes⟩ }
  store := { Store.empty with
    names := ⟨#["card", "card style"]⟩, nextIdent := 2, dependents := #[list, list, list] }

theorem plain_pricedCard (price : Value) (readsContent : Bool) (list : List Dependency)
    (nodes : List (Variable × Node)) :
    (pricedCard price readsContent).Plain (cardMachine list nodes) := by
  have hstrings : ∀ names : List String, ∀ c ∈ (names.map Value.string).toArray,
      c.Every (Value.Plain 2) := by
    intro names c hc
    obtain ⟨name, -, rfl⟩ := List.mem_map.1 (List.mem_toArray.1 hc)
    exact Value.every_of_children_nil trivial rfl
  refine ⟨?owners, ⟨fun _ _ h => (by cases h), fun _ h => (by cases h)⟩, fun _ h => (by cases h),
    ?scripts⟩
  case owners =>
    show ∀ owner ∈ [0, 1, 2], owner < 3
    decide
  case scripts =>
    rintro s (⟨c, hc, hs⟩ | ⟨-, c, hc, p, hs⟩)
    · rcases List.mem_cons.1 hc with rfl | hc
      · cases hs
        exact hstrings ["price"]
      · obtain rfl := List.mem_singleton.1 hc
        cases hs
    · obtain rfl := List.mem_singleton.1 hc
      cases p with
      | width =>
        cases hs
        exact hstrings ["box", "content height"]
      | _ => cases hs

theorem link_from_scratch_pricedCard : ∃ t₁ m₁ t₂ n₁ m₂,
    (pricedCard .nil false).link 9 (cardMachine [] []) = (.ok (t₁, none), m₁) ∧
    (pricedCard (.int 7) true).link 9 (cardMachine [.dummyOf 3, ⟨.style, 4⟩]
      [(⟨0⟩, .owner "price" 2)]) = (.ok (t₂, none), n₁) ∧
    (Store.dependentsOf 1 n₁.store).1 = [⟨.cardField, 0⟩] ∧
    t₁.link 9 m₁ = (.ok (t₁, none), m₂) ∧ (Store.dependentsOf 1 m₂.store).1 = [⟨.cardField, 0⟩] := by
  let w := Setup.ofLink ⟨fun _ _ => False, False, fun _ => False⟩ 9 (pricedCard .nil false)
    (cardMachine [] [])
  have hlink : (pricedCard .nil false).link 9 (cardMachine [] []) = (.ok (w.card, none), w.machine) :=
    Setup.link_ofLink (by decide +kernel)
  have hsame : (cardMachine [] []).SameSurroundings
      (cardMachine [.dummyOf 3, ⟨.style, 4⟩] [(⟨0⟩, .owner "price" 2)]) := by
    refine ⟨.refl _, rfl, rfl, rfl, rfl, fun var hcard _ => ?_, rfl, rfl⟩
    have hother : (⟨0⟩ : Variable) ≠ var := fun h => hcard (h ▸ by decide +kernel)
    exact if_neg hother
  have hlists : (Store.dependentsOf 1 w.machine.store).1 = [⟨.cardField, 0⟩] := by decide +kernel
  obtain ⟨⟨t₂, n₁, hother, -, hagree⟩, -, hagain⟩ := link_from_scratch
    (sameOwners_pricedCard _ (.int 7) _ true) hsame (plain_pricedCard ..) (plain_pricedCard ..) hlink
  obtain ⟨m₂, hlink₂, hlists₂, -⟩ := hagain rfl fun _ _ h => (by cases h)
  refine ⟨_, _, t₂, n₁, m₂, hlink, hother, ?_, hlink₂, ?_⟩
  · exact (hagree 1 (by decide)).trans hlists
  · unfold Store.dependentsOf at hlists ⊢
    rw [hlists₂]
    exact hlists

/-- A card with a field that calls what `x` is bound to, and one that binds `x` to a script. -/
def rebindingCard : Template where
  fields := [⟨⟨"total", .ofParts .nil (some ⟨1, #[.of .getVar 2, .of .call 0, .of .ret 0], #[]⟩), 0⟩, 0⟩,
    ⟨⟨"price", .ofParts .nil (some
      ⟨2, #[.of .pushConst 0, .of .setVar 2, .of .ret 0], #[.script readsPrice]⟩), 1⟩, 0⟩]
  styles := []
  age := 0

/-- A machine after a scope in which `x` was bound was left with a mark that is too large. -/
def leftMachine : Machine where
  context := { Context.ofSettings ⟨10, false, 0⟩ with
    env := (Environment.empty.enterScope.2.set ⟨2⟩ .nil).leaveScope 1 }
  store := { Store.empty with
    names := ⟨#["card", "card style", "x"]⟩, nextIdent := 3, dependents := #[[], []] }

/-- Linking such a card in such a machine leaves `x` bound to the script, so that linking it again
finds another reader. -/
theorem link_twice_reads_more : ¬ ∀ (t t₁ : Template) (m m₁ : Machine), t.Plain m →
    m.context.analyzing = [] → t.link 9 m = (.ok (t₁, none), m₁) →
      ∃ m₂, t₁.link 9 m₁ = (.ok (t₁, none), m₂) ∧ m₂.store.dependents = m₁.store.dependents := by
  intro h
  let w := Setup.ofLink ⟨fun _ _ => False, False, fun _ => False⟩ 9 rebindingCard leftMachine
  have hlink : rebindingCard.link 9 leftMachine = (.ok (w.card, none), w.machine) :=
    Setup.link_ofLink (by decide +kernel)
  have hempty : Environment.empty.All (Value.Every (Value.Plain 3)) :=
    ⟨fun _ _ h => (by cases h), fun _ h => (by cases h)⟩
  have hnil : Value.nil.Every (Value.Plain 3) := Value.every_of_children_nil trivial rfl
  have hplain : rebindingCard.Plain leftMachine := by
    refine ⟨?owners, (hempty.enterScope.set ⟨2⟩ hnil).leaveScope 1, fun _ h => (by cases h), ?scripts⟩
    case owners =>
      show ∀ owner ∈ [0, 1], owner < 2
      decide
    case scripts =>
      rintro s (⟨c, hc, hs⟩ | ⟨-, c, hc, -⟩)
      · rcases List.mem_cons.1 hc with rfl | hc
        · cases hs
          exact fun c hc => absurd hc (Array.not_mem_empty c)
        · obtain rfl := List.mem_singleton.1 hc
          cases hs
          intro c hc
          obtain rfl : c = .script readsPrice := by simpa using hc
          refine .intro (show readsPrice.id < 3 by decide) fun c hc => ?_
          obtain rfl : c = .string "price" := by simpa [readsPrice, Value.children] using hc
          exact Value.every_of_children_nil trivial rfl
      · cases hc
  obtain ⟨m₂, hagain, hlists⟩ := h _ _ _ _ hplain rfl hlink
  have hfirst : w.machine.store.dependents = #[[], []] := by decide +kernel
  have hsecond : (w.card.link 9 w.machine).2.store.dependents = #[[], [⟨.cardField, 0⟩]] := by
    decide +kernel
  rw [hagain, hlists, hfirst] at hsecond
  cases hsecond

end Template

end ReactiveScript
