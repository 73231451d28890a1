import Mathlib.Data.List.Forall2
import ReactiveScript.Proofs.Showing

/-
  Sessions.

  Linking a card keeps its owners and their scripts (`Template.owner_link`). A session collects the
  cards and machines that come about from a linked card by updating fields and styles,
  by edits and by measurements. What a script gives is pure if, in any two machines of the session, it
  depends only on the owners whose lists of dependents hold its dependency. Then a computed value that
  was updated, or is up to date, stays so until one of these owners changes.
-/

namespace ReactiveScript

variable {α : Type} [HostValue α]

/-! ## Repeating an evaluation -/

/-- What two evaluations of a script give, when `w` and `w'` were stored: both fail, or the second
result is the same as the first, and the same as what was stored if the first was. -/
def Repeats (w w' : α) : Option α → Option α → Prop
  | some x, some x' =>
    HostValue.same x' x = true ∧ (w' = w → HostValue.same x w = true → HostValue.same x' w' = true)
  | none, none => True
  | _, _ => False

/-- A result that equals itself, which one that is not a number does not. -/
theorem repeats_self {x w w' : α} (h : HostValue.same x x = true) :
    Repeats w w' (some x) (some x) := by
  refine ⟨h, ?_⟩
  rintro rfl hw
  exact hw

namespace Computed

variable {budget : Nat} {m m' : Machine} {p p' q : Computed α} {changed : Bool}

/-- What an update stored is what the script gives again. -/
theorem Updated.upToDate (h : Updated budget m p (changed, p'))
    (hrep : Repeats p.value q.value (p.gives budget m) (q.gives budget m'))
    (hq : q.value = p'.value) : q.UpToDate budget m' := by
  intro x' hx'
  unfold Updated at h
  cases hx : p.gives budget m with
  | none =>
    rw [hx, hx'] at hrep
    exact absurd hrep id
  | some x =>
    rw [hx, hx'] at hrep
    rw [hx] at h
    dsimp only at h
    unfold replace at h
    split at h
    · next hsame =>
      cases h
      exact hrep.2 hq hsame
    · cases h
      rw [hq]
      exact hrep.1

/-- What the script gave is what it gives again. -/
theorem UpToDate.again (h : p.UpToDate budget m)
    (hrep : Repeats p.value q.value (p.gives budget m) (q.gives budget m'))
    (hq : q.value = p.value) : q.UpToDate budget m' := by
  intro x' hx'
  cases hx : p.gives budget m with
  | none =>
    rw [hx, hx'] at hrep
    exact absurd hrep id
  | some x =>
    rw [hx, hx'] at hrep
    exact hrep.2 hq (h x hx)

end Computed

/-! ## Cards of one shape -/

theorem map_modify_of_eq {β γ : Type} {l : List β} {i : Nat} {g : β → β} {f : β → γ}
    (h : ∀ b, l[i]? = some b → f (g b) = f b) : (l.modify i g).map f = l.map f := by
  refine List.ext_getElem? fun j => ?_
  rw [List.getElem?_map, List.getElem?_map]
  by_cases hj : i = j
  · subst hj
    rw [List.getElem?_modify_eq]
    cases hb : l[i]? with
    | none => rfl
    | some b => exact congrArg some (h b hb)
  · rw [List.getElem?_modify_ne _ _ hj]

/-- What updates leave of a field. -/
def Field.shape (f : Field) : String × Option (Script Value) × OwnerId :=
  (f.name, f.content.script, f.dependents)

/-- What updates leave of a style. -/
def Style.shape (s : Style) : String × OwnerId × (Property → Option (Script Value) × Bool) :=
  (s.name, s.dependents, fun p => ((Property.get s p).script, (Property.get s p).readsContent))

theorem Field.shape_update {f f' : Field} {budget : Nat} {m m' : Machine} {mask : Changes}
    (h : f.update budget false m = (.ok (mask, f'), m')) : f'.shape = f.shape := by
  obtain ⟨-, changed, content, hu, rfl, -⟩ := f.update_updated (fun _ _ => trivial) h
  unfold shape
  rw [hu.fixes.1]

theorem Field.shape_setValue (f : Field) (v : Value) : (f.setValue v).2.shape = f.shape := by
  unfold setValue
  split <;> rfl

theorem Style.Restyled.shape {budget : Nat} {runs : Script Value → Prop} {onlyContent noFlags : Bool}
    {s s' : Style} {m m' : Machine}
    (h : s.Restyled budget runs onlyContent (fun _ => True) m noFlags s' m') :
    s'.shape = s.shape := by
  unfold Style.shape
  rw [h.frame.name, h.frame.dependents]
  congr 2
  funext p
  obtain ⟨_, _, _, htouched, _⟩ := h.touches p trivial
  rw [htouched.fixes.1, htouched.fixes.2]

theorem Style.shape_update {s s' : Style} {budget : Nat} {onlyContent : Bool} {mask : Changes}
    {m m' : Machine} (h : s.update budget onlyContent m = (.ok (mask, s'), m')) :
    s'.shape = s.shape := by
  have hruns : ∀ p script, (Property.get s p).script = some script → True := fun _ _ _ => trivial
  exact (update_restyled hruns h).shape

theorem Style.shape_storeContent (s : Style) (measured : Measurement) :
    (s.storeContent measured).2.shape = s.shape := by
  unfold storeContent
  split
  · rfl
  · unfold shape
    congr 1

namespace Template

variable {t t' t'' : Template}

/-- The same owners with the same scripts; their values may differ. -/
structure SameShape (t t' : Template) : Prop where
  fields : t'.fields.map (·.field.shape) = t.fields.map (·.field.shape)
  styles : t'.styles.map (·.style.shape) = t.styles.map (·.style.shape)

theorem SameShape.refl (t : Template) : t.SameShape t := ⟨rfl, rfl⟩

theorem SameShape.symm (h : t.SameShape t') : t'.SameShape t := ⟨h.fields.symm, h.styles.symm⟩

theorem SameShape.trans (h : t.SameShape t') (h' : t'.SameShape t'') : t.SameShape t'' :=
  ⟨h'.fields.trans h.fields, h'.styles.trans h.styles⟩

theorem SameCard.sameShape (h : t.SameCard t') : t.SameShape t' := by
  have hf := congrArg (List.map Field.shape) h.fields
  have hs := congrArg (List.map Style.shape) h.styles
  rw [List.map_map, List.map_map] at hf hs
  exact ⟨hf.symm, hs.symm⟩

/-- Replace the field at an index. -/
def setField (t : Template) (i : Nat) (f : Field) : Template :=
  { t with fields := t.fields.modify i fun c => { c with field := f } }

theorem sameShape_setField {i : Nat} {c : FieldCell} {f : Field} (hc : t.fields[i]? = some c)
    (hf : f.shape = c.field.shape) : t.SameShape (t.setField i f) :=
  ⟨map_modify_of_eq fun b hb => by cases hc.symm.trans hb; exact hf, rfl⟩

theorem styleAt?_eq_some {i : Nat} {s : Style} :
    t.styleAt? i = some s ↔ ∃ c, t.styles[i]? = some c ∧ c.style = s := Option.map_eq_some_iff

theorem sameShape_setStyle {i : Nat} {s s' : Style} (hs : t.styleAt? i = some s)
    (hs' : s'.shape = s.shape) : t.SameShape (t.setStyle i s') := by
  obtain ⟨c, hc, rfl⟩ := styleAt?_eq_some.1 hs
  exact ⟨rfl, map_modify_of_eq fun b hb => by cases hc.symm.trans hb; exact hs'⟩

/-- The scripts that are run: those of the fields, and those of the styles of a card that is
rendered. -/
def Runs (t : Template) (renders : Prop) (script : Script Value) : Prop :=
  (∃ c ∈ t.fields, c.field.content.script = some script) ∨
    (renders ∧ ∃ c ∈ t.styles, ∃ p, (Property.get c.style p).script = some script)

theorem SameShape.field (h : t.SameShape t') {i : Nat} {c' : FieldCell}
    (hc : t'.fields[i]? = some c') : ∃ c, t.fields[i]? = some c ∧ c'.field.shape = c.field.shape := by
  have hmap := congrArg (·[i]?) h.fields
  simp only [List.getElem?_map, hc, Option.map_some] at hmap
  obtain ⟨c, hc, he⟩ := Option.map_eq_some_iff.1 hmap.symm
  exact ⟨c, hc, he.symm⟩

theorem SameShape.style (h : t.SameShape t') {i : Nat} {s' : Style} (hs : t'.styleAt? i = some s') :
    ∃ s, t.styleAt? i = some s ∧ s'.shape = s.shape := by
  obtain ⟨c', hc, rfl⟩ := styleAt?_eq_some.1 hs
  have hmap := congrArg (·[i]?) h.styles
  simp only [List.getElem?_map, hc, Option.map_some] at hmap
  obtain ⟨c, hc, he⟩ := Option.map_eq_some_iff.1 hmap.symm
  exact ⟨c.style, styleAt?_eq_some.2 ⟨c, hc, rfl⟩, he.symm⟩

theorem SameShape.length_fields (h : t.SameShape t') : t'.fields.length = t.fields.length := by
  simpa using congrArg List.length h.fields

theorem SameShape.length_styles (h : t.SameShape t') : t'.styles.length = t.styles.length := by
  simpa using congrArg List.length h.styles

/-- The owners that list a dependency hold the same values on both cards; the measured content of
styles counts only if `content` says so. -/
structure Agree (lists : Array (List Dependency)) (dep : Dependency) (content : Bool)
    (t t' : Template) : Prop where
  fields : ∀ {j : Nat} {c c' : FieldCell}, t.fields[j]? = some c → t'.fields[j]? = some c' →
    dep ∈ lists[c.field.dependents]?.getD [] → c'.field.value = c.field.value
  styles : ∀ {j : Nat} {s s' : Style}, t.styleAt? j = some s → t'.styleAt? j = some s' →
    dep ∈ lists[s.dependents]?.getD [] →
      (∀ p, (Property.get s' p).value = (Property.get s p).value) ∧
        (content = true → s'.content = s.content)

section Agree

variable {lists : Array (List Dependency)} {dep : Dependency} {content : Bool} {i j : Nat}

theorem getElem?_setField (t : Template) (i j : Nat) (f : Field) :
    (t.setField i f).fields[j]? =
      if i = j then (t.fields[j]?).map fun c => { c with field := f } else t.fields[j]? := by
  by_cases h : i = j
  · subst h
    rw [if_pos rfl]
    exact List.getElem?_modify_eq ..
  · rw [if_neg h]
    exact List.getElem?_modify_ne _ _ h

theorem styleAt?_setStyle (t : Template) (i j : Nat) (s : Style) :
    (t.setStyle i s).styleAt? j = if i = j then (t.styleAt? j).map fun _ => s else t.styleAt? j := by
  unfold styleAt?
  by_cases h : i = j
  · subst h
    rw [if_pos rfl]
    show ((t.styles.modify i _)[i]?).map _ = _
    rw [List.getElem?_modify_eq, Option.map_eq_map, Option.map_map, Option.map_map]
    rfl
  · rw [if_neg h]
    exact congrArg _ (List.getElem?_modify_ne _ _ h)

theorem SameCard.field (h : t.SameCard t') {c' : FieldCell} (hc' : t'.fields[i]? = some c') :
    ∃ c, t.fields[i]? = some c ∧ c.field = c'.field := by
  have hmap := congrArg (·[i]?) h.fields
  simp only [List.getElem?_map, hc', Option.map_some] at hmap
  exact Option.map_eq_some_iff.1 hmap

theorem SameCard.styleAt?_eq (h : t.SameCard t') (i : Nat) : t'.styleAt? i = t.styleAt? i := by
  have hmap := congrArg (·[i]?) h.styles
  simp only [List.getElem?_map] at hmap
  exact hmap.symm

theorem Agree.sameCard (h : t.Agree lists dep content t') (h' : t'.SameCard t'') :
    t.Agree lists dep content t'' where
  fields {j c c''} hc hc'' hmem := by
    obtain ⟨c', hc', he⟩ := h'.field hc''
    rw [← he]
    exact h.fields hc hc' hmem
  styles {j s s''} hs hs'' hmem := by
    rw [h'.styleAt?_eq] at hs''
    exact h.styles hs hs'' hmem

theorem agree_setField {c : FieldCell} {f : Field} (hc : t.fields[i]? = some c)
    (h : dep ∈ lists[c.field.dependents]?.getD [] → f.value = c.field.value) :
    t.Agree lists dep content (t.setField i f) where
  fields {j c₁ c₂} h₁ h₂ hmem := by
    rw [getElem?_setField] at h₂
    by_cases hij : i = j
    · subst hij
      rw [if_pos rfl, h₁] at h₂
      cases hc.symm.trans h₁
      cases h₂
      exact h hmem
    · rw [if_neg hij] at h₂
      cases h₁.symm.trans h₂
      rfl
  styles hs hs' _ := by
    cases hs.symm.trans hs'
    exact ⟨fun _ => rfl, fun _ => rfl⟩

theorem agree_setStyle {s s' : Style} (hs : t.styleAt? i = some s)
    (h : dep ∈ lists[s.dependents]?.getD [] →
      (∀ p, (Property.get s' p).value = (Property.get s p).value) ∧
        (content = true → s'.content = s.content)) :
    t.Agree lists dep content (t.setStyle i s') where
  fields h₁ h₂ _ := by
    cases h₁.symm.trans h₂
    rfl
  styles {j s₁ s₂} h₁ h₂ hmem := by
    rw [styleAt?_setStyle] at h₂
    by_cases hij : i = j
    · subst hij
      rw [if_pos rfl, h₁] at h₂
      cases hs.symm.trans h₁
      cases h₂
      exact h hmem
    · rw [if_neg hij] at h₂
      cases h₁.symm.trans h₂
      exact ⟨fun _ => rfl, fun _ => rfl⟩

end Agree

end Template

/-! ## Linking -/

/-- What linking leaves of a style. -/
def Style.owner (s : Style) : String × OwnerId × (Property → Option (Script Value)) :=
  (s.name, s.dependents, fun p => (Property.get s p).script)

/-- Going over the properties relates each to what it becomes, if each step does, and changes nothing
else. -/
theorem Style.related_mapProperties {σ : Type} {s s' : Style} {st st' : σ} {m m' : Machine}
    {R : {β : Type} → Computed β → Computed β → Prop} (hrefl : ∀ {β : Type} (c : Computed β), R c c)
    (htrans : ∀ {β : Type} {a b c : Computed β}, R a b → R b c → R a c)
    {f : {β : Type} → [HostValue β] → String → Changes → Computed β → StateT σ Run (Computed β)}
    (hf : ∀ {β : Type} [HostValue β] {name flag} {c c' : Computed β} {st st' m m'},
      f name flag c st m = (.ok (c', st'), m') → R c c')
    (h : s.mapProperties f st m = (.ok (s', st'), m')) :
    s.SameFrame s' ∧ ∀ p, R (Property.get s p) (Property.get s' p) := by
  rw [mapProperties_eq] at h
  generalize Property.all = ps at h
  induction ps generalizing s st m with
  | nil =>
    cases h
    exact ⟨.refl _, fun p => hrefl _⟩
  | cons p rest ih =>
    rw [List.foldlM_cons] at h
    obtain ⟨⟨s₁, st₁⟩, m₁, hx, h⟩ := Run.run_bind_eq_ok h
    obtain ⟨⟨c, _⟩, _, hx, hput⟩ := Run.run_bind_eq_ok hx
    cases hput
    obtain ⟨hframe, hrest⟩ := ih h
    refine ⟨(s.sameFrame_put p c).trans hframe, fun q => htrans ?_ (hrest q)⟩
    by_cases hpq : p = q
    · subst hpq
      rw [Property.get_put_self]
      exact hf hx
    · rw [Property.get_put_of_ne s hpq]
      exact hrefl _

/-- Only the content flag may be another one, and only if there is a script. -/
structure Computed.Reclassified {β : Type} (p p' : Computed β) : Prop where
  value : p'.value = p.value
  script : p'.script = p.script
  unscripted : p.script = none → p'.readsContent = p.readsContent

theorem Computed.Reclassified.refl {β : Type} (p : Computed β) : p.Reclassified p :=
  ⟨rfl, rfl, fun _ => rfl⟩

theorem Computed.Reclassified.trans {β : Type} {p p' p'' : Computed β} (h : p.Reclassified p')
    (h' : p'.Reclassified p'') : p.Reclassified p'' :=
  ⟨h'.value.trans h.value, h'.script.trans h.script,
    fun hnone => (h'.unscripted (h.script.trans hnone)).trans (h.unscripted hnone)⟩

theorem Computed.reclassified_checkContent {β : Type} {budget : Nat} {p p' : Computed β}
    {m m' : Machine} (h : p.checkContent budget m = (.ok p', m')) : p.Reclassified p' := by
  unfold checkContent at h
  cases hs : p.script with
  | none =>
    rw [hs] at h
    cases h
    exact .refl p
  | some s =>
    rw [hs] at h
    obtain ⟨_, m₁, -, h⟩ := Run.run_bind_eq_ok h
    cases h
    exact ⟨rfl, hs.symm, fun hnone => by cases hs.symm.trans hnone⟩

/-- Only content flags of properties that have a script may be other ones. -/
structure Style.Reclassified (s s' : Style) : Prop where
  frame : s.SameFrame s'
  properties : ∀ p, (Property.get s p).Reclassified (Property.get s' p)

theorem Style.Reclassified.refl (s : Style) : s.Reclassified s := ⟨.refl s, fun _ => .refl _⟩

theorem Style.Reclassified.owner {s s' : Style} (h : s.Reclassified s') : s'.owner = s.owner := by
  unfold Style.owner
  rw [h.frame.name, h.frame.dependents]
  congr 2
  exact funext fun p => (h.properties p).script

theorem Style.reclassified_checkContents {budget : Nat} {s s' : Style} {failure : Option EvalError}
    {m m' : Machine} (h : s.checkContents budget m = (.ok (s', failure), m')) :
    s.Reclassified s' := by
  have hrelated := related_mapProperties (R := Computed.Reclassified) .refl .trans
    (fun {β _ name flag c c' st st' m m'} hstep => ?_) h
  · exact ⟨hrelated.1, hrelated.2⟩
  cases st with
  | some e =>
    cases hstep
    exact .refl c
  | none =>
    obtain ⟨result, m₁, hattempt, hstep⟩ := Run.run_bind_eq_ok hstep
    rw [Run.run_attempt] at hattempt
    rcases hx : c.checkContent budget m with ⟨(_ | _ | _ | _) | c₁, m₂⟩ <;>
      rw [hx] at hattempt <;> cases hattempt <;> cases hstep
    · exact .refl c
    · exact Computed.reclassified_checkContent hx

namespace Template

theorem reclassified_linkStyles {budget index : Nat} {cells cells' : List StyleCell}
    {failure : Option EvalError} {m m' : Machine}
    (h : linkStyles budget index cells m = (.ok (cells', failure), m')) :
    List.Forall₂ (fun c c' => c.style.Reclassified c'.style) cells cells' := by
  induction cells generalizing index m cells' with
  | nil =>
    cases h
    exact .nil
  | cons c rest ih =>
    have hsame : ∀ cells : List StyleCell,
        List.Forall₂ (fun c c' => c.style.Reclassified c'.style) cells cells :=
      fun cells => List.forall₂_same.2 fun c _ => .refl c.style
    obtain ⟨result, m₁, -, h⟩ := Run.run_bind_eq_ok h
    cases result with
    | error e =>
      cases h
      exact hsame (c :: rest)
    | ok _ =>
      obtain ⟨⟨s, failed⟩, m₂, hcheck, h⟩ := Run.run_bind_eq_ok h
      have hs := Style.reclassified_checkContents hcheck
      cases failed with
      | some e =>
        cases h
        exact .cons hs (hsame rest)
      | none =>
        obtain ⟨⟨rest', failed⟩, m₃, hrest, h⟩ := Run.run_bind_eq_ok h
        cases h
        exact .cons hs (ih hrest)

theorem owner_linkStyles {budget index : Nat} {cells cells' : List StyleCell}
    {failure : Option EvalError} {m m' : Machine}
    (h : linkStyles budget index cells m = (.ok (cells', failure), m')) :
    cells'.map (·.style.owner) = cells.map (·.style.owner) := by
  rw [← List.forall₂_eq_eq_eq, List.forall₂_map_left_iff, List.forall₂_map_right_iff]
  exact (reclassified_linkStyles h).flip.imp fun _ _ hs => hs.owner

/-- Linking registers and classifies the styles, and marks them. -/
theorem link_cases {budget : Nat} {t₀ t : Template} {m₀ m : Machine}
    (h : t₀.link budget m₀ = (.ok (t, none), m)) :
    ∃ styles m₁, linkStyles budget 0 t₀.styles m₁ = (.ok (styles, none), m) ∧
      t = { t₀ with styles }.markAllDirty := by
  obtain ⟨_, m₁, -, h⟩ := Run.run_bind_eq_ok h
  obtain ⟨_, m₂, -, h⟩ := Run.run_bind_eq_ok h
  obtain ⟨result, m₃, -, h⟩ := Run.run_bind_eq_ok h
  cases result with
  | error e => cases h
  | ok _ =>
    obtain ⟨⟨styles, failure⟩, m₄, hstyles, h⟩ := Run.run_bind_eq_ok h
    cases failure with
    | some e => cases h
    | none =>
      cases h
      exact ⟨styles, m₃, hstyles, rfl⟩

/-- Linking keeps the owners and their scripts. -/
theorem owner_link {budget : Nat} {t₀ t : Template} {m₀ m : Machine}
    (h : t₀.link budget m₀ = (.ok (t, none), m)) :
    t.fields = t₀.fields ∧ t.age = t₀.age ∧
      t.styles.map (·.style.owner) = t₀.styles.map (·.style.owner) := by
  obtain ⟨styles, m₁, hstyles, rfl⟩ := link_cases h
  exact ⟨rfl, rfl, (List.map_map ..).trans (owner_linkStyles hstyles)⟩

theorem exists_owner {t₀ t : Template}
    (h : t.styles.map (·.style.owner) = t₀.styles.map (·.style.owner)) {i : Nat} {s : Style}
    (hs : t.styleAt? i = some s) : ∃ s₀, t₀.styleAt? i = some s₀ ∧ s.owner = s₀.owner := by
  obtain ⟨c, hc, rfl⟩ := styleAt?_eq_some.1 hs
  have hmap := congrArg (·[i]?) h
  simp only [List.getElem?_map, hc, Option.map_some] at hmap
  obtain ⟨c₀, hc₀, he⟩ := Option.map_eq_some_iff.1 hmap.symm
  exact ⟨c₀.style, styleAt?_eq_some.2 ⟨c₀, hc₀, rfl⟩, he.symm⟩

end Template

/-! ## Sessions -/

/-- What a card is put through: which values the user stores in fields, whether it is rendered, and
what the layout measures. -/
structure Usage where
  edits : String → Value → Prop
  renders : Prop
  measures : Measurement → Prop

/-- A card that is put to use in a machine. -/
structure Setup where
  usage : Usage
  budget : Nat
  card : Template
  machine : Machine

namespace Setup

/-- A card that is linked and then put to use. -/
def ofLink (usage : Usage) (budget : Nat) (t₀ : Template) (m₀ : Machine) : Setup where
  usage
  budget
  card := ((t₀.link budget m₀).1.toOption.map Prod.fst).getD t₀
  machine := (t₀.link budget m₀).2

/-- A card whose linking reports no failure is linked. -/
theorem link_ofLink {usage : Usage} {budget : Nat} {t₀ : Template} {m₀ : Machine}
    (h : (t₀.link budget m₀).1.toOption.map (·.2.isNone) = some true) :
    t₀.link budget m₀ =
      (.ok ((ofLink usage budget t₀ m₀).card, none), (ofLink usage budget t₀ m₀).machine) := by
  unfold ofLink
  generalize t₀.link budget m₀ = out at h ⊢
  rcases out with ⟨stop | ⟨t, _ | e⟩, m⟩
  · cases h
  · rfl
  · cases h

/-- The scripts that are run. -/
def Runs (w : Setup) : Script Value → Prop := w.card.Runs w.usage.renders

/-- The lists of dependents at the start. -/
def lists (w : Setup) : Array (List Dependency) := w.machine.store.dependents

/-- The cards and machines that come about. -/
inductive Session (w : Setup) : Template → Machine → Prop
  | start : w.Session w.card w.machine
  | work {t : Template} {m m' : Machine} (h : w.Session t m) (h' : Proceeds w.budget w.Runs m m') :
    w.Session t m'
  | enter {t : Template} {m : Machine} (h : w.Session t m) : w.Session t (Run.enterScope m).2
  | leave {t t' : Template} {m m' : Machine} (h : w.Session t m)
    (hin : Proceeds w.budget w.Runs (Run.enterScope m).2 m') (h' : w.Session t' m') :
    w.Session t' (Run.leaveScope m.context.env.hiddenCount m').2
  /-- Ages and marks may change. -/
  | restamp {t t' : Template} {m : Machine} (h : w.Session t m) (h' : t.SameCard t') : w.Session t' m
  /-- A field is updated. -/
  | field {t : Template} {m m' : Machine} {i : Nat} {c : FieldCell} {mask : Changes} {f : Field}
    (h : w.Session t m) (hshown : t.Shown m) (hc : t.fields[i]? = some c)
    (hf : c.field.update w.budget false m = (.ok (mask, f), m')) : w.Session (t.setField i f) m'
  /-- A style is updated. -/
  | style {t : Template} {m m' : Machine} {i : Nat} {s s' : Style} {onlyContent : Bool}
    {mask : Changes} (hr : w.usage.renders) (h : w.Session t m) (hshown : t.Shown m)
    (hs : t.styleAt? i = some s) (hs' : s.update w.budget onlyContent m = (.ok (mask, s'), m')) :
    w.Session (t.setStyle i s') m'
  /-- The user stores a value. -/
  | edit {t : Template} {m : Machine} {i : Nat} {c : FieldCell} {v : Value} (h : w.Session t m)
    (hc : t.fields[i]? = some c) (hv : w.usage.edits c.field.name v) :
    w.Session (t.setField i (c.field.setValue v).2) m
  /-- The layout measures a style. -/
  | measure {t : Template} {m : Machine} {i : Nat} {s : Style} {measured : Measurement}
    (hr : w.usage.renders) (h : w.Session t m) (hs : t.styleAt? i = some s)
    (hm : w.usage.measures measured) : w.Session (t.setStyle i (s.storeContent measured).2) m

namespace Session

variable {w : Setup} {t : Template} {m : Machine}

/-- Updates keep the owners and their scripts. -/
theorem sameShape (h : w.Session t m) : w.card.SameShape t := by
  induction h with
  | start => exact .refl _
  | work _ _ ih => exact ih
  | enter _ ih => exact ih
  | leave _ _ _ _ ih => exact ih
  | restamp _ h' ih => exact ih.trans h'.sameShape
  | field _ _ hc hf ih => exact ih.trans (Template.sameShape_setField hc (Field.shape_update hf))
  | style _ _ _ hs hs' ih =>
    exact ih.trans (Template.sameShape_setStyle hs (Style.shape_update hs'))
  | edit _ hc _ ih => exact ih.trans (Template.sameShape_setField hc (Field.shape_setValue _ _))
  | measure _ _ hs _ ih =>
    exact ih.trans (Template.sameShape_setStyle hs (Style.shape_storeContent _ _))

theorem runs_field (h : w.Session t m) {i : Nat} {c : FieldCell} (hc : t.fields[i]? = some c)
    {s : Script Value} (hs : c.field.content.script = some s) : w.Runs s := by
  obtain ⟨c₀, hc₀, he⟩ := h.sameShape.field hc
  have hscript : c.field.content.script = c₀.field.content.script :=
    congrArg (fun x => x.2.1) he
  exact .inl ⟨c₀, List.mem_of_getElem? hc₀, hscript ▸ hs⟩

theorem runs_style (h : w.Session t m) (hr : w.usage.renders) {i : Nat} {s : Style}
    (hs : t.styleAt? i = some s) {p : Property} {script : Script Value}
    (hp : (Property.get s p).script = some script) : w.Runs script := by
  obtain ⟨s₀, hs₀, he⟩ := h.sameShape.style hs
  obtain ⟨c₀, hc₀, rfl⟩ := Template.styleAt?_eq_some.1 hs₀
  have hscript : (Property.get s p).script = (Property.get c₀.style p).script :=
    congrArg (fun x => (x.2.2 p).1) he
  exact .inr ⟨hr, c₀, List.mem_of_getElem? hc₀, p, hscript ▸ hp⟩

/-- What updating a field of the card makes of it and of the machine. -/
theorem field_updated (h : w.Session t m) {i : Nat} {c : FieldCell} (hc : t.fields[i]? = some c)
    {mask : Changes} {f : Field} {m' : Machine}
    (hf : c.field.update w.budget false m = (.ok (mask, f), m')) :
    Stays w.budget w.Runs m m' ∧ ∃ changed content,
      Computed.Updated w.budget (c.field.inner m) c.field.content (changed, content) ∧
        f = { c.field with content } ∧ mask = if changed then .otherOnly else .none :=
  c.field.update_updated (fun _ hs => h.runs_field hc hs) hf

/-- What updating a style of the card makes of it and of the machine. -/
theorem restyled (h : w.Session t m) (hr : w.usage.renders) {i : Nat} {s s' : Style}
    (hs : t.styleAt? i = some s) {onlyContent : Bool} {mask : Changes} {m' : Machine}
    (hs' : s.update w.budget onlyContent m = (.ok (mask, s'), m')) :
    s.Restyled w.budget w.Runs onlyContent (fun _ => True) m mask.isEmpty s' m' :=
  Style.update_restyled (fun _ _ hp => h.runs_style hr hs hp) hs'

/-- Names keep their numbers, and the lists of dependents never change. -/
theorem later (h : w.Session t m) : w.machine.store.Later m.store := by
  induction h with
  | start => exact .refl _
  | work _ h' ih => exact ih.trans h'.later
  | enter _ ih => exact ih
  | leave _ _ _ _ ih => exact ih
  | restamp _ _ ih => exact ih
  | field h _ hc hf ih => exact ih.trans (h.field_updated hc hf).1.proceeds.later
  | style hr h _ hs hs' ih => exact ih.trans (h.restyled hr hs hs').stays.proceeds.later
  | edit _ _ _ ih => exact ih
  | measure _ _ _ _ ih => exact ih

theorem lists (h : w.Session t m) : m.store.dependents = w.lists := h.later.dependents

theorem stays (h : w.Session t m) {m' : Machine} (h' : Stays w.budget w.Runs m m') :
    w.Session t m' := h.work h'.proceeds

/-- Every card of a session can be shown. -/
theorem exists_shown (h : w.Session t m) : ∃ m', w.Session t m' ∧ t.Shown m' := by
  obtain ⟨m', -, hproceeds, hshown⟩ := t.run_bind_shown w.budget w.Runs m
  exact ⟨m', h.work hproceeds, hshown.shown⟩

theorem inner (h : w.Session t m) (f : Field) : w.Session t (f.inner m) :=
  h.enter.work ((Proceeds.refl _).bind (by decide) f.value)

end Session

theorem shown_inner {t : Template} {m : Machine} (h : t.Shown m) (f : Field) :
    t.Shown (f.inner m) := by
  obtain ⟨⟨st, hcard⟩, st', hstyles⟩ := h
  have hcard' : (Run.enterScope m).2.Binds "card" (t.fieldsValue st).1 := hcard
  have hstyles' : (Run.enterScope m).2.Binds "card style" (t.stylesValue st').1 := hstyles
  exact ⟨⟨st, hcard'.bound (by decide) _⟩, st', hstyles'.bound (by decide) _⟩

/-! ## Pure scripts -/

/-- What the script of a field gives depends only on the owners that list the field. -/
def PureField (w : Setup) (i : Nat) : Prop :=
  ∀ ⦃t t' : Template⦄ ⦃m m' : Machine⦄ ⦃c c' : FieldCell⦄, w.Session t m → w.Session t' m' →
    t.Shown m → t'.Shown m' → t.fields[i]? = some c → t'.fields[i]? = some c' →
    m.Binds "value" c.field.value → m'.Binds "value" c'.field.value →
    t.Agree w.lists ⟨.cardField, i⟩ true t' →
    Repeats c.field.value c'.field.value (c.field.content.gives w.budget m)
      (c'.field.content.gives w.budget m')

/-- What the script of a style's property gives depends only on the owners that list the style, and
on their measured content only if it is classified so. -/
def PureProperty (w : Setup) (i : Nat) (p : Property) : Prop :=
  ∀ ⦃t t' : Template⦄ ⦃m m' : Machine⦄ ⦃s s' : Style⦄, w.Session t m → w.Session t' m' →
    t.Shown m → t'.Shown m' → t.styleAt? i = some s → t'.styleAt? i = some s' →
    t.Agree w.lists ⟨.style, i⟩ (Property.get s p).readsContent t' →
    Repeats (Property.get s p).value (Property.get s' p).value
      ((Property.get s p).gives w.budget m) ((Property.get s' p).gives w.budget m')

/-- In every machine of the session that shows the card, the script of a field gives the stored value,
unless it fails. -/
def FieldUpToDate (w : Setup) (t : Template) (i : Nat) : Prop :=
  ∀ ⦃m : Machine⦄ ⦃c : FieldCell⦄, w.Session t m → t.Shown m → t.fields[i]? = some c →
    m.Binds "value" c.field.value → c.field.content.UpToDate w.budget m

/-- In every machine of the session that shows the card, the script of a property gives the stored
value, unless it fails. -/
def PropertyUpToDate (w : Setup) (t : Template) (i : Nat) (p : Property) : Prop :=
  ∀ ⦃m : Machine⦄ ⦃s : Style⦄, w.Session t m → t.Shown m → t.styleAt? i = some s →
    (Property.get s p).UpToDate w.budget m

section UpToDate

variable {w : Setup} {t t' : Template} {m m' : Machine} {i j : Nat} {p : Property}

theorem FieldUpToDate.sameCard (h : w.FieldUpToDate t i) (h' : t.SameCard t') :
    w.FieldUpToDate t' i := by
  intro m c' hsession hshown hc' hbinds
  obtain ⟨c, hc, he⟩ := h'.field hc'
  rw [← he] at hbinds ⊢
  exact h (hsession.restamp h'.symm) (h'.symm.shown hshown) hc hbinds

theorem PropertyUpToDate.sameCard (h : w.PropertyUpToDate t i p) (h' : t.SameCard t') :
    w.PropertyUpToDate t' i p := by
  intro m s hsession hshown hs
  rw [h'.styleAt?_eq] at hs
  exact h (hsession.restamp h'.symm) (h'.symm.shown hshown) hs

/-- A field stays up to date as long as nothing that lists it changes. -/
theorem FieldUpToDate.of_agree (h : w.FieldUpToDate t i) (hpure : w.PureField i)
    (hsession : w.Session t m) (hshape : t.SameShape t')
    (hagree : t.Agree w.lists ⟨.cardField, i⟩ true t')
    (hvalue : ∀ c c', t.fields[i]? = some c → t'.fields[i]? = some c' →
      c'.field.value = c.field.value) : w.FieldUpToDate t' i := by
  intro m' c' hsession' hshown' hc' hbinds'
  obtain ⟨c, hc, -⟩ := hshape.field hc'
  obtain ⟨m₁, hsession₁, hshown₁⟩ := hsession.exists_shown
  have hsession₂ := hsession₁.inner c.field
  have hshown₂ := shown_inner hshown₁ c.field
  have hbinds₂ : (c.field.inner m₁).Binds "value" c.field.value := Machine.binds_bound _ _ _
  exact (h hsession₂ hshown₂ hc hbinds₂).again
    (hpure hsession₂ hsession' hshown₂ hshown' hc hc' hbinds₂ hbinds' hagree) (hvalue c c' hc hc')

/-- A property stays up to date as long as nothing that lists its style changes. -/
theorem PropertyUpToDate.of_agree (h : w.PropertyUpToDate t i p) (hpure : w.PureProperty i p)
    (hsession : w.Session t m) (hshape : t.SameShape t')
    (hagree : ∀ s, t.styleAt? i = some s →
      t.Agree w.lists ⟨.style, i⟩ (Property.get s p).readsContent t')
    (hvalue : ∀ s s', t.styleAt? i = some s → t'.styleAt? i = some s' →
      (Property.get s' p).value = (Property.get s p).value) : w.PropertyUpToDate t' i p := by
  intro m' s' hsession' hshown' hs'
  obtain ⟨s, hs, -⟩ := hshape.style hs'
  obtain ⟨m₁, hsession₁, hshown₁⟩ := hsession.exists_shown
  exact (h hsession₁ hshown₁ hs).again
    (hpure hsession₁ hsession' hshown₁ hshown' hs hs' (hagree s hs)) (hvalue s s' hs hs')

/-- Updating a field brings it up to date, if that does not change what its script reads. -/
theorem fieldUpToDate_of_updated (hpure : w.PureField i) (hsession : w.Session t m)
    (hshown : t.Shown m) {c : FieldCell} (hc : t.fields[i]? = some c) {changed : Bool}
    {content : Computed Value}
    (hu : Computed.Updated w.budget (c.field.inner m) c.field.content (changed, content))
    (hagree : t.Agree w.lists ⟨.cardField, i⟩ true t')
    (hc' : ∀ c', t'.fields[i]? = some c' → c'.field.value = content.value) :
    w.FieldUpToDate t' i := by
  intro m' c' hsession' hshown' hget hbinds'
  exact hu.upToDate (hpure (hsession.inner c.field) hsession' (shown_inner hshown c.field) hshown'
    hc hget (Machine.binds_bound _ _ _) hbinds' hagree) (hc' c' hget)

/-- Updating a style brings the properties of the phase up to date, if that does not change what their
scripts read. -/
theorem propertyUpToDate_of_restyled (hpure : w.PureProperty i p) (hsession : w.Session t m)
    (hshown : t.ShownOpen m) {s s' : Style} (hs : t.styleAt? i = some s) {onlyContent noFlags : Bool}
    (hrestyled : s.Restyled w.budget w.Runs onlyContent (fun _ => True) m noFlags s' m')
    (hphase : (Property.get s p).readsContent = onlyContent)
    (hagree : t.Agree w.lists ⟨.style, i⟩ onlyContent t')
    (hs' : ∀ s₁, t'.styleAt? i = some s₁ →
      (Property.get s₁ p).value = (Property.get s' p).value) : w.PropertyUpToDate t' i p := by
  intro m₁ s₁ hsession₁ hshown₁ hget
  obtain ⟨mₚ, changed, hstays, htouched, -⟩ := hrestyled.touches p trivial
  unfold Style.Touched at htouched
  rw [if_pos hphase] at htouched
  have hsessionₚ := hsession.stays hstays
  have hshownₚ := (hstays.shownOpen hshown).shown
  exact htouched.upToDate (hpure hsessionₚ hsession₁ hshownₚ hshown₁ hs hget (hphase ▸ hagree))
    (hs' s₁ hget)

end UpToDate

end Setup

end ReactiveScript
