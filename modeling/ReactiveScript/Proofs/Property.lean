import ReactiveScript.Card.Render
import ReactiveScript.Proofs.Run

/-
  Properties of styles, and what updating a computed value does.

  A style is a record of seven computed values of three types; `Property` numbers them, so that what
  holds of each is said once. `Updated` relates a computed value to what an update makes of it, given
  what its script gives.
-/

namespace ReactiveScript

/-- The properties of a style. -/
inductive Property
  | left | top | width | height | angle | visible | mask
  deriving DecidableEq, Repr

namespace Property

/-- The properties in order. -/
def all : List Property := [left, top, width, height, angle, visible, mask]

/-- The type of a property's values. -/
abbrev Carrier : Property → Type
  | visible => Bool
  | mask => String
  | _ => Float

instance (p : Property) : HostValue p.Carrier :=
  match p with
  | left => inferInstanceAs (HostValue Float)
  | top => inferInstanceAs (HostValue Float)
  | width => inferInstanceAs (HostValue Float)
  | height => inferInstanceAs (HostValue Float)
  | angle => inferInstanceAs (HostValue Float)
  | visible => inferInstanceAs (HostValue Bool)
  | mask => inferInstanceAs (HostValue String)

/-- The name of a property. -/
def name : Property → String
  | left => "left"
  | top => "top"
  | width => "width"
  | height => "height"
  | angle => "angle"
  | visible => "visible"
  | mask => "mask"

/-- What a change of the property changes. -/
def flag : Property → Changes
  | visible => .otherOnly
  | mask => .maskOnly
  | _ => .sizeOnly

/-- A property of a style. -/
def get (s : Style) : (p : Property) → Computed p.Carrier
  | left => s.left
  | top => s.top
  | width => s.width
  | height => s.height
  | angle => s.angle
  | visible => s.visible
  | mask => s.mask

/-- The style with another value of a property. -/
def put (s : Style) : (p : Property) → Computed p.Carrier → Style
  | left, c => { s with left := c }
  | top, c => { s with top := c }
  | width, c => { s with width := c }
  | height, c => { s with height := c }
  | angle, c => { s with angle := c }
  | visible, c => { s with visible := c }
  | mask, c => { s with mask := c }

theorem get_put_self (s : Style) (p : Property) (c : Computed p.Carrier) :
    get (put s p c) p = c := by
  cases p <;> rfl

theorem get_put_of_ne (s : Style) {p q : Property} (h : p ≠ q) (c : Computed p.Carrier) :
    get (put s p c) q = get s q := by
  cases p <;> cases q <;> first | rfl | exact absurd rfl h

/-- A change of any property is a change. -/
theorem isEmpty_flag (p : Property) : p.flag.isEmpty = false := by cases p <;> rfl

theorem mem_all (p : Property) : p ∈ all := by cases p <;> decide

theorem nodup_all : all.Nodup := by decide

end Property

theorem Changes.isEmpty_union (a b : Changes) : (a ∪ b).isEmpty = (a.isEmpty && b.isEmpty) := by
  rcases a with ⟨_ | _, _ | _, _ | _⟩ <;> rcases b with ⟨_ | _, _ | _, _ | _⟩ <;> rfl

/-- The styles agree in everything but their properties. -/
structure Style.SameFrame (s s' : Style) : Prop where
  name : s'.name = s.name
  content : s'.content = s.content
  dependents : s'.dependents = s.dependents
  listeners : s'.listeners = s.listeners

theorem Style.SameFrame.refl (s : Style) : s.SameFrame s := ⟨rfl, rfl, rfl, rfl⟩

theorem Style.SameFrame.trans {a b c : Style} (h : a.SameFrame b) (h' : b.SameFrame c) :
    a.SameFrame c :=
  ⟨h'.name.trans h.name, h'.content.trans h.content, h'.dependents.trans h.dependents,
    h'.listeners.trans h.listeners⟩

theorem Style.sameFrame_put (s : Style) (p : Property) (c : Computed p.Carrier) :
    s.SameFrame (Property.put s p c) := by
  cases p <;> exact ⟨rfl, rfl, rfl, rfl⟩

theorem Style.SameFrame.eq {s s' : Style} (h : s.SameFrame s')
    (hp : ∀ p, Property.get s' p = Property.get s p) : s' = s := by
  obtain ⟨hname, hcontent, hdependents, hlisteners⟩ := h
  cases s
  cases s'
  have hleft := hp .left
  have htop := hp .top
  have hwidth := hp .width
  have hheight := hp .height
  have hangle := hp .angle
  have hvisible := hp .visible
  have hmask := hp .mask
  dsimp only [Property.get] at *
  subst hname hcontent hdependents hlisteners hleft htop hwidth hheight hangle hvisible hmask
  rfl

/-- Going over the properties is a fold that replaces one after the other. -/
theorem Style.mapProperties_eq {m : Type → Type} [Monad m] [LawfulMonad m]
    (f : {α : Type} → [HostValue α] → String → Changes → Computed α → m (Computed α))
    (s : Style) :
    s.mapProperties f = Property.all.foldlM (fun s p => do
      return Property.put s p (← f p.name p.flag (Property.get s p))) s := by
  unfold Style.mapProperties
  simp only [Property.all, List.foldlM_cons, List.foldlM_nil, bind_assoc, pure_bind]
  rfl

namespace Computed

variable {α : Type} [HostValue α]

/-- Evaluate a script for a host value. -/
def evaluate (α : Type) [HostValue α] (budget : Nat) (s : Script Value) : Run α := do
  Run.ofExcept (HostValue.ofValue (← Run.eval budget s true))

/-- What the script of a computed value gives, unless it fails. -/
def gives (budget : Nat) (p : Computed α) (m : Machine) : Option α :=
  match p.script with
  | some s =>
    match (evaluate α budget s m).1 with
    | .ok x => some x
    | .error _ => none
  | none => none

/-- What an update makes of a computed value: nothing if the script gives nothing. -/
def Updated (budget : Nat) (m : Machine) (p : Computed α) (r : Bool × Computed α) : Prop :=
  match p.gives budget m with
  | some x => r = p.replace x
  | none => r = (false, p)

variable {budget : Nat} {m m' : Machine} {p p' : Computed α} {changed : Bool}

theorem gives_of_unscripted (h : p.script = none) : p.gives budget m = none := by
  unfold gives
  rw [h]

theorem updated_of_unscripted (h : p.script = none) : Updated budget m p (false, p) := by
  unfold Updated
  rw [gives_of_unscripted h]

theorem replace_snd (p : Computed α) (x : α) :
    (p.replace x).2 = p ∨ (p.replace x).2 = p.setValue x := by
  unfold replace
  split
  · exact .inl rfl
  · exact .inr rfl

/-- An update replaces at most the value. -/
theorem Updated.fixes (h : Updated budget m p (changed, p')) :
    p'.script = p.script ∧ p'.readsContent = p.readsContent := by
  unfold Updated at h
  cases hx : p.gives budget m with
  | none =>
    rw [hx] at h
    cases h
    exact ⟨rfl, rfl⟩
  | some x =>
    rw [hx] at h
    have hp : p' = (p.replace x).2 := congrArg Prod.snd h
    rcases p.replace_snd x with e | e <;> rw [hp, e] <;> exact ⟨rfl, rfl⟩

/-- An update that reports no change made none. -/
theorem Updated.eq_of_unchanged (h : Updated budget m p (false, p')) : p' = p := by
  unfold Updated at h
  cases hx : p.gives budget m with
  | none =>
    rw [hx] at h
    cases h
    rfl
  | some x =>
    rw [hx] at h
    dsimp only at h
    unfold replace at h
    split at h
    · cases h
      rfl
    · cases h

/-- An update that reports a change stored another value. -/
theorem Updated.same_of_changed (h : Updated budget m p (true, p')) :
    HostValue.same p'.value p.value = false := by
  unfold Updated at h
  cases hx : p.gives budget m with
  | none =>
    rw [hx] at h
    cases h
  | some x =>
    rw [hx] at h
    dsimp only at h
    unfold replace at h
    split at h
    · cases h
    · next hsame =>
      cases h
      exact (Bool.not_eq_true _).mp hsame

/-- The script gives what is stored, unless it gives nothing. -/
def UpToDate (budget : Nat) (p : Computed α) (m : Machine) : Prop :=
  ∀ x, p.gives budget m = some x → HostValue.same x p.value = true

/-- Updating what is up to date changes nothing. -/
theorem UpToDate.unchanged (h : p.UpToDate budget m) (hu : Updated budget m p (changed, p')) :
    changed = false ∧ p' = p := by
  unfold Updated at hu
  cases hx : p.gives budget m with
  | none =>
    rw [hx] at hu
    cases hu
    exact ⟨rfl, rfl⟩
  | some x =>
    rw [hx] at hu
    dsimp only at hu
    unfold replace at hu
    rw [if_pos (h x hx)] at hu
    cases hu
    exact ⟨rfl, rfl⟩

end Computed

end ReactiveScript
