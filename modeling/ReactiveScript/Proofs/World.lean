import ReactiveScript.Proofs.Parts
import ReactiveScript.Proofs.Run

/-
  What a pass knows of the values it meets.

  A world says which identities were given out before the pass, what each later one stands for, and
  what else holds of every value; and it keeps what a pass never changes or only adds to. A machine
  fits a world if all its values are known in it. As a pass goes on the world grows (`Le`), and
  `After w B r` says that the result `r` of an evaluation fits a later world in which `B` holds.
-/

namespace ReactiveScript

/-- Neither the host nor a script author made this value itself. -/
def Value.Made : Value → Prop
  | .object _ (.host _) => False
  | .builtin _ _ => False
  | .script _ => False
  | _ => True

/-- The identity of every object in the value is below `n`. -/
def Value.IssuedBelow (n : Ident) (v : Value) : Prop :=
  v.Every fun u => ∀ id body, u = .object id body → id < n

/-- The store gave out the identity of every object that the machine holds. -/
structure Machine.Issued (m : Machine) : Prop where
  env : m.context.env.All (Value.IssuedBelow m.store.nextIdent)
  stack : ∀ v ∈ m.context.stack, v.IssuedBelow m.store.nextIdent
  iterations : ∀ it ∈ m.store.iterations, it.All (Value.IssuedBelow m.store.nextIdent)

/-- What is known at some point of a pass. -/
structure World where
  /-- The identities given out before. -/
  old : Ident → Prop
  /-- What the later ones stand for. -/
  body : Ident → ObjectBody Value
  /-- What else holds of every value; the pass itself makes nothing for which it could fail. -/
  allowed : Value → Prop
  allowed_of_made : ∀ v, v.Made → allowed v
  next : Ident
  dependents : Array (List Dependency)
  registry : Registry
  settings : Settings
  callDepth : Nat

namespace World

/-- A value that is allowed, and whose identity, if it is an object, is old or stands for it. -/
def Admits (w : World) (v : Value) : Prop :=
  w.allowed v ∧ ∀ id body, v = .object id body → w.old id ∨ (id < w.next ∧ body = w.body id)

/-- The world admits a value and all its parts. -/
def Knows (w : World) (v : Value) : Prop := v.Every w.Admits

/-- One list of dependents has all entries of another. -/
def Keeps (before after : Array (List Dependency)) : Prop :=
  after.size = before.size ∧
    ∀ (owner : OwnerId) dep, dep ∈ before[owner]?.getD [] → dep ∈ after[owner]?.getD []

/-- A later world: identities were given out and dependencies registered. -/
structure Le (w w' : World) : Prop where
  old : w'.old = w.old
  allowed : w'.allowed = w.allowed
  next : w.next ≤ w'.next
  body : ∀ id < w.next, w'.body id = w.body id
  dependents : Keeps w.dependents w'.dependents
  registry : w'.registry = w.registry
  settings : w'.settings = w.settings
  callDepth : w'.callDepth = w.callDepth

theorem Keeps.refl (list : Array (List Dependency)) : Keeps list list := ⟨rfl, fun _ _ h => h⟩

theorem Keeps.trans {a b c : Array (List Dependency)} (h : Keeps a b) (h' : Keeps b c) :
    Keeps a c :=
  ⟨h'.1.trans h.1, fun owner dep hd => h'.2 owner dep (h.2 owner dep hd)⟩

theorem Le.refl (w : World) : w.Le w :=
  ⟨rfl, rfl, Nat.le_refl _, fun _ _ => rfl, .refl _, rfl, rfl, rfl⟩

theorem Le.trans {a b c : World} (h : a.Le b) (h' : b.Le c) : a.Le c where
  old := h'.old.trans h.old
  allowed := h'.allowed.trans h.allowed
  next := Nat.le_trans h.next h'.next
  body id hid := (h'.body id (Nat.lt_of_lt_of_le hid h.next)).trans (h.body id hid)
  dependents := h.dependents.trans h'.dependents
  registry := h'.registry.trans h.registry
  settings := h'.settings.trans h.settings
  callDepth := h'.callDepth.trans h.callDepth

theorem Le.admits {w w' : World} (h : w.Le w') {v : Value} (hv : w.Admits v) : w'.Admits v := by
  refine ⟨h.allowed ▸ hv.1, fun id body e => ?_⟩
  rcases hv.2 id body e with ho | ⟨hlt, hb⟩
  · exact .inl (h.old ▸ ho)
  · exact .inr ⟨Nat.lt_of_lt_of_le hlt h.next, hb.trans (h.body id hlt).symm⟩

theorem Le.knows {w w' : World} (h : w.Le w') {v : Value} (hv : w.Knows v) : w'.Knows v :=
  hv.mono fun _ => h.admits

/-- A value the pass may make, whose parts are known, is known unless it is an object. -/
theorem knows_made {w : World} {v : Value} (hv : v.Made) (ho : ∀ id body, v ≠ .object id body)
    (hc : ∀ c ∈ v.children, w.Knows c) : w.Knows v :=
  .intro ⟨w.allowed_of_made v hv, fun id body e => absurd e (ho id body)⟩ hc

theorem knows_nil (w : World) : w.Knows .nil :=
  knows_made trivial (fun _ _ h => by cases h) fun _ h => by cases h

theorem knows_error (w : World) (e : EvalError) : w.Knows (.error e) :=
  knows_made trivial (fun _ _ h => by cases h) fun _ h => by cases h

theorem knows_iterator (w : World) (handle : Nat) : w.Knows (.iterator handle) :=
  knows_made trivial (fun _ _ h => by cases h) fun _ h => by cases h

theorem knows_int (w : World) (n : Int64) : w.Knows (.int n) :=
  knows_made trivial (fun _ _ h => by cases h) fun _ h => by cases h

theorem knows_string (w : World) (s : String) : w.Knows (.string s) :=
  knows_made trivial (fun _ _ h => by cases h) fun _ h => by cases h

/-- The world in which the next identity stands for an object. -/
def extend (w : World) (body : ObjectBody Value) : World :=
  { w with next := w.next + 1, body := fun id => if id = w.next then body else w.body id }

theorem le_extend (w : World) (body : ObjectBody Value) : w.Le (w.extend body) := by
  refine ⟨rfl, rfl, Nat.le_succ _, fun id hid => if_neg ?_, .refl _, rfl, rfl, rfl⟩
  exact Nat.ne_of_lt hid

theorem knows_extend {w : World} {body : ObjectBody Value}
    (hm : (Value.object w.next body).Made)
    (hc : ∀ c ∈ (Value.object w.next body).children, w.Knows c) :
    (w.extend body).Knows (.object w.next body) := by
  refine .intro ⟨w.allowed_of_made _ hm, fun id b e => .inr ?_⟩ fun c h =>
    (w.le_extend body).knows (hc c h)
  cases e
  exact ⟨Nat.lt_succ_self _, (if_pos rfl).symm⟩

/-- The store of a machine that fits the world. -/
structure FitsStore (w : World) (st : Store) : Prop where
  next : st.nextIdent = w.next
  dependents : st.dependents = w.dependents
  iterations : ∀ it ∈ st.iterations, it.All w.Knows

/-- All values of the machine are known. -/
structure Fits (w : World) (m : Machine) : Prop where
  store : w.FitsStore m.store
  env : m.context.env.All w.Knows
  stack : ∀ v ∈ m.context.stack, w.Knows v
  registry : m.context.registry = w.registry
  settings : m.context.settings = w.settings
  callDepth : m.context.callDepth = w.callDepth

/-- The world in which the next identity went to something that is no object. -/
def skip (w : World) : World := { w with next := w.next + 1 }

theorem le_skip (w : World) : w.Le w.skip :=
  ⟨rfl, rfl, Nat.le_succ _, fun _ _ => rfl, .refl _, rfl, rfl, rfl⟩

theorem all_iteration_mono {P Q : Value → Prop} (hPQ : ∀ v, P v → Q v) {it : Iteration}
    (h : it.All P) : it.All Q := by
  cases it with
  | collection items pos => exact fun v hv => hPQ v (h v hv)
  | host source drawn => exact fun i entry he => ⟨hPQ _ (h i entry he).1, hPQ _ (h i entry he).2⟩
  | range _ _ _ => trivial
  | empty => trivial

theorem FitsStore.extend {w : World} {st : Store} (h : w.FitsStore st) (body : ObjectBody Value) :
    (w.extend body).FitsStore { st with nextIdent := st.nextIdent + 1 } :=
  ⟨congrArg (· + 1) h.next, h.dependents, fun it hit =>
    all_iteration_mono (fun _ => (w.le_extend body).knows) (h.iterations it hit)⟩

theorem FitsStore.skip {w : World} {st : Store} (h : w.FitsStore st) :
    w.skip.FitsStore { st with nextIdent := st.nextIdent + 1 } :=
  ⟨congrArg (· + 1) h.next, h.dependents, fun it hit =>
    all_iteration_mono (fun _ => w.le_skip.knows) (h.iterations it hit)⟩

/-! ## After an evaluation -/

variable {α β : Type} {w : World}

/-- The store that is left fits a later world, in which `B` holds of the value. -/
def AfterStore (w : World) (B : α → World → Prop) (r : α × Store) : Prop :=
  ∃ w', w.Le w' ∧ w'.FitsStore r.2 ∧ B r.1 w'

/-- If the evaluation came to a value, its machine fits a later world, and `B` holds of the three. -/
def After (w : World) (B : α → World → Machine → Prop) (r : Except Stop α × Machine) : Prop :=
  ∀ a, r.1 = .ok a → ∃ w', w.Le w' ∧ w'.Fits r.2 ∧ B a w' r.2

theorem AfterStore.bind {B : α → World → Prop} {C : β → World → Prop} {x : StateM Store α}
    {f : α → StateM Store β} {st : Store} (hx : AfterStore w B (x st))
    (hf : ∀ a w' st', w.Le w' → w'.FitsStore st' → B a w' → AfterStore w' C (f a st')) :
    AfterStore w C ((x >>= f) st) := by
  obtain ⟨w₁, hle, hfit, hB⟩ := hx
  obtain ⟨w₂, hle₂, hfit₂, hC⟩ := hf _ w₁ _ hle hfit hB
  exact ⟨w₂, hle.trans hle₂, hfit₂, hC⟩

theorem afterStore_pure {B : α → World → Prop} {st : Store} (h : w.FitsStore st) {a : α}
    (hB : B a w) : AfterStore w B ((pure a : StateM Store α) st) := ⟨w, .refl w, h, hB⟩

theorem AfterStore.mono {B B' : α → World → Prop} {r : α × Store} (h : AfterStore w B r)
    (hB : ∀ a w', w.Le w' → B a w' → B' a w') : AfterStore w B' r := by
  obtain ⟨w', hle, hfit, h⟩ := h
  exact ⟨w', hle, hfit, hB _ w' hle h⟩

variable {B B' : α → World → Machine → Prop} {C : β → World → Machine → Prop}

theorem After.bind {x : Run α} {f : α → Run β} {m : Machine} (hx : After w B (x m))
    (hf : ∀ a w' m', w.Le w' → w'.Fits m' → B a w' m' → After w' C (f a m')) :
    After w C ((x >>= f) m) := by
  intro b hb
  rw [Run.run_bind] at hb ⊢
  generalize x m = out at hx hb ⊢
  rcases out with ⟨stop | a, m₁⟩
  · cases hb
  · obtain ⟨w₁, hle, hfit, hB⟩ := hx a rfl
    obtain ⟨w₂, hle₂, hfit₂, hC⟩ := hf a w₁ m₁ hle hfit hB b hb
    exact ⟨w₂, hle.trans hle₂, hfit₂, hC⟩

/-- The first part of a sequence is known exactly. -/
theorem After.bind_ok {x : Run α} {f : α → Run β} {m m' : Machine} {a : α}
    (hx : x m = (.ok a, m')) (hf : After w C (f a m')) : After w C ((x >>= f) m) := by
  rw [Run.run_bind_ok hx]
  exact hf

theorem after_pure {m : Machine} (h : w.Fits m) {a : α} (hB : B a w m) :
    After w B ((pure a : Run α) m) := by
  intro b hb
  cases hb
  exact ⟨w, .refl w, h, hB⟩

theorem after_fail {m : Machine} (e : EvalError) : After w B ((Run.fail e : Run α) m) :=
  fun _ h => by cases h

theorem After.mono {r : Except Stop α × Machine} (h : After w B r)
    (hB : ∀ a w' m', w.Le w' → B a w' m' → B' a w' m') : After w B' r := by
  intro a ha
  obtain ⟨w', hle, hfit, h⟩ := h a ha
  exact ⟨w', hle, hfit, hB a w' _ hle h⟩

/-- A result that was computed without the machine. -/
theorem after_except {x : Except EvalError α} {f : α → Run β} {m : Machine}
    (h : ∀ a, x = .ok a → After w C (f a m)) : After w C ((Run.ofExcept x >>= f) m) := by
  cases x with
  | ok a => exact After.bind_ok rfl (h a rfl)
  | error e => exact fun _ h => by cases h

/-- The rest of the machine fits any later world. -/
theorem Fits.later {w' : World} {m : Machine} {st : Store} (h : w.Fits m) (hle : w.Le w')
    (hst : w'.FitsStore st) : w'.Fits { m with store := st } where
  store := hst
  env := h.env.mono fun _ => hle.knows
  stack v hv := hle.knows (h.stack v hv)
  registry := h.registry.trans hle.registry.symm
  settings := h.settings.trans hle.settings.symm
  callDepth := h.callDepth.trans hle.callDepth.symm

/-- What is done to the store leaves the context as it is. -/
theorem after_store {B : α → World → Prop} {x : StateM Store α} {m : Machine} (h : w.Fits m)
    (hx : AfterStore w B (x m.store)) :
    After w (fun a w' m' => B a w' ∧ m'.context = m.context) (Run.store x m) := by
  intro a ha
  obtain ⟨w', hle, hfit, hB⟩ := hx
  cases ha
  exact ⟨w', hle, h.later hle hfit, hB, rfl⟩

/-- Operations on operands and variables, which stay known. -/
theorem Fits.setStack {m : Machine} (h : w.Fits m) {stack : List Value}
    (hs : ∀ v ∈ stack, w.Knows v) :
    w.Fits { m with context := { m.context with stack } } :=
  ⟨h.store, h.env, hs, h.registry, h.settings, h.callDepth⟩

theorem Fits.setEnv {m : Machine} (h : w.Fits m) {env : Environment} (he : env.All w.Knows) :
    w.Fits { m with context := { m.context with env } } :=
  ⟨h.store, he, h.stack, h.registry, h.settings, h.callDepth⟩

end World

end ReactiveScript
