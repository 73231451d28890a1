import ReactiveScript.Proofs.Frame
import ReactiveScript.Proofs.Operations
import ReactiveScript.Tracking.Walk

/-
  What a pass does to operands and paths.

  Operations on the frame are exact: with the frame `f` above `below`, each says what the frame
  becomes. A path that is resumed or joined leads to a machine whose values are known
  (`Fits.resumed`, `after_mergePath`); after a join, operands and variables cover what they covered on
  either path (`Covering`).
-/

namespace ReactiveScript

/-- The machine with other operands. -/
def Machine.withStack (m : Machine) (stack : List Value) : Machine :=
  { m with context := { m.context with stack } }

theorem Machine.withStack_self {m : Machine} {stack : List Value}
    (h : m.context.stack = stack) : m.withStack stack = m := by
  subst h
  rfl

namespace Run

variable {base : Nat} {below f : List Value} {m : Machine}

theorem frame_eq (m : Machine) :
    frame base m = (.ok (m.context.stack.take (m.context.stack.length - base)), m) := rfl

theorem bottom_append (hb : below.length = base) : bottom base (f ++ below) = below := by
  have e : (f ++ below).length - base = f.length := by
    rw [List.length_append]; omega
  rw [bottom, e, List.drop_left]

theorem take_append (hb : below.length = base) :
    (f ++ below).take ((f ++ below).length - base) = f := by
  have e : (f ++ below).length - base = f.length := by
    rw [List.length_append]; omega
  rw [e, List.take_left]

theorem run_frame (hs : m.context.stack = f ++ below) (hb : below.length = base) :
    frame base m = (.ok f, m) := by
  rw [frame_eq, hs, take_append hb]

theorem setFrame_eq (frame : List Value) (m : Machine) :
    setFrame base frame m = (.ok (), m.withStack (frame ++ bottom base m.context.stack)) := rfl

theorem push_eq (v : Value) (m : Machine) :
    push v m = (.ok (), m.withStack (v :: m.context.stack)) := rfl

theorem bindVariable_eq (var : Variable) (v : Value) (m : Machine) :
    bindVariable var v m = (.ok (), m.withEnv (m.context.env.set var v)) := rfl

/-- Taking the top of the frame: nil if the frame is empty. -/
theorem takeOrNil_eq (base : Nat) (m : Machine) :
    ∃ v stack, takeOrNil base m = (.ok v, m.withStack stack) ∧
      (∀ P : Value → Prop, P .nil → (∀ x ∈ m.context.stack, P x) → P v ∧ ∀ x ∈ stack, P x) ∧
      ∀ f below, below.length = base → m.context.stack = f ++ below →
        stack = f.tail ++ below ∧ v = f.headD .nil := by
  unfold takeOrNil
  rw [run_bind_ok (run_operands m)]
  cases hs : m.context.stack with
  | nil =>
    refine ⟨.nil, [], by rw [Machine.withStack_self hs]; rfl, fun P hn hP => ⟨hn, hP⟩,
      fun f below _ he => ?_⟩
    obtain ⟨rfl, rfl⟩ := List.append_eq_nil_iff.1 he.symm
    exact ⟨rfl, rfl⟩
  | cons v rest =>
    by_cases hb : base ≤ rest.length
    · simp only [if_pos hb]
      refine ⟨v, rest, rfl, fun P _ hP => ⟨hP v List.mem_cons_self, fun x hx =>
        hP x (List.mem_cons_of_mem _ hx)⟩, fun f below hl he => ?_⟩
      cases f with
      | nil =>
        have := congrArg List.length he
        simp only [List.length_cons, List.nil_append] at this
        omega
      | cons u f =>
        rw [List.cons_append] at he
        injection he with h1 h2
        exact ⟨h2, h1⟩
    · simp only [if_neg hb]
      refine ⟨.nil, v :: rest, by rw [Machine.withStack_self hs]; rfl, fun P hn hP => ⟨hn, hP⟩,
        fun f below hl he => ?_⟩
      cases f with
      | nil => exact ⟨he, rfl⟩
      | cons u f =>
        have := congrArg List.length he
        simp only [List.length_cons, List.cons_append, List.length_append] at this
        omega

/-- Taking several operands, the lowest first. -/
theorem takeManyOrNil_eq (base n : Nat) (m : Machine) :
    ∃ vs stack, takeManyOrNil base n m = (.ok vs, m.withStack stack) ∧
      (∀ P : Value → Prop, P .nil → (∀ x ∈ m.context.stack, P x) →
        (∀ x ∈ vs, P x) ∧ ∀ x ∈ stack, P x) ∧
      ∀ f below, below.length = base → m.context.stack = f ++ below →
        stack = f.drop n ++ below ∧ (n ≤ f.length → vs = (f.take n).reverse) := by
  induction n generalizing m with
  | zero =>
    refine ⟨[], m.context.stack, rfl, fun P _ hP => ⟨fun x hx => (by cases hx), hP⟩, ?_⟩
    exact fun f below _ he => ⟨he, fun _ => rfl⟩
  | succ n ih =>
    obtain ⟨v, stack₁, hrun₁, hP₁, hf₁⟩ := takeOrNil_eq base m
    obtain ⟨vs, stack₂, hrun₂, hP₂, hf₂⟩ := ih (m.withStack stack₁)
    refine ⟨vs ++ [v], stack₂, ?_, fun P hn hP => ?_, fun f below hl he => ?_⟩
    · unfold takeManyOrNil
      rw [run_bind_ok hrun₁, run_bind_ok hrun₂]
      rfl
    · obtain ⟨hv, hstack₁⟩ := hP₁ P hn hP
      obtain ⟨hvs, hstack₂⟩ := hP₂ P hn hstack₁
      refine ⟨fun x hx => ?_, hstack₂⟩
      rcases List.mem_append.1 hx with hx | hx
      · exact hvs x hx
      · exact List.mem_singleton.1 hx ▸ hv
    · obtain ⟨hs₁, hv⟩ := hf₁ f below hl he
      obtain ⟨hs₂, hvs⟩ := hf₂ f.tail below hl hs₁
      rw [List.drop_tail] at hs₂
      refine ⟨hs₂, fun hn => ?_⟩
      cases f with
      | nil => cases hn
      | cons u f =>
        rw [hvs (Nat.le_of_succ_le_succ hn), hv]
        simp

theorem peekOrNil_eq (base : Nat) (m : Machine) :
    ∃ v, peekOrNil base m = (.ok v, m) ∧
      (∀ P : Value → Prop, P .nil → (∀ x ∈ m.context.stack, P x) → P v) ∧
      ∀ f below, below.length = base → m.context.stack = f ++ below → v = f.headD .nil := by
  refine ⟨_, rfl, fun P hn hP => ?_, fun f below hl he => ?_⟩
  · cases hh : (m.context.stack.take (m.context.stack.length - base)).head? with
    | none => exact hn
    | some v => exact hP v (List.mem_of_mem_take (List.mem_of_mem_head? hh))
  · rw [he, take_append hl]
    cases f <;> rfl

/-- The top of the frame, if there is one. -/
theorem take_eq (hb : below.length = base) (hs : m.context.stack = f ++ below) :
    takeOrNil base m = (.ok (f.headD .nil), m.withStack (f.tail ++ below)) := by
  obtain ⟨v, stack, hrun, -, hf⟩ := takeOrNil_eq base m
  obtain ⟨hstack, hv⟩ := hf f below hb hs
  rw [hrun, hstack, hv]

theorem takeMany_eq (hb : below.length = base) (hs : m.context.stack = f ++ below) {n : Nat}
    (hn : n ≤ f.length) :
    takeManyOrNil base n m = (.ok (f.take n).reverse, m.withStack (f.drop n ++ below)) := by
  obtain ⟨vs, stack, hrun, -, hf⟩ := takeManyOrNil_eq base n m
  obtain ⟨hstack, hvs⟩ := hf f below hb hs
  rw [hrun, hstack, hvs hn]

/-- Operands that are left are known. -/
theorem fits_withoutTop {w : World} (h : w.Fits m) (hs : m.context.stack = f ++ below)
    {g : List Value} (hg : ∀ v ∈ g, v ∈ f) : w.Fits (m.withStack (g ++ below)) := by
  refine h.setStack fun v hv => h.stack v ?_
  rw [hs]
  rcases List.mem_append.1 hv with hv | hv
  · exact List.mem_append_left _ (hg v hv)
  · exact List.mem_append_right _ hv

theorem knows_headD {w : World} (h : w.Fits m) (hs : m.context.stack = f ++ below) {g : List Value}
    (hg : ∀ v ∈ g, v ∈ f) : w.Knows (g.headD .nil) := by
  cases g with
  | nil => exact World.knows_nil w
  | cons v g =>
    refine h.stack v ?_
    rw [hs]
    exact List.mem_append_left _ (hg v List.mem_cons_self)

end Run

/-! ## Paths that wait -/

/-- The values that a waiting path has put aside are known. -/
structure World.KnowsPath (w : World) (path : WaitingPath) : Prop where
  frame : ∀ v ∈ path.frame, w.Knows v
  bindings : ∀ var v, (var, some v) ∈ path.bindings → w.Knows v

theorem World.Le.knowsPath {w w' : World} (h : w.Le w') {path : WaitingPath}
    (hp : w.KnowsPath path) : w'.KnowsPath path :=
  ⟨fun v hv => h.knows (hp.frame v hv), fun var v hv => h.knows (hp.bindings var v hv)⟩

/-- What holds of two known values holds of what may be either. -/
def World.Joins (w : World) (P : Value → Prop) : Prop :=
  ∀ w' a b v, w.Le w' → w'.Knows a → w'.Knows b → EitherOf w.old a b v → P a → P b → P v

/-- The variable is bound to what may be the node. -/
def Environment.CoversAt (env : Environment) (old : Ident → Prop) (var : Variable) (g : Node) :
    Prop :=
  ∃ v, env.get? var = some v ∧ Covers old g v

namespace Run

open World

variable {w : World} {m : Machine} {r : Region}

theorem suspendPath_eq (r : Region) (target : Nat) (m : Machine) :
    suspendPath r target m = (.ok ⟨target,
      m.context.stack.take (m.context.stack.length - r.base),
      m.context.env.reboundSince r.mark⟩, m) := rfl

theorem knowsPath_suspended (h : w.Fits m) (r : Region) (target : Nat) :
    w.KnowsPath ⟨target, m.context.stack.take (m.context.stack.length - r.base),
      m.context.env.reboundSince r.mark⟩ :=
  ⟨fun v hv => h.stack v (List.mem_of_mem_take hv), fun _ _ hv => h.env.reboundSince hv⟩

theorem mem_boundOnly {bindings : List (Variable × Option Value)} {var : Variable} {v : Value} :
    (var, v) ∈ boundOnly bindings ↔ (var, some v) ∈ bindings := by
  unfold boundOnly
  rw [List.mem_filterMap]
  refine ⟨fun ⟨b, hb, he⟩ => ?_, fun h => ⟨_, h, rfl⟩⟩
  obtain ⟨u, hu, he⟩ := Option.map_eq_some_iff.1 he
  injection he with h1 h2
  subst h1 h2
  rw [← hu]
  exact hb

theorem fits_resumed (h : w.Fits m) {path : WaitingPath} (hp : w.KnowsPath path) (r : Region) :
    w.Fits ((m.withStack (path.frame ++ bottom r.base m.context.stack)).withEnv
      ((m.context.env.unwindTo r.mark).setAll (boundOnly path.bindings))) := by
  have hs : w.Fits (m.withStack (path.frame ++ bottom r.base m.context.stack)) := by
    refine h.setStack fun v hv => ?_
    rcases List.mem_append.1 hv with hv | hv
    · exact hp.frame v hv
    · exact h.stack v (List.mem_of_mem_drop hv)
  refine hs.setEnv ((h.env.unwindTo r.mark).setAll fun b hb => ?_)
  exact hp.bindings b.1 b.2 (mem_boundOnly.1 hb)

/-- What joining the variables of a path gives. -/
structure MergedBindings (w : World) (m : Machine) (bindings : Bindings) (m' : Machine) :
    Prop where
  stack : m'.context.stack = m.context.stack
  env : ∃ added : Bindings, m'.context.env = m.context.env.setAll added ∧
    ∀ b ∈ added, b.1 ∈ Assoc.keys bindings
  covers : w.Separates → ∀ var g, (m.context.env.CoversAt w.old var g ∨
    ∃ v, (var, v) ∈ bindings ∧ Covers w.old g v) → m'.context.env.CoversAt w.old var g
  joins : w.Separates → ∀ (P : Value → Prop) var v, w.Joins P → m.context.env.get? var = some v →
    P v → (∀ u, (var, u) ∈ bindings → P u) → ∃ v', m'.context.env.get? var = some v' ∧ P v'

/-- Binding a variable to what covers both its value and another one. -/
theorem coversAt_set {env : Environment} {old : Ident → Prop} {x var : Variable} {g : Node}
    {joined other : Value}
    (hj : ∀ current, env.get? x = some current → Covers old g current → Covers old g joined)
    (ho : Covers old g other → Covers old g joined)
    (h : env.CoversAt old var g ∨ var = x ∧ Covers old g other) :
    (env.set x joined).CoversAt old var g := by
  unfold Environment.CoversAt
  rw [Environment.get?_set]
  by_cases hx : x = var
  · subst hx
    refine ⟨joined, if_pos rfl, ?_⟩
    rcases h with ⟨v, hv, hc⟩ | ⟨-, hc⟩
    · exact hj v hv hc
    · exact ho hc
  · rw [if_neg hx]
    rcases h with h | ⟨he, -⟩
    · exact h
    · exact absurd he.symm hx

/-- What a variable is bound to when a path brings a value for it: to that, joined with what it was
bound to before. -/
def JoinsInto (w : World) (env : Environment) (x : Variable) (other joined : Value) : Prop :=
  env.get? x = none ∧ joined = other ∨ ∃ current, env.get? x = some current ∧
    (w.Separates → EitherOf w.old current other joined)

section JoinsInto

variable {w₁ : World} {m₁ m₂ : Machine} {env : Environment} {x var : Variable} {other joined v : Value}
  {rest : Bindings}

/-- The variables cover what they covered, and what the path brings. -/
theorem JoinsInto.covers (h : JoinsInto w env x other joined) (hs : w.Separates)
    (hcurrent : ∀ current, env.get? x = some current → w.Knows current) (hother : w.Knows other)
    {g : Node} (hc : env.CoversAt w.old var g ∨ var = x ∧ Covers w.old g other) :
    (env.set x joined).CoversAt w.old var g := by
  rcases h with ⟨hx, rfl⟩ | ⟨current, hx, heither⟩
  · exact coversAt_set (fun current hcurrent => by rw [hx] at hcurrent; cases hcurrent) id hc
  · have hknown := hcurrent current hx
    refine coversAt_set (fun current' hx' hcovers => ?_) (fun hcovers => ?_) hc
    · rw [hx] at hx'
      cases hx'
      exact (heither hs).covers hknown hother (.inl hcovers)
    · exact (heither hs).covers hknown hother (.inr hcovers)

/-- What joins preserve of the value of a variable holds of its new value. -/
theorem JoinsInto.keeps (h : JoinsInto w env x other joined) (hs : w.Separates)
    (hcurrent : ∀ current, env.get? x = some current → w.Knows current) (hother : w.Knows other)
    {P : Value → Prop} (hP : w.Joins P) (hv : env.get? var = some v) (hPv : P v)
    (hPother : var = x → P other) : ∃ u, (env.set x joined).get? var = some u ∧ P u := by
  rw [Environment.get?_set]
  by_cases hx : x = var
  · subst hx
    refine ⟨joined, if_pos rfl, ?_⟩
    rcases h with ⟨hnone, -⟩ | ⟨current, hx, heither⟩
    · rw [hnone] at hv
      cases hv
    · rw [hx] at hv
      cases hv
      exact hP w _ _ _ (.refl w) (hcurrent v hx) hother (heither hs) hPv (hPother rfl)
  · exact ⟨v, (if_neg hx).trans hv, hPv⟩

/-- One variable was joined, and then the others. -/
theorem MergedBindings.cons (h : w.Fits m) (hother : w.Knows other) (hle : w.Le w₁)
    (hstack : m₁.context.stack = m.context.stack)
    (henv : m₁.context.env = m.context.env.set x joined)
    (hjoined : JoinsInto w m.context.env x other joined) (hm : MergedBindings w₁ m₁ rest m₂) :
    MergedBindings w m ((x, other) :: rest) m₂ := by
  have hcurrent : ∀ current, m.context.env.get? x = some current → w.Knows current :=
    fun _ hx => h.env.get? hx
  refine ⟨hm.stack.trans hstack, ?_, fun hs var g hc => ?_, fun hs P var v hP hv hPv hPu => ?_⟩
  · obtain ⟨added, hadded, hkeys⟩ := hm.env
    refine ⟨(x, joined) :: added, by rw [hadded, henv]; rfl, fun c hc => ?_⟩
    rcases List.mem_cons.1 hc with rfl | hc
    · exact List.mem_cons_self
    · exact List.mem_cons_of_mem _ (hkeys c hc)
  · have hrest := hm.covers (hle.separates hs) var g
    rw [hle.old, henv] at hrest
    refine hrest ?_
    rcases hc with hc | ⟨v, hv, hc⟩
    · exact .inl (hjoined.covers hs hcurrent hother (.inl hc))
    · rcases List.mem_cons.1 hv with he | hv
      · cases he
        exact .inl (hjoined.covers hs hcurrent hother (.inr ⟨rfl, hc⟩))
      · exact .inr ⟨v, hv, hc⟩
  · have hP₁ : w₁.Joins P := fun w' a b u hle' ha hb hu =>
      hP w' a b u (hle.trans hle') ha hb (hle.old ▸ hu)
    obtain ⟨u, hu, hPu'⟩ := hjoined.keeps hs hcurrent hother hP hv hPv fun he =>
      hPu other (he ▸ List.mem_cons_self)
    rw [← henv] at hu
    exact hm.joins (hle.separates hs) P var u hP₁ hu hPu' fun u' hu' =>
      hPu u' (List.mem_cons_of_mem _ hu')

end JoinsInto

theorem after_mergeBindings (h : w.Fits m) {bindings : Bindings}
    (hb : ∀ b ∈ bindings, w.Knows b.2) :
    After w (fun _ _ m' => MergedBindings w m bindings m') (mergeBindings bindings m) := by
  induction bindings generalizing w m with
  | nil =>
    refine after_pure h ⟨rfl, ⟨[], rfl, fun b hb => by cases hb⟩, fun _ var g hc => ?_,
      fun _ P var v _ hv hP _ => ⟨v, hv, hP⟩⟩
    rcases hc with hc | ⟨v, hv, -⟩
    · exact hc
    · cases hv
  | cons b rest ih =>
    obtain ⟨x, other⟩ := b
    have hother : w.Knows other := hb _ List.mem_cons_self
    -- after binding `x`, the rest is joined
    have hrest : ∀ (w₁ : World) (m₁ : Machine) (joined : Value), w.Le w₁ → w₁.Fits m₁ →
        m₁.context.stack = m.context.stack → m₁.context.env = m.context.env.set x joined →
        JoinsInto w m.context.env x other joined →
        After w₁ (fun _ _ m' => MergedBindings w m ((x, other) :: rest) m')
          (mergeBindings rest m₁) :=
      fun w₁ m₁ joined hle h₁ hstack henv hjoined =>
        (ih h₁ fun c hc => hle.knows (hb c (List.mem_cons_of_mem _ hc))).mono
          fun _ _ _ _ hm => hm.cons h hother hle hstack henv hjoined
    unfold mergeBindings
    refine After.bind_ok (run_context m) ?_
    cases hx : m.context.env.get? x with
    | none =>
      refine After.bind_ok (bindVariable_eq x other m) ?_
      exact hrest w _ other (.refl w) (h.setEnv (h.env.set x hother)) rfl rfl (.inl ⟨hx, rfl⟩)
    | some current =>
      dsimp only
      refine (after_store h (after_either h.store (h.env.get? hx) hother)).bind
        fun joined w₁ m₁ hle₁ h₁ hj => ?_
      obtain ⟨⟨hknown, heither⟩, hcontext⟩ := hj
      refine After.bind_ok (bindVariable_eq x joined m₁) ?_
      have hstack : m₁.context.stack = m.context.stack := congrArg Context.stack hcontext
      have henv : m₁.context.env = m.context.env := congrArg Context.env hcontext
      exact hrest w₁ _ joined hle₁ (h₁.setEnv (h₁.env.set x hknown)) hstack
        (congrArg (fun env => env.set x joined) henv) (.inr ⟨current, hx, heither⟩)

/-- What joining a path with the current one gives. -/
structure Joined (w : World) (base : Nat) (m : Machine) (path : WaitingPath) (m' : Machine) :
    Prop where
  env : ∃ added : Bindings, m'.context.env = m.context.env.setAll added ∧
    ∀ b ∈ added, b.1 ∈ Assoc.keys path.bindings
  frame : ∀ f below, below.length = base → m.context.stack = f ++ below →
    f.length = path.frame.length → ∃ f', m'.context.stack = f' ++ below ∧ f'.length = f.length ∧
      (w.Separates → EitherFrame w.old f path.frame f')
  covers : w.Separates → ∀ var g, (m.context.env.CoversAt w.old var g ∨
    ∃ v, (var, some v) ∈ path.bindings ∧ Covers w.old g v) → m'.context.env.CoversAt w.old var g
  joins : w.Separates → ∀ (P : Value → Prop) var v, w.Joins P → m.context.env.get? var = some v →
    P v → (∀ u, (var, some u) ∈ path.bindings → P u) →
      ∃ v', m'.context.env.get? var = some v' ∧ P v'

theorem keys_boundOnly {bindings : List (Variable × Option Value)} {var : Variable}
    (h : var ∈ Assoc.keys (boundOnly bindings)) : var ∈ Assoc.keys bindings := by
  obtain ⟨b, hb, rfl⟩ := List.mem_map.1 h
  exact List.mem_map_of_mem (mem_boundOnly.1 hb)

/-- The frames may be taken from the top down as well. -/
theorem eitherFrame_reverse {old : Ident → Prop} {as bs vs : List Value}
    (hl : as.length = bs.length) (h : EitherFrame old as.reverse bs.reverse vs) :
    EitherFrame old as bs vs.reverse := by
  have hzip : as.reverse.zip bs.reverse = (as.zip bs).reverse := (List.reverse_zipWith hl).symm
  unfold EitherFrame at h ⊢
  rw [hzip] at h
  have hrev := List.rel_reverse h
  rwa [List.reverse_reverse] at hrev

theorem after_mergePath (h : w.Fits m) {path : WaitingPath} (hp : w.KnowsPath path) :
    After w (fun _ _ m' => Joined w r.base m path m') (mergePath r path m) := by
  unfold mergePath
  refine After.bind_ok (frame_eq m) ?_
  have hlive : ∀ v ∈ (m.context.stack.take (m.context.stack.length - r.base)).reverse,
      w.Knows v := fun v hv => h.stack v (List.mem_of_mem_take (List.mem_reverse.1 hv))
  have hframe : ∀ v ∈ path.frame.reverse, w.Knows v := fun v hv =>
    hp.frame v (List.mem_reverse.1 hv)
  refine (after_store h (after_eitherFrames h.store hlive hframe)).bind
    fun joined w₁ m₁ hle₁ h₁ hj => ?_
  obtain ⟨⟨hknown, heither⟩, hcontext⟩ := hj
  have hstack : m₁.context.stack = m.context.stack := congrArg Context.stack hcontext
  have henv : m₁.context.env = m.context.env := congrArg Context.env hcontext
  refine After.bind_ok (setFrame_eq joined.reverse m₁) ?_
  have h₂ : w₁.Fits (m₁.withStack (joined.reverse ++ bottom r.base m₁.context.stack)) := by
    refine h₁.setStack fun v hv => ?_
    rcases List.mem_append.1 hv with hv | hv
    · exact hknown v (List.mem_reverse.1 hv)
    · exact h₁.stack v (List.mem_of_mem_drop hv)
  refine (after_mergeBindings h₂ fun b hb => ?_).mono fun _ w₂ m₂ _ hm => ⟨?_, ?_, ?_, ?_⟩
  · exact (hle₁.knowsPath hp).bindings b.1 b.2 (mem_boundOnly.1 hb)
  · obtain ⟨added, hadded, hkeys⟩ := hm.env
    refine ⟨added, hadded.trans ?_, fun b hb => keys_boundOnly (hkeys b hb)⟩
    exact congrArg (fun env => Environment.setAll env added) henv
  · intro f below hl hs hlength
    rw [hs, take_append hl] at heither
    have hlen : f.reverse.length = path.frame.reverse.length := by
      rw [List.length_reverse, List.length_reverse, hlength]
    obtain ⟨hlj, heither⟩ := heither hlen
    refine ⟨joined.reverse, ?_, ?_, fun hsep => eitherFrame_reverse hlength (heither hsep)⟩
    · rw [hm.stack, ← bottom_append hl, ← hs, ← hstack]
      rfl
    · rw [List.length_reverse, hlj, List.length_reverse]
  · intro hs var g hc
    have hcov' := hm.covers (hle₁.separates hs) var g
    rw [hle₁.old] at hcov'
    refine hcov' ?_
    rcases hc with hc | ⟨v, hv, hc⟩
    · refine .inl ?_
      show Environment.CoversAt m₁.context.env w.old var g
      rw [henv]
      exact hc
    · exact .inr ⟨v, mem_boundOnly.2 hv, hc⟩
  · intro hs P var v hP hv hPv hPu
    have hP₁ : w₁.Joins P := fun w' a b u hle' ha hb hu =>
      hP w' a b u (hle₁.trans hle') ha hb (hle₁.old ▸ hu)
    have hv₁ : m₁.context.env.get? var = some v := henv ▸ hv
    exact hm.joins (hle₁.separates hs) P var v hP₁ hv₁ hPv fun u hu => hPu u (mem_boundOnly.1 hu)

/-! ## Constants and variables -/

/-- The constants of the script are known. -/
def KnowsConstants (w : World) (s : Script Value) : Prop := ∀ v ∈ s.constants, w.Knows v

theorem constant_of_constantAt {s : Script Value} {pos n : Nat} {v : Value} (h : s.constantAt pos n = .ok v) :
    s.constant? n = some v := by
  unfold Script.constantAt Value.orFail at h
  cases hc : s.constant? n with
  | some u => rw [hc] at h; cases h; rfl
  | none => rw [hc] at h; cases h

/-- A registered variable is read as a stand-in of its node, and the dependency is registered with
it; any other has the value it is bound to. -/
theorem after_variableInPass (h : w.Fits m) (var : Variable) (dep : Dependency) :
    After w (fun v w' m' => w'.Knows v ∧ m'.context = m.context ∧
      (∀ g, w.registry.lookup? var = some g →
        (w.Separates → ∃ id, ¬ w.old id ∧ v = .object id (.placeholder g)) ∧
        (dep.isDummy = false → Notes dep w w' (ownerOf g))) ∧
      (w.registry.lookup? var = none →
        v = (m.context.env.get? var).getD .nil ∧ w'.dependents = w.dependents))
      (variableInPass var dep m) := by
  unfold variableInPass
  refine After.bind_ok (run_context m) ?_
  rw [h.registry]
  cases hg : w.registry.lookup? var with
  | some g =>
    have hstore : AfterStore w (fun v w' => w'.Knows v ∧
        (w.Separates → ∃ id, ¬ w.old id ∧ v = .object id (.placeholder g)) ∧
        (dep.isDummy = false → Notes dep w w' (ownerOf g)))
        ((do
          g.noteRead dep
          newPlaceholder g : StateM Store Value) m.store) := by
      refine (after_noteRead h.store g dep).bind fun _ w₁ st₁ hle₁ h₁ hnotes => ?_
      have hmade := (after_newPlaceholder h₁ g).quiet h₁ fun _ => rfl
      refine hmade.mono fun v w₂ hle₂ hv => ⟨hv.1.1, fun hs => ?_, fun hd => ?_⟩
      · exact ⟨w₁.next, hle₁.old ▸ (hle₁.separates hs).next, hv.1.2⟩
      · have hall := (hnotes hd).trans (notes_of_eq hv.2 dep) hle₁
        rwa [Set.union_empty] at hall
    refine (after_store h hstore).mono fun v w' m' _ hv => ⟨hv.1.1, hv.2, fun g' hg' => ?_, ?_⟩
    · cases hg'
      exact hv.1.2
    · exact fun hnone => by cases hnone
  | none =>
    refine after_pure h ⟨knows_getD_nil fun x hx => h.env.get? hx, rfl, fun g' hg' => ?_, ?_⟩
    · cases hg'
    · exact fun _ => ⟨rfl, rfl⟩

end Run

end ReactiveScript
