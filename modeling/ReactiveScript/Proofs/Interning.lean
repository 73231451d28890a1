import ReactiveScript.Proofs.Later

/-
  Names interned by many threads.

  All threads share one table of names. A call looks its name up while others may read as well, and
  only if the name is not there it takes the table for itself and puts the name in, unless somebody
  else was faster. So a call is one section or two, and between two sections all other threads may
  get on. A run is any list of sections, and one that is not possible leaves everything as it is.

  What a section does to the table is to intern a name, or nothing (`act_cases`), so a name keeps
  its number, and every call that came back has a number under which its name is found
  (`recorded_run`). From this follows that numbers and names belong to each other one to one and for
  good (`interning_stable`).
-/

namespace ReactiveScript

/-! ## One table -/

namespace Names

variable {names : Names} {name : String} {var : Variable}

theorem getElem?_of_find? (h : names.find? name = some var) :
    names.entries[var.id]? = some name := by
  rw [find?_eq] at h
  obtain ⟨index, hindex, rfl⟩ := Option.map_eq_some_iff.1 h
  obtain ⟨hlt, hname, -⟩ := List.findIdx?_eq_some_iff_getElem.1 hindex
  show names.entries[index]? = some name
  rw [← Array.getElem?_toList, List.getElem?_eq_getElem hlt, beq_iff_eq.1 hname]

/-- The name of the number of a name is that name. -/
theorem nameOf_of_find? (h : names.find? name = some var) : names.nameOf var = name := by
  unfold nameOf
  rw [getElem?_of_find? h]

/-- Numbers are positions in the table. -/
theorem lt_size_of_find? (h : names.find? name = some var) : var.id < names.entries.size := by
  obtain ⟨hlt, -⟩ := Array.getElem?_eq_some_iff.1 (getElem?_of_find? h)
  exact hlt

theorem not_mem_of_find?_eq_none (h : names.find? name = none) : name ∉ names.entries.toList := by
  rw [find?_eq, Option.map_eq_none_iff, List.findIdx?_eq_none_iff] at h
  intro hmem
  simpa using h name hmem

theorem toList_push (names : Names) (name : String) :
    (names.push name).2.entries.toList = names.entries.toList ++ [name] := Array.toList_push

/-- The table grows at its end, if it grows. -/
theorem prefix_intern (names : Names) (name : String) :
    names.entries.toList <+: (names.intern name).2.entries.toList := by
  unfold intern
  cases names.find? name with
  | some var => exact List.prefix_refl _
  | none => exact toList_push names name ▸ List.prefix_append _ _

theorem nodup_intern (h : names.entries.toList.Nodup) (name : String) :
    (names.intern name).2.entries.toList.Nodup := by
  unfold intern
  cases hfind : names.find? name with
  | some var => exact h
  | none =>
    have hnew : name ∉ names.entries.toList := not_mem_of_find?_eq_none hfind
    show (names.push name).2.entries.toList.Nodup
    rw [toList_push, List.nodup_append]
    refine ⟨h, List.nodup_cons.2 ⟨List.not_mem_nil, List.nodup_nil⟩, fun a ha b hb hab => hnew ?_⟩
    rw [← List.mem_singleton.1 hb, ← hab]
    exact ha

end Names

/-! ## Threads -/

/-- A call that came back. -/
structure Interned (κ : Type) where
  thread : κ
  name : String
  var : Variable
  deriving DecidableEq, Repr

/-- A section of a call. -/
inductive Interning (κ : Type)
  /-- A thread makes a call and looks the name up. -/
  | lookUp (thread : κ) (name : String)
  /-- A thread that did not find its name puts it in. -/
  | putIn (thread : κ)

/-- Whose section it is. -/
def Interning.thread {κ : Type} : Interning κ → κ
  | .lookUp thread _ => thread
  | .putIn thread => thread

/-- The table with the threads that share it. -/
structure SharedNames (κ : Type) where
  names : Names
  /-- The name that a thread looked for in vain and has still to put in. -/
  missed : κ → Option String
  /-- The calls that came back, the oldest first. -/
  calls : List (Interned κ)

namespace SharedNames

variable {κ : Type} [DecidableEq κ]

/-- Before anything was interned. -/
def start : SharedNames κ := ⟨.empty, fun _ => none, []⟩

/-- A thread comes to another point of its call. -/
def setMissed (s : SharedNames κ) (thread : κ) (name : Option String) : SharedNames κ :=
  { s with missed := fun other => if other = thread then name else s.missed other }

/-- A call comes back. -/
def comeBack (s : SharedNames κ) (call : Interned κ) : SharedNames κ :=
  { s with calls := s.calls ++ [call] }

/-- What a section does. Putting in a name that came in meanwhile finds it. -/
def act (s : SharedNames κ) : Interning κ → SharedNames κ
  | .lookUp thread name =>
    match s.missed thread, s.names.find? name with
    | some _, _ => s
    | none, some var => s.comeBack ⟨thread, name, var⟩
    | none, none => s.setMissed thread (some name)
  | .putIn thread =>
    match s.missed thread with
    | none => s
    | some name =>
      let (var, names) := s.names.intern name
      ({ s with names }.setMissed thread none).comeBack ⟨thread, name, var⟩

/-- What a list of sections leads to. -/
def run (sections : List (Interning κ)) : SharedNames κ := sections.foldl act start

/-- The calls of one thread that came back. -/
def callsOf (s : SharedNames κ) (thread : κ) : List (Interned κ) :=
  s.calls.filter fun call => call.thread = thread

theorem run_append (before after : List (Interning κ)) :
    run (before ++ after) = after.foldl act (run before) := List.foldl_append

variable {s : SharedNames κ} {thread : κ} {name : String} {var : Variable}

/-! ## One section -/

theorem lookUp_of_find? (hidle : s.missed thread = none) (h : s.names.find? name = some var) :
    s.act (.lookUp thread name) = s.comeBack ⟨thread, name, var⟩ := by
  simp only [act, hidle, h]

theorem lookUp_of_find?_eq_none (hidle : s.missed thread = none) (h : s.names.find? name = none) :
    s.act (.lookUp thread name) = s.setMissed thread (some name) := by
  simp only [act, hidle, h]

theorem putIn_of_missed (h : s.missed thread = some name) : s.act (.putIn thread) =
    ({ s with names := (s.names.intern name).2 }.setMissed thread none).comeBack
      ⟨thread, name, (s.names.intern name).1⟩ := by
  simp only [act, h]

theorem putIn_of_idle (h : s.missed thread = none) : s.act (.putIn thread) = s := by
  simp only [act, h]

/-- Everything that a section can do. -/
theorem act_cases (s : SharedNames κ) (move : Interning κ) :
    s.act move = s ∨
    (∃ name var, s.names.find? name = some var ∧
      s.act move = s.comeBack ⟨move.thread, name, var⟩) ∨
    (∃ name, s.act move = s.setMissed move.thread (some name)) ∨
    ∃ name, s.act move =
      ({ s with names := (s.names.intern name).2 }.setMissed move.thread none).comeBack
        ⟨move.thread, name, (s.names.intern name).1⟩ := by
  cases move with
  | lookUp thread name =>
    cases hmissed : s.missed thread with
    | some other => exact .inl (by simp only [act, hmissed])
    | none =>
      cases hfind : s.names.find? name with
      | some var => exact .inr (.inl ⟨name, var, hfind, lookUp_of_find? hmissed hfind⟩)
      | none => exact .inr (.inr (.inl ⟨name, lookUp_of_find?_eq_none hmissed hfind⟩))
  | putIn thread =>
    cases hmissed : s.missed thread with
    | none => exact .inl (putIn_of_idle hmissed)
    | some name => exact .inr (.inr (.inr ⟨name, putIn_of_missed hmissed⟩))

/-- What is true of the table and of the calls that came back. -/
structure Recorded (s : SharedNames κ) : Prop where
  nodup : s.names.entries.toList.Nodup
  found : ∀ call ∈ s.calls, s.names.find? call.name = some call.var

theorem Recorded.act (h : s.Recorded) (move : Interning κ) : (s.act move).Recorded := by
  have hnew : ∀ {call : Interned κ} {names : Names},
      (∀ c ∈ s.calls, names.find? c.name = some c.var) → names.find? call.name = some call.var →
      ∀ c ∈ s.calls ++ [call], names.find? c.name = some c.var := by
    intro call names hold hcall c hc
    rcases List.mem_append.1 hc with hc | hc
    · exact hold c hc
    · rw [List.mem_singleton.1 hc]
      exact hcall
  obtain hact | ⟨name, var, hfind, hact⟩ | ⟨name, hact⟩ | ⟨name, hact⟩ := act_cases s move
  · rwa [hact]
  · rw [hact]
    exact ⟨h.nodup, hnew h.found hfind⟩
  · rw [hact]
    exact ⟨h.nodup, h.found⟩
  · rw [hact]
    have hkept : ∀ c ∈ s.calls, (s.names.intern name).2.find? c.name = some c.var := fun c hc =>
      Names.find?_intern_of_find? (h.found c hc) name
    exact ⟨Names.nodup_intern h.nodup name, hnew hkept (Names.find?_intern s.names name)⟩

/-- The table and the list of calls that came back have only grown at their ends. -/
structure Grows (s s' : SharedNames κ) : Prop where
  names : s.names.entries.toList <+: s'.names.entries.toList
  calls : s.calls <+: s'.calls

theorem grows_act (s : SharedNames κ) (move : Interning κ) : s.Grows (s.act move) := by
  obtain h | ⟨name, var, -, h⟩ | ⟨name, h⟩ | ⟨name, h⟩ := act_cases s move
  · rw [h]
    exact ⟨List.prefix_refl _, List.prefix_refl _⟩
  · rw [h]
    exact ⟨List.prefix_refl _, List.prefix_append _ _⟩
  · rw [h]
    exact ⟨List.prefix_refl _, List.prefix_refl _⟩
  · rw [h]
    exact ⟨Names.prefix_intern s.names name, List.prefix_append _ _⟩

/-- A section of another thread leaves a thread's call where it is. -/
theorem act_of_other {move : Interning κ} (h : move.thread ≠ thread) :
    (s.act move).missed thread = s.missed thread ∧
      (s.act move).callsOf thread = s.callsOf thread := by
  have hset : ∀ other, (s.setMissed move.thread other).missed thread = s.missed thread :=
    fun _ => if_neg h.symm
  have hcalls : ∀ (calls : List (Interned κ)) (name : String) (var : Variable),
      (calls ++ [Interned.mk move.thread name var]).filter (fun call => call.thread = thread) =
        calls.filter fun call => call.thread = thread := by
    intro calls name var
    rw [List.filter_append]
    simp [h]
  obtain hact | ⟨name, var, -, hact⟩ | ⟨name, hact⟩ | ⟨name, hact⟩ := act_cases s move <;> rw [hact]
  · exact ⟨rfl, rfl⟩
  · exact ⟨rfl, hcalls _ _ _⟩
  · exact ⟨hset _, rfl⟩
  · exact ⟨hset _, hcalls _ _ _⟩

/-! ## Runs -/

theorem recorded_run (sections : List (Interning κ)) : (run sections).Recorded := by
  have hstart : (start : SharedNames κ).Recorded := ⟨List.nodup_nil, nofun⟩
  unfold run
  generalize (start : SharedNames κ) = s at hstart
  induction sections generalizing s with
  | nil => exact hstart
  | cons move rest ih => exact ih _ (hstart.act move)

theorem grows_foldl (s : SharedNames κ) (sections : List (Interning κ)) :
    s.Grows (sections.foldl act s) := by
  induction sections generalizing s with
  | nil => exact ⟨List.prefix_refl _, List.prefix_refl _⟩
  | cons move rest ih =>
    have hfirst := grows_act s move
    have hrest := ih (s.act move)
    exact ⟨hfirst.names.trans hrest.names, hfirst.calls.trans hrest.calls⟩

theorem foldl_of_others {others : List (Interning κ)} (h : ∀ move ∈ others, move.thread ≠ thread) :
    (others.foldl act s).missed thread = s.missed thread ∧
      (others.foldl act s).callsOf thread = s.callsOf thread := by
  induction others generalizing s with
  | nil => exact ⟨rfl, rfl⟩
  | cons move rest ih =>
    obtain ⟨hmissed, hcalls⟩ := act_of_other (s := s) (h move List.mem_cons_self)
    obtain ⟨hmissed', hcalls'⟩ := ih (s := s.act move) fun m hm => h m (List.mem_cons_of_mem _ hm)
    exact ⟨hmissed'.trans hmissed, hcalls'.trans hcalls⟩

theorem callsOf_comeBack (s : SharedNames κ) (call : Interned κ) :
    (s.comeBack call).callsOf call.thread = s.callsOf call.thread ++ [call] := by
  unfold callsOf comeBack
  rw [List.filter_append]
  simp

theorem callsOf_putIn (h : s.missed thread = some name) :
    (s.act (.putIn thread)).callsOf thread =
      s.callsOf thread ++ [⟨thread, name, (s.names.intern name).1⟩] := by
  rw [putIn_of_missed h]
  exact callsOf_comeBack _ ⟨thread, name, _⟩

/-- A call comes back after two sections of its thread at most, whatever the others do between. -/
theorem exists_callsOf_append (hidle : s.missed thread = none) (name : String)
    {others : List (Interning κ)} (h : ∀ move ∈ others, move.thread ≠ thread) :
    ∃ var, ((others.foldl act (s.act (.lookUp thread name))).act (.putIn thread)).callsOf thread =
      s.callsOf thread ++ [⟨thread, name, var⟩] := by
  obtain ⟨hmissed, hcalls⟩ := foldl_of_others (s := s.act (.lookUp thread name)) h
  cases hfind : s.names.find? name with
  | some var =>
    have hback : s.act (.lookUp thread name) = s.comeBack ⟨thread, name, var⟩ :=
      lookUp_of_find? hidle hfind
    rw [hback] at hmissed hcalls ⊢
    rw [putIn_of_idle (hmissed.trans hidle), hcalls]
    exact ⟨var, callsOf_comeBack s ⟨thread, name, var⟩⟩
  | none =>
    have hmiss : s.act (.lookUp thread name) = s.setMissed thread (some name) :=
      lookUp_of_find?_eq_none hidle hfind
    rw [hmiss] at hmissed hcalls ⊢
    have hname : (others.foldl act (s.setMissed thread (some name))).missed thread = some name :=
      hmissed.trans (if_pos rfl)
    have hback := callsOf_putIn hname
    rw [hcalls] at hback
    exact ⟨_, hback⟩

/-- Whatever any number of threads intern, in whatever order their sections come: the table never
holds a name twice, and from any point of the run to any later one it only grows at its end. Two
calls that came back got the same number exactly if their names are the same; a number is a position
in the table, and its name is the name that was interned, then and later. And a call does come back,
with its name, after two sections of its thread at most. Numbers of 32 bits are the same for the
first 2^32 names (`Variable`). -/
theorem interning_stable (before after : List (Interning κ)) :
    let s := run before
    let later := run (before ++ after)
    s.names.entries.toList.Nodup ∧
    s.names.entries.toList <+: later.names.entries.toList ∧
    (∀ call ∈ later.calls, ∀ other ∈ later.calls,
      call.var = other.var ↔ call.name = other.name) ∧
    (∀ call ∈ s.calls, call ∈ later.calls ∧ call.var.id < s.names.entries.size ∧
      later.names.nameOf call.var = call.name) ∧
    ∀ thread name others, s.missed thread = none →
      (∀ move ∈ others, Interning.thread move ≠ thread) →
      ∃ var, (run (before ++ (.lookUp thread name :: others ++ [.putIn thread]))).callsOf thread =
        s.callsOf thread ++ [⟨thread, name, var⟩] := by
  intro s later
  have hgrows : s.Grows later := by
    show s.Grows (run (before ++ after))
    rw [run_append]
    exact grows_foldl s after
  have hs : s.Recorded := recorded_run before
  have hlater : later.Recorded := recorded_run (before ++ after)
  refine ⟨hs.nodup, hgrows.names,
    fun call hcall other hother => ⟨fun hvar => ?names, fun hname => ?vars⟩,
    fun call hcall => ?kept, fun thread name others hidle hothers => ?back⟩
  case names =>
    have hfound := hlater.found call hcall
    rw [hvar] at hfound
    exact Names.eq_of_find? hfound (hlater.found other hother)
  case vars =>
    have hfound := hlater.found call hcall
    rw [hname, hlater.found other hother] at hfound
    exact (Option.some.inj hfound).symm
  case kept =>
    have hmem : call ∈ later.calls := hgrows.calls.subset hcall
    exact ⟨hmem, Names.lt_size_of_find? (hs.found call hcall),
      Names.nameOf_of_find? (hlater.found call hmem)⟩
  case back =>
    rw [run_append, List.cons_append, List.foldl_cons, List.foldl_append]
    exact exists_callsOf_append hidle name hothers

/-- Two threads look for the same name in vain, a third one interns another name, and then one of
the two puts theirs in. -/
def race : List (Interning Nat) :=
  [.lookUp 0 "a", .lookUp 1 "a", .lookUp 2 "b", .putIn 2, .putIn 1]

/-- When the other one puts it in as well, it gets the same number, which names it before and after.
The third thread is free for another call. -/
theorem interning_stable_race :
    let first : Interned Nat := ⟨1, "a", ⟨1⟩⟩
    let second : Interned Nat := ⟨0, "a", ⟨1⟩⟩
    (run race).missed 0 = some "a" ∧ first ∈ (run race).calls ∧
      second ∈ (run (race ++ [.putIn 0])).calls ∧
      (first.var = second.var ↔ first.name = second.name) ∧
      (run (race ++ [.putIn 0])).names.nameOf first.var = "a" ∧ (run race).missed 2 = none ∧
      ∃ var, (run (race ++ [.lookUp 2 "c", .putIn 2])).callsOf 2 =
        (run race).callsOf 2 ++ [⟨2, "c", var⟩] := by
  intro first second
  have hfirst : first ∈ (run race).calls := by
    have hcalls : (run race).calls = [⟨2, "b", ⟨0⟩⟩, ⟨1, "a", ⟨1⟩⟩] := by cbv
    simp [hcalls, first]
  have hsecond : second ∈ (run (race ++ [.putIn 0])).calls := by
    have hcalls : (run (race ++ [.putIn 0])).calls =
        [⟨2, "b", ⟨0⟩⟩, ⟨1, "a", ⟨1⟩⟩, ⟨0, "a", ⟨1⟩⟩] := by cbv
    simp [hcalls, second]
  have hwaits : (run race).missed 0 = some "a" := by cbv
  have hidle : (run race).missed 2 = none := by cbv
  obtain ⟨-, -, hnumbers, hkept, hback⟩ := interning_stable race [.putIn 0]
  obtain ⟨hmem, -, hname⟩ := hkept first hfirst
  exact ⟨hwaits, hfirst, hsecond, hnumbers first hmem second hsecond, hname, hidle,
    hback 2 "c" [] hidle nofun⟩

end SharedNames

end ReactiveScript
