/-
  Association lists in insertion order.

  A list of key/value pairs read as a finite map. Inserting under a present key replaces the value
  where it stands, inserting under a new key appends. `find?_insert` says what a read after a write
  gives, `keys_insert_of_mem` and `keys_insert_of_not_mem` what a write does to the keys, and
  `nodup_keys_insert` that distinct keys stay distinct.
-/

namespace ReactiveScript.Assoc

variable {κ ν μ : Type}

/-- The keys, in order. -/
def keys (entries : List (κ × ν)) : List κ := entries.map Prod.fst

/-- Other values under the same keys. -/
def mapValues (f : ν → μ) (entries : List (κ × ν)) : List (κ × μ) :=
  entries.map fun entry => (entry.1, f entry.2)

@[simp] theorem length_mapValues (f : ν → μ) (entries : List (κ × ν)) :
    (mapValues f entries).length = entries.length := List.length_map _

@[simp] theorem keys_nil : keys ([] : List (κ × ν)) = [] := rfl

@[simp] theorem keys_cons (k : κ) (v : ν) (rest : List (κ × ν)) :
    keys ((k, v) :: rest) = k :: keys rest := rfl

@[simp] theorem keys_append (xs ys : List (κ × ν)) : keys (xs ++ ys) = keys xs ++ keys ys := by
  simp [keys]

@[simp] theorem length_keys (entries : List (κ × ν)) : (keys entries).length = entries.length := by
  simp [keys]

variable [DecidableEq κ]

/-- The value of the first entry under `key`. -/
def find? (key : κ) : List (κ × ν) → Option ν
  | [] => none
  | (k, v) :: rest => if k = key then some v else find? key rest

/-- Replace the first entry under `key` where it stands, or append a new entry. -/
def insert (key : κ) (value : ν) : List (κ × ν) → List (κ × ν)
  | [] => [(key, value)]
  | (k, v) :: rest => if k = key then (key, value) :: rest else (k, v) :: insert key value rest

/-- Drop every entry under `key`. -/
def erase (key : κ) (entries : List (κ × ν)) : List (κ × ν) :=
  entries.filter fun entry => entry.1 ≠ key

@[simp] theorem find?_nil (key : κ) : find? key ([] : List (κ × ν)) = none := rfl

theorem find?_insert_self (key : κ) (value : ν) (entries : List (κ × ν)) :
    find? key (insert key value entries) = some value := by
  induction entries with
  | nil => simp [insert, find?]
  | cons entry rest ih => by_cases h : entry.1 = key <;> simp [insert, find?, h, ih]

theorem find?_insert_of_ne {key other : κ} (h : key ≠ other) (value : ν)
    (entries : List (κ × ν)) : find? other (insert key value entries) = find? other entries := by
  induction entries with
  | nil => simp [insert, find?, h]
  | cons entry rest ih =>
    obtain ⟨k, v⟩ := entry
    by_cases hk : k = key
    · subst hk; simp [insert, find?, h]
    · by_cases ho : k = other
      · subst ho; simp [insert, find?, hk]
      · simp [insert, find?, hk, ho, ih]

/-- A read after a write gives the written value under the written key, else what was there. -/
theorem find?_insert (key other : κ) (value : ν) (entries : List (κ × ν)) :
    find? other (insert key value entries) =
      if key = other then some value else find? other entries := by
  by_cases h : key = other
  · subst h; simp [find?_insert_self]
  · simp [h, find?_insert_of_ne h]

theorem find?_eq_none_iff {key : κ} {entries : List (κ × ν)} :
    find? key entries = none ↔ key ∉ keys entries := by
  induction entries with
  | nil => simp
  | cons entry rest ih =>
    by_cases h : entry.1 = key
    · simp [find?, h, keys]
    · have h' : key ≠ entry.1 := fun e => h e.symm
      simp [find?, h, h', ih, keys]

theorem find?_append (key : κ) (xs ys : List (κ × ν)) :
    find? key (xs ++ ys) = (find? key xs).or (find? key ys) := by
  induction xs with
  | nil => rfl
  | cons entry rest ih => by_cases h : entry.1 = key <;> simp [find?, h, ih]

theorem keys_insert_of_mem {key : κ} (value : ν) {entries : List (κ × ν)}
    (h : key ∈ keys entries) : keys (insert key value entries) = keys entries := by
  induction entries with
  | nil => simp at h
  | cons entry rest ih =>
    by_cases hk : entry.1 = key
    · simp [insert, hk, keys]
    · have h' : key ∈ keys rest := by
        rcases List.mem_cons.1 h with e | e
        · exact absurd e.symm hk
        · exact e
      have := ih h'
      simp only [insert, hk, if_false, keys, List.map_cons] at this ⊢
      rw [this]

theorem insert_of_not_mem {key : κ} (value : ν) {entries : List (κ × ν)}
    (h : key ∉ keys entries) : insert key value entries = entries ++ [(key, value)] := by
  induction entries with
  | nil => rfl
  | cons entry rest ih =>
    have hk : entry.1 ≠ key := fun e => h (by simp [keys, e])
    have h' : key ∉ keys rest := fun e => h (List.mem_cons_of_mem _ e)
    simp [insert, hk, ih h']

theorem keys_insert_of_not_mem {key : κ} (value : ν) {entries : List (κ × ν)}
    (h : key ∉ keys entries) : keys (insert key value entries) = keys entries ++ [key] := by
  simp [insert_of_not_mem value h]

theorem nodup_keys_insert (key : κ) (value : ν) {entries : List (κ × ν)}
    (h : (keys entries).Nodup) : (keys (insert key value entries)).Nodup := by
  by_cases hk : key ∈ keys entries
  · rw [keys_insert_of_mem value hk]; exact h
  · rw [keys_insert_of_not_mem value hk]
    refine List.nodup_append.2 ⟨h, by simp, ?_⟩
    intro a ha b hb e
    have : b = key := by simpa using hb
    exact hk (this ▸ e ▸ ha)

theorem find?_erase (key other : κ) (entries : List (κ × ν)) :
    find? other (erase key entries) = if key = other then none else find? other entries := by
  induction entries with
  | nil => simp [erase]
  | cons entry rest ih =>
    obtain ⟨k, v⟩ := entry
    unfold erase at ih ⊢
    by_cases hk : k = key
    · subst hk
      by_cases ho : k = other
      · simpa [List.filter_cons, ho] using ih
      · simpa [List.filter_cons, ho, find?] using ih
    · by_cases ho : k = other
      · subst ho
        simp [hk, find?, Ne.symm hk]
      · simpa [List.filter_cons, hk, find?, ho] using ih

theorem mem_of_find? {key : κ} {value : ν} {entries : List (κ × ν)}
    (h : find? key entries = some value) : (key, value) ∈ entries := by
  induction entries with
  | nil => cases h
  | cons entry rest ih =>
    by_cases he : entry.1 = key
    · simp only [find?, if_pos he, Option.some.injEq] at h
      subst he h
      exact List.mem_cons_self
    · simp only [find?, if_neg he] at h
      exact List.mem_cons_of_mem _ (ih h)

theorem mem_insert {key : κ} {value : ν} {entries : List (κ × ν)} {x : κ × ν}
    (h : x ∈ insert key value entries) : x.2 = value ∨ x ∈ entries := by
  induction entries with
  | nil =>
    rw [insert, List.mem_singleton] at h
    exact .inl (h ▸ rfl)
  | cons entry rest ih =>
    by_cases he : entry.1 = key
    · simp only [insert, if_pos he] at h
      rcases List.mem_cons.1 h with rfl | h
      · exact .inl rfl
      · exact .inr (List.mem_cons_of_mem _ h)
    · simp only [insert, if_neg he] at h
      rcases List.mem_cons.1 h with rfl | h
      · exact .inr List.mem_cons_self
      · exact (ih h).imp_right (List.mem_cons_of_mem _)

/-! ## Other values -/

theorem find?_mapValues (f : ν → μ) (key : κ) (entries : List (κ × ν)) :
    find? key (mapValues f entries) = (find? key entries).map f := by
  induction entries with
  | nil => rfl
  | cons entry rest ih =>
    unfold mapValues at ih ⊢
    by_cases h : entry.1 = key <;> simp [find?, h, ih]

theorem mapValues_insert (f : ν → μ) (key : κ) (value : ν) (entries : List (κ × ν)) :
    mapValues f (insert key value entries) = insert key (f value) (mapValues f entries) := by
  induction entries with
  | nil => rfl
  | cons entry rest ih =>
    unfold mapValues at ih ⊢
    by_cases h : entry.1 = key <;> simp [insert, h, ih]

theorem mapValues_erase (f : ν → μ) (key : κ) (entries : List (κ × ν)) :
    mapValues f (erase key entries) = erase key (mapValues f entries) := by
  unfold mapValues erase
  rw [List.filter_map]
  rfl

end ReactiveScript.Assoc
