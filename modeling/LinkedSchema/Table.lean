namespace LinkedSchema

/-- Entries with distinct keys, in the order of their first insertion. -/
structure Table (α : Type) where
  entries : List (String × α) := []
  nodup : (entries.map Prod.fst).Nodup := by simp
  deriving DecidableEq

namespace Table

variable {α β : Type}

theorem ext_entries {t u : Table α} (h : t.entries = u.entries) : t = u := by
  cases t
  cases u
  cases h
  rfl

instance : EmptyCollection (Table α) := ⟨{}⟩

instance : Inhabited (Table α) := ⟨∅⟩

def keys (t : Table α) : List String :=
  t.entries.map Prod.fst

def values (t : Table α) : List α :=
  t.entries.map Prod.snd

def size (t : Table α) : Nat :=
  t.entries.length

def isEmpty (t : Table α) : Bool :=
  t.entries.isEmpty

def get? (t : Table α) (key : String) : Option α :=
  t.entries.lookup key

def contains (t : Table α) (key : String) : Bool :=
  t.keys.contains key

/-- The entries with the value of one key changed. -/
def replace (entries : List (String × α)) (key : String) (value : α) : List (String × α) :=
  entries.map fun entry => if entry.1 = key then (key, value) else entry

theorem replace_keys (entries : List (String × α)) (key : String) (value : α) :
    (replace entries key value).map Prod.fst = entries.map Prod.fst := by
  induction entries with
  | nil => rfl
  | cons entry rest ih =>
    simp only [replace, List.map_cons, List.map_map] at ih ⊢
    rw [ih]
    by_cases h : entry.1 = key <;> simp [h]

def insert (t : Table α) (key : String) (value : α) : Table α :=
  if h : key ∈ t.entries.map Prod.fst then
    ⟨replace t.entries key value, replace_keys t.entries key value ▸ t.nodup⟩
  else
    ⟨t.entries ++ [(key, value)], by
      rw [List.map_append]
      exact List.nodup_append.mpr ⟨t.nodup, by simp, by
        intro a ha b hb e
        rw [List.map_singleton, List.mem_singleton] at hb
        rw [e, hb] at ha
        exact h ha⟩⟩

/-- Adds an entry only where the key is new. -/
def insertIfNew (t : Table α) (key : String) (value : α) : Table α :=
  if t.contains key then t else t.insert key value

/-- Of entries with the same key the first gives the place and the last the value. -/
def ofList (entries : List (String × α)) : Table α :=
  entries.foldl (fun t entry => t.insert entry.1 entry.2) ∅

theorem contains_iff {t : Table α} {key : String} : t.contains key = true ↔ key ∈ t.keys := by
  simp [contains]

theorem keys_insert_of_contains {t : Table α} {key : String} (h : t.contains key = true)
    (value : α) : (t.insert key value).keys = t.keys := by
  have hm : key ∈ t.entries.map Prod.fst := contains_iff.mp h
  rw [insert, dif_pos hm]
  exact replace_keys t.entries key value

theorem entries_insert_of_not_contains {t : Table α} {key : String}
    (h : t.contains key = false) (value : α) :
    (t.insert key value).entries = t.entries ++ [(key, value)] := by
  have hm : key ∉ t.entries.map Prod.fst := by
    intro hm
    rw [contains_iff.mpr hm] at h
    exact Bool.noConfusion h
  rw [insert, dif_neg hm]

theorem contains_eq_isSome (t : Table α) (key : String) : t.contains key = (t.get? key).isSome := by
  rw [Bool.eq_iff_iff, contains_iff]
  simp [get?, keys]

theorem lookup_replace (entries : List (String × α)) (key : String) (value : α) (query : String) :
    (replace entries key value).lookup query =
      if query = key ∧ key ∈ entries.map Prod.fst then some value else entries.lookup query := by
  induction entries with
  | nil => simp [replace]
  | cons entry rest ih =>
    obtain ⟨first, old⟩ := entry
    have hr : replace ((first, old) :: rest) key value =
        (if first = key then (key, value) else (first, old)) :: replace rest key value := rfl
    rw [hr]
    by_cases hq : query = first <;> by_cases hk : first = key <;> grind

theorem get?_insert (t : Table α) (key : String) (value : α) (query : String) :
    (t.insert key value).get? query = if query = key then some value else t.get? query := by
  cases h : t.contains key with
  | true =>
    have hm : key ∈ t.entries.map Prod.fst := contains_iff.mp h
    rw [get?, insert, dif_pos hm, lookup_replace]
    simp [hm, get?]
  | false =>
    rw [get?, entries_insert_of_not_contains h, List.lookup_append]
    rw [contains_eq_isSome, Option.isSome_eq_false_iff, Option.isNone_iff_eq_none] at h
    by_cases hq : query = key
    · subst hq
      simp [show t.entries.lookup query = none from h]
    · have hb : (query == key) = false := by simpa using hq
      simp [hq, hb, get?, List.lookup_cons]

theorem get?_insertIfNew (t : Table α) (key : String) (value : α) (query : String) :
    (t.insertIfNew key value).get? query =
      if query = key ∧ t.contains key = false then some value else t.get? query := by
  cases h : t.contains key <;> simp [insertIfNew, h, get?_insert]

theorem get?_eq_some_iff {t : Table α} {key : String} {value : α} :
    t.get? key = some value ↔ (key, value) ∈ t.entries := by
  obtain ⟨entries, nodup⟩ := t
  simp only [get?]
  induction entries with
  | nil => simp
  | cons entry rest ih =>
    obtain ⟨first, old⟩ := entry
    obtain ⟨hn, hr⟩ := List.nodup_cons.mp nodup
    by_cases h : key = first
    · subst h
      have hm : (key, value) ∉ rest := fun hm => hn (List.mem_map.mpr ⟨_, hm, rfl⟩)
      simp [hm, eq_comm]
    · have hb : (key == first) = false := by simpa using h
      simp [List.lookup_cons, hb, h, ih hr]

theorem get?_isSome_iff {t : Table α} {key : String} :
    (t.get? key).isSome = true ↔ key ∈ t.keys := by
  rw [← contains_eq_isSome, contains_iff]

theorem entries_foldl_insert {t : Table α} {entries : List (String × α)}
    (h : ((t.entries ++ entries).map Prod.fst).Nodup) :
    (entries.foldl (fun t entry => t.insert entry.1 entry.2) t).entries = t.entries ++ entries := by
  induction entries generalizing t with
  | nil => simp
  | cons entry rest ih =>
    have hn : entry.1 ∉ t.keys := by
      rw [List.map_append, List.map_cons] at h
      exact fun hm => (List.nodup_append.mp h).2.2 _ hm _ (List.mem_cons_self ..) rfl
    have hc : t.contains entry.1 = false := by
      rw [← Bool.not_eq_true, contains_iff]
      exact hn
    have he := entries_insert_of_not_contains hc entry.2
    rw [List.foldl_cons, ih (by simpa [he] using h), he, List.append_assoc, List.singleton_append]

/-- Entries with distinct keys are the entries of a table. -/
theorem entries_ofList {entries : List (String × α)} (h : (entries.map Prod.fst).Nodup) :
    (ofList entries).entries = entries :=
  entries_foldl_insert h

end Table

end LinkedSchema
