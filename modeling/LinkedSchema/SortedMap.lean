namespace LinkedSchema

/-- The key lies above the bound; every key lies above the absent bound. -/
def Above (bound : Option String) (key : String) : Prop :=
  ∀ low ∈ bound, low < key

instance (bound : Option String) (key : String) : Decidable (Above bound key) :=
  match bound with
  | none => isTrue nofun
  | some low => decidable_of_iff (low < key) (by simp [Above])

theorem above_none (key : String) : Above none key := nofun

theorem above_some {low key : String} : Above (some low) key ↔ low < key := by
  simp [Above]

theorem Above.trans {bound : Option String} {key later : String} (h : Above bound key)
    (hl : key < later) : Above bound later :=
  fun low hm => String.lt_trans (h low hm) hl

/-- A map whose keys ascend and lie above the bound. `SortedMap α none` holds all maps. -/
inductive SortedMap (α : Type) : Option String → Type where
  | nil {bound : Option String} : SortedMap α bound
  | cons {bound : Option String} (key : String) (value : α) (above : Above bound key)
      (rest : SortedMap α (some key)) : SortedMap α bound

namespace SortedMap

variable {α β : Type} {bound : Option String}

instance : EmptyCollection (SortedMap α bound) := ⟨nil⟩

/-- The entries in ascending order of their keys. -/
def toList {bound : Option String} : SortedMap α bound → List (String × α)
  | nil => []
  | cons key value _ rest => (key, value) :: rest.toList

def size (entries : SortedMap α bound) : Nat :=
  entries.toList.length

def keys (entries : SortedMap α bound) : List String :=
  entries.toList.map Prod.fst

def get? {bound : Option String} (entries : SortedMap α bound) (key : String) : Option α :=
  match entries with
  | nil => none
  | cons first value _ rest => if key = first then some value else rest.get? key

def contains (entries : SortedMap α bound) (key : String) : Bool :=
  (entries.get? key).isSome

/-- Adds an entry above the bound; an entry of the same key is replaced. -/
def insertAbove {bound : Option String} (entries : SortedMap α bound) (key : String) (value : α)
    (above : Above bound key) : SortedMap α bound :=
  match entries with
  | nil => cons key value above nil
  | cons first old h rest =>
    if lt : key < first then cons key value above (cons first old (above_some.mpr lt) rest)
    else if gt : first < key then
      cons first old h (rest.insertAbove key value (above_some.mpr gt))
    else cons first value h rest

def insert (entries : SortedMap α none) (key : String) (value : α) : SortedMap α none :=
  entries.insertAbove key value (above_none key)

/-- The same entries under a lower bound. -/
def lower {low : String} (entries : SortedMap α (some low)) (above : Above bound low) :
    SortedMap α bound :=
  match entries with
  | nil => nil
  | cons key value h rest => cons key value (above.trans (above_some.mp h)) rest

def erase {bound : Option String} (entries : SortedMap α bound) (key : String) :
    SortedMap α bound :=
  match entries with
  | nil => nil
  | cons first value above rest =>
    if key = first then rest.lower above else cons first value above (rest.erase key)

/-- Of entries with the same key the last one counts. -/
def ofList (entries : List (String × α)) : SortedMap α none :=
  entries.foldl (fun built entry => built.insert entry.1 entry.2) nil

def singleton (key : String) (value : α) : SortedMap α none :=
  cons key value (above_none key) nil

theorem toList_injective {bound : Option String} {m n : SortedMap α bound}
    (h : m.toList = n.toList) : m = n := by
  induction m with
  | nil => cases n <;> simp_all [toList]
  | cons key value above rest ih =>
    cases n with
    | nil => simp [toList] at h
    | cons other found _ tail =>
      simp only [toList, List.cons.injEq, Prod.mk.injEq] at h
      obtain ⟨⟨rfl, rfl⟩, h⟩ := h
      rw [ih h]

theorem above_of_mem_toList {bound : Option String} {m : SortedMap α bound}
    {entry : String × α} (h : entry ∈ m.toList) : Above bound entry.1 := by
  induction m with
  | nil => simp [toList] at h
  | cons key value above rest ih =>
    rcases List.mem_cons.mp h with rfl | h
    · exact above
    · exact above.trans (above_some.mp (ih h))

theorem toList_ascending {bound : Option String} (m : SortedMap α bound) :
    m.toList.Pairwise (fun a b => a.1 < b.1) := by
  induction m with
  | nil => exact List.Pairwise.nil
  | cons key value above rest ih =>
    exact List.pairwise_cons.mpr ⟨fun e he => above_some.mp (above_of_mem_toList he), ih⟩

@[simp] theorem toList_lower {low : String} (m : SortedMap α (some low))
    (above : Above bound low) : (m.lower above).toList = m.toList := by
  cases m <;> rfl

theorem toList_erase {bound : Option String} (m : SortedMap α bound) (key : String) :
    (m.erase key).toList = m.toList.filter (fun entry => entry.1 ≠ key) := by
  induction m with
  | nil => rfl
  | cons first value above rest ih =>
    by_cases h : key = first
    · subst h
      have hk : ∀ e ∈ rest.toList, e.1 ≠ key := fun e he hn =>
        String.lt_irrefl _ (hn ▸ above_some.mp (above_of_mem_toList he))
      simp only [erase, toList, ↓reduceIte, toList_lower, List.filter_cons, ne_eq, not_true_eq_false,
        decide_false, Bool.false_eq_true]
      exact (List.filter_eq_self.mpr (by simpa using hk)).symm
    · simp [erase, toList, h, Ne.symm h, ih]

theorem get?_insertAbove {bound : Option String} (m : SortedMap α bound) (key : String) (value : α)
    (above : Above bound key) (query : String) :
    (m.insertAbove key value above).get? query =
      if query = key then some value else m.get? query := by
  induction m with
  | nil => rfl
  | cons first old h rest ih =>
    unfold insertAbove
    split
    · rfl
    · rename_i lt
      split
      · rename_i gt
        have hn : first ≠ key := fun he => String.lt_irrefl _ (he ▸ gt)
        by_cases hq : query = first
        · simp [get?, hq, hn]
        · simp [get?, hq, ih]
      · rename_i gt
        have he : key = first := String.le_antisymm gt lt
        subst he
        by_cases hq : query = key <;> simp [get?, hq]

theorem get?_insert (m : SortedMap α none) (key : String) (value : α) (query : String) :
    (m.insert key value).get? query = if query = key then some value else m.get? query :=
  get?_insertAbove m key value _ query

theorem get?_eq_some_iff {bound : Option String} {m : SortedMap α bound} {key : String}
    {value : α} : m.get? key = some value ↔ (key, value) ∈ m.toList := by
  induction m with
  | nil => simp [get?, toList]
  | cons first old above rest ih =>
    by_cases h : key = first
    · subst h
      have hn : (key, value) ∉ rest.toList := fun hm =>
        String.lt_irrefl _ (above_some.mp (above_of_mem_toList hm))
      simp [get?, toList, hn, eq_comm]
    · simp [get?, toList, h, ih]

theorem get?_eq_none_of_not_above {m : SortedMap α bound} {key : String}
    (h : ¬Above bound key) : m.get? key = none := by
  cases hg : m.get? key with
  | none => rfl
  | some value => exact absurd (above_of_mem_toList (get?_eq_some_iff.mp hg)) h

/-- Maps with the same look-ups are equal. -/
theorem ext_get? {bound : Option String} {m n : SortedMap α bound}
    (h : ∀ key, m.get? key = n.get? key) : m = n := by
  induction m with
  | nil =>
    cases n with
    | nil => rfl
    | cons key value _ _ => simpa [get?] using h key
  | cons key value above rest ih =>
    cases n with
    | nil => simpa [get?] using h key
    | cons other found _ tail =>
      have absent {low high : String} {m : SortedMap α (some high)} (lt : low < high) :
          m.get? low = none :=
        get?_eq_none_of_not_above fun ha => String.lt_irrefl _
          (String.lt_trans lt (above_some.mp ha))
      have he : key = other := by
        refine String.le_antisymm (fun lt => ?_) (fun lt => ?_)
        · have := h other
          simp [get?, absent lt, (String.ne_of_lt lt)] at this
        · have := h key
          simp [get?, absent lt, (String.ne_of_lt lt)] at this
      subst he
      have hv := h key
      simp only [get?, if_true, Option.some.injEq] at hv
      subst hv
      congr 1
      refine ih fun query => ?_
      by_cases hq : query = key
      · subst hq
        have hn : ¬Above (some query) query := fun ha =>
          String.lt_irrefl _ (above_some.mp ha)
        rw [get?_eq_none_of_not_above hn, get?_eq_none_of_not_above hn]
      · simpa [get?, hq] using h query

theorem get?_singleton (key : String) (value : α) (query : String) :
    (singleton key value).get? query = if query = key then some value else none := rfl

@[simp] theorem toList_singleton (key : String) (value : α) :
    (singleton key value).toList = [(key, value)] := rfl

theorem get?_erase {bound : Option String} (m : SortedMap α bound) (key query : String) :
    (m.erase key).get? query = if query = key then none else m.get? query := by
  by_cases h : query = key
  · subst h
    cases hg : (m.erase query).get? query with
    | none => simp
    | some value => simp [toList_erase, get?_eq_some_iff] at hg
  · apply Option.ext
    simp [get?_eq_some_iff, toList_erase, h]

theorem toList_insertAbove_of_lt {bound : Option String} (m : SortedMap α bound) (key : String)
    (value : α) (above : Above bound key) (h : ∀ entry ∈ m.toList, entry.1 < key) :
    (m.insertAbove key value above).toList = m.toList ++ [(key, value)] := by
  induction m with
  | nil => rfl
  | cons first old _ rest ih =>
    have gt : first < key := h (first, old) (List.mem_cons_self ..)
    have lt : ¬key < first := fun lt => String.lt_irrefl _ (String.lt_trans lt gt)
    rw [insertAbove, dif_neg lt, dif_pos gt, toList, toList,
      ih _ fun entry he => h entry (List.mem_cons_of_mem _ he), List.cons_append]

theorem toList_foldl_insert (m : SortedMap α none) (entries : List (String × α))
    (h : (m.toList ++ entries).Pairwise (fun a b => a.1 < b.1)) :
    (entries.foldl (fun built entry => built.insert entry.1 entry.2) m).toList =
      m.toList ++ entries := by
  induction entries generalizing m with
  | nil => simp
  | cons entry entries ih =>
    have hl : ∀ e ∈ m.toList, e.1 < entry.1 := fun e he =>
      (List.pairwise_append.mp h).2.2 e he entry (List.mem_cons_self ..)
    have hi : (m.insert entry.1 entry.2).toList = m.toList ++ [entry] :=
      toList_insertAbove_of_lt m entry.1 entry.2 _ hl
    rw [List.foldl_cons, ih _ (by simpa [hi] using h), hi, List.append_assoc, List.singleton_append]

theorem ofList_concat (entries : List (String × α)) (key : String) (value : α) :
    ofList (entries ++ [(key, value)]) = (ofList entries).insert key value := by
  simp [ofList]

/-- Ascending entries are the entries of a map. -/
theorem toList_ofList {entries : List (String × α)}
    (h : entries.Pairwise (fun a b => a.1 < b.1)) : (ofList entries).toList = entries :=
  toList_foldl_insert nil entries h

@[simp] theorem ofList_toList (m : SortedMap α none) : ofList m.toList = m :=
  toList_injective (toList_ofList m.toList_ascending)

theorem perm_toList_insertAbove {bound : Option String} (m : SortedMap α bound) (key : String)
    (value : α) (above : Above bound key) (h : key ∉ m.toList.map Prod.fst) :
    (m.insertAbove key value above).toList.Perm ((key, value) :: m.toList) := by
  induction m with
  | nil => exact .refl _
  | cons first old hf rest ih =>
    rw [toList, List.map_cons, List.mem_cons, not_or] at h
    unfold insertAbove
    split
    · exact .refl _
    · split
      · exact ((ih _ h.2).cons _).trans (.swap ..)
      · rename_i lt gt
        exact absurd (String.le_antisymm gt lt) h.1

theorem perm_toList_foldl_insert {m : SortedMap α none} {entries : List (String × α)}
    (h : ((m.toList ++ entries).map Prod.fst).Nodup) :
    (entries.foldl (fun built entry => built.insert entry.1 entry.2) m).toList.Perm
      (m.toList ++ entries) := by
  induction entries generalizing m with
  | nil => simp
  | cons entry entries ih =>
    have hn : entry.1 ∉ m.toList.map Prod.fst := by
      rw [List.map_append, List.map_cons] at h
      exact fun hm => (List.nodup_append.mp h).2.2 _ hm _ (List.mem_cons_self ..) rfl
    have hp : (m.insert entry.1 entry.2).toList.Perm (entry :: m.toList) :=
      perm_toList_insertAbove m entry.1 entry.2 _ hn
    have hq : ((m.insert entry.1 entry.2).toList ++ entries).Perm (m.toList ++ entry :: entries) :=
      (hp.append_right entries).trans List.perm_middle.symm
    rw [List.foldl_cons]
    exact (ih ((hq.map Prod.fst).nodup_iff.mpr h)).trans hq

/-- Entries with distinct keys are the entries of a map, up to their order. -/
theorem perm_toList_ofList {entries : List (String × α)} (h : (entries.map Prod.fst).Nodup) :
    (ofList entries).toList.Perm entries :=
  perm_toList_foldl_insert (m := nil) h

theorem get?_ofList {entries : List (String × α)} (h : (entries.map Prod.fst).Nodup) {key : String}
    {value : α} : (ofList entries).get? key = some value ↔ (key, value) ∈ entries := by
  rw [get?_eq_some_iff, (perm_toList_ofList h).mem_iff]

/-- Where no two entries of a key differ, each entry can be looked up. -/
theorem get?_ofList_of_functional {entries : List (String × α)}
    (h : ∀ key a b, (key, a) ∈ entries → (key, b) ∈ entries → a = b) {key : String} {value : α} :
    (ofList entries).get? key = some value ↔ (key, value) ∈ entries := by
  induction hr : entries.reverse generalizing entries with
  | nil =>
    rw [List.reverse_eq_nil_iff.mp hr]
    simp [ofList, get?]
  | cons entry rest ih =>
    obtain ⟨last, found⟩ := entry
    have he : entries = rest.reverse ++ [(last, found)] := by
      rw [← List.reverse_cons, ← hr, List.reverse_reverse]
    subst he
    have hi : (ofList rest.reverse).get? key = some value ↔ (key, value) ∈ rest.reverse :=
      ih (fun key a b ha hb => h key a b (List.mem_append_left _ ha) (List.mem_append_left _ hb))
        (by simp)
    rw [ofList_concat, get?_insert, List.mem_append, List.mem_singleton, Prod.mk.injEq]
    split
    · rename_i hk
      subst hk
      constructor
      · intro hv
        exact .inr ⟨rfl, (Option.some.inj hv).symm⟩
      · intro hm
        rw [Option.some.injEq]
        refine h key found value (by simp) (List.mem_append.mpr (hm.imp_right fun hm => ?_))
        simp [hm.2]
    · rename_i hk
      simp [hk, hi]

theorem size_ofList {entries : List (String × α)} (h : (entries.map Prod.fst).Nodup) :
    (ofList entries).size = entries.length :=
  (perm_toList_ofList h).length_eq

theorem nodup_keys (m : SortedMap α bound) : (m.toList.map Prod.fst).Nodup :=
  List.pairwise_map.mpr (m.toList_ascending.imp String.ne_of_lt)

theorem contains_iff {m : SortedMap α bound} {key : String} :
    m.contains key = true ↔ key ∈ m.toList.map Prod.fst := by
  rw [contains, Option.isSome_iff_exists]
  simp [get?_eq_some_iff]

theorem contains_insert_iff {m : SortedMap α none} {key query : String} {value : α} :
    (m.insert key value).contains query = true ↔ query = key ∨ m.contains query = true := by
  rw [contains, contains, get?_insert]
  split
  · rename_i hk
    simp [hk]
  · rename_i hk
    simp [hk]

theorem contains_erase_iff {m : SortedMap α bound} {key query : String} :
    (m.erase key).contains query = true ↔ query ≠ key ∧ m.contains query = true := by
  rw [contains, contains, get?_erase]
  split
  · rename_i hk
    simp [hk]
  · rename_i hk
    simp [hk]

/-- A new entry can be taken away again. -/
theorem erase_insert {m : SortedMap α none} {key : String} (h : m.contains key = false)
    (value : α) : (m.insert key value).erase key = m := by
  have hnone : m.get? key = none := by simpa [contains] using h
  refine ext_get? fun query => ?_
  rw [get?_erase, get?_insert]
  split
  · rename_i hk
    rw [hk, hnone]
  · rfl

theorem insert_erase {m : SortedMap α none} {key : String} {value : α}
    (h : m.get? key = some value) : (m.erase key).insert key value = m := by
  refine ext_get? fun query => ?_
  rw [get?_insert, get?_erase]
  split
  · rename_i hk
    rw [hk, h]
  · rfl

end SortedMap

end LinkedSchema
