import LinkedSchema.Proofs.Json.Shapes
import LinkedSchema.Proofs.Lists

namespace LinkedSchema

/-- Entries with the same key and related values. -/
def Keyed {α β : Type} (rel : α → β → Prop) (entry : String × α) (other : String × β) : Prop :=
  entry.1 = other.1 ∧ rel entry.2 other.2

namespace Keyed

variable {α β : Type} {rel : α → β → Prop} {entries : List (String × α)}
  {others : List (String × β)}

theorem keys_eq (h : List.Forall₂ (Keyed rel) entries others) :
    entries.map Prod.fst = others.map Prod.fst :=
  map_eq_of_forall₂ h fun _ _ h => h.1

/-- A filter that looks only at the keys keeps entries of the same keys. -/
theorem filter (keep : String → Bool) (h : List.Forall₂ (Keyed rel) entries others) :
    List.Forall₂ (Keyed rel) (entries.filter fun entry => keep entry.1)
      (others.filter fun entry => keep entry.1) := by
  refine List.rel_filter (fun entry other he => ?_) h
  show keep entry.1 = true ↔ keep other.1 = true
  rw [he.1]

/-- The same keys are given to items in the same places. -/
theorem zip (names : List String) {items : List α} {others : List β}
    (h : List.Forall₂ rel items others) :
    List.Forall₂ (Keyed rel) (names.zip items) (names.zip others) := by
  induction h generalizing names with
  | nil => simp
  | cons hfirst _ ih =>
    cases names with
    | nil => exact .nil
    | cons name names => exact .cons ⟨rfl, hfirst⟩ (ih names)

theorem lookup (h : List.Forall₂ (Keyed rel) entries others) (name : String) :
    Option.Rel rel (entries.lookup name) (others.lookup name) := by
  induction h with
  | nil => exact .none
  | @cons entry other _ _ hfirst _ ih =>
    obtain ⟨key, a⟩ := entry
    obtain ⟨_, b⟩ := other
    obtain ⟨rfl, hab⟩ := hfirst
    rw [List.lookup_cons, List.lookup_cons]
    cases name == key with
    | true => exact .some hab
    | false => exact ih

end Keyed

namespace Table

variable {α β : Type} {rel : α → β → Prop} {entries : List (String × α)}

theorem forall₂_insert {t : Table α} {u : Table β} {a : α} {b : β} (key : String)
    (h : List.Forall₂ (Keyed rel) t.entries u.entries) (hab : rel a b) :
    List.Forall₂ (Keyed rel) (t.insert key a).entries (u.insert key b).entries := by
  have hkeys := Keyed.keys_eq h
  by_cases hm : key ∈ t.entries.map Prod.fst
  · rw [insert, dif_pos hm, insert, dif_pos (hkeys ▸ hm)]
    refine List.rel_map (fun entry other he => ?_) h
    show Keyed rel (if entry.1 = key then _ else _) (if other.1 = key then _ else _)
    rw [he.1]
    split
    · exact ⟨rfl, hab⟩
    · exact he
  · rw [insert, dif_neg hm, insert, dif_neg (hkeys ▸ hm)]
    exact List.rel_append h (.cons ⟨rfl, hab⟩ .nil)

/-- Merging keeps entries of the same keys beside one another. -/
theorem forall₂_ofList {others : List (String × β)}
    (h : List.Forall₂ (Keyed rel) entries others) :
    List.Forall₂ (Keyed rel) (ofList entries).entries (ofList others).entries :=
  have hstep : ∀ (t : Table α) (u : Table β), List.Forall₂ (Keyed rel) t.entries u.entries →
      ∀ entry other, Keyed rel entry other →
        List.Forall₂ (Keyed rel) (t.insert entry.1 entry.2).entries
          (u.insert other.1 other.2).entries :=
    fun _ _ h entry _ he => he.1 ▸ forall₂_insert entry.1 h he.2
  List.rel_foldl hstep .nil h

/-- Merging makes no values of its own. -/
theorem forall_ofList (property : α → Prop) (h : ∀ entry ∈ entries, property entry.2) :
    ∀ entry ∈ (ofList entries).entries, property entry.2 := by
  have hself : List.Forall₂ (Keyed fun a (_ : α) => property a) entries entries :=
    List.forall₂_same.mpr fun entry hm => ⟨rfl, h entry hm⟩
  exact fun entry hm => (List.forall₂_same.mp (forall₂_ofList hself) entry hm).2

/-- The last value of a key counts. -/
theorem get?_ofList (entries : List (String × α)) (key : String) :
    (ofList entries).get? key = entries.reverse.lookup key := by
  suffices h : ∀ t : Table α,
      (entries.foldl (fun t entry => t.insert entry.1 entry.2) t).get? key =
        (entries.reverse.lookup key).or (t.get? key) by
    exact (h ∅).trans Option.or_none
  induction entries with
  | nil => exact fun t => rfl
  | cons entry rest ih =>
    intro t
    rw [List.foldl_cons, ih, get?_insert, List.reverse_cons, List.lookup_append, Option.or_assoc]
    congr 1
    obtain ⟨first, a⟩ := entry
    by_cases hk : key = first
    · simp [hk]
    · have hb : (key == first) = false := by simpa using hk
      simp [List.lookup_cons, hk, hb]

end Table

theorem lookup_filter {α : Type} (entries : List (String × α)) (keep : String → Bool)
    (name : String) :
    (entries.filter fun entry => keep entry.1).lookup name =
      if keep name then entries.lookup name else none := by
  induction entries with
  | nil => simp
  | cons entry rest ih =>
    obtain ⟨key, a⟩ := entry
    by_cases hk : name = key
    · subst hk
      cases hkeep : keep name <;> simp [hkeep, ih]
    · have hb : (name == key) = false := by simpa using hk
      cases hkeep : keep key <;> simp [List.lookup_cons, hkeep, hb, ih]

/-- Of kept keys that come once the value is the same in the merged entries. -/
theorem Table.lookup_filter_ofList {α : Type} {entries : List (String × α)}
    {keep : String → Bool}
    (h : ((entries.filter fun entry => keep entry.1).map Prod.fst).Nodup) (name : String) :
    ((ofList entries).entries.filter fun entry => keep entry.1).lookup name =
      (entries.filter fun entry => keep entry.1).lookup name :=
  calc ((ofList entries).entries.filter fun entry => keep entry.1).lookup name
    _ = if keep name then entries.reverse.lookup name else none := by
      rw [lookup_filter, ← get?_ofList, get?]
    _ = (entries.filter fun entry => keep entry.1).reverse.lookup name := by
      rw [← lookup_filter, List.filter_reverse]
    _ = (entries.filter fun entry => keep entry.1).lookup name := by
      rw [← get?_ofList, get?, entries_ofList h]

namespace Json

variable {Fault : Type}

theorem cleanItems_eq_ok {items : List (Json Fault)} {cleaned : List (Json Empty)} :
    cleanItems items = .ok cleaned ↔
      List.Forall₂ (fun item j => item.clean = .ok j) items cleaned := by
  rw [← Outcome.mapM_eq_ok]
  suffices h : cleanItems items = items.mapM clean by rw [h]
  induction items with
  | nil => rfl
  | cons item items ih => rw [cleanItems, List.mapM_cons, ih]

theorem cleanEntries_eq_ok {entries : List (String × Json Fault)}
    {cleaned : List (String × Json Empty)} :
    cleanEntries entries = .ok cleaned ↔
      List.Forall₂ (Keyed fun value j => value.clean = .ok j) entries cleaned := by
  induction entries generalizing cleaned with
  | nil => cases cleaned <;> simp [cleanEntries]
  | cons entry entries ih =>
    obtain ⟨key, value⟩ := entry
    constructor
    · intro h
      obtain ⟨first, hfirst, h⟩ := Outcome.bind_eq_ok.mp h
      obtain ⟨rest, hrest, h⟩ := Outcome.bind_eq_ok.mp h
      cases h
      exact .cons ⟨rfl, hfirst⟩ (ih.mp hrest)
    · intro h
      cases h with
      | @cons _ other _ _ hfirst hrest =>
        obtain ⟨_, first⟩ := other
        obtain ⟨rfl, hfirst⟩ := hfirst
        rw [cleanEntries, hfirst, ih.mpr hrest]
        rfl

theorem clean_list_eq_ok {items : List (Json Fault)} {tree : Json Empty} :
    (list items).clean = .ok tree ↔
      ∃ cleaned, List.Forall₂ (fun item j => item.clean = .ok j) items cleaned ∧
        tree = list cleaned := by
  rw [clean, Outcome.bind_eq_ok]
  simp only [cleanItems_eq_ok, Outcome.pure_eq, Except.ok.injEq, @eq_comm _ _ tree]

theorem clean_object_eq_ok {entries : List (String × Json Fault)} {ending : Option Fault}
    {tree : Json Empty} :
    (object entries ending).clean = .ok tree ↔
      ending = none ∧ ∃ cleaned,
        List.Forall₂ (Keyed fun value j => value.clean = .ok j) entries cleaned ∧
          tree = ofEntries (Table.ofList cleaned).entries := by
  rw [clean, Outcome.bind_eq_ok]
  cases ending with
  | none =>
    simp only [cleanEntries_eq_ok, Outcome.pure_eq, Except.ok.injEq, @eq_comm _ _ tree, true_and]
  | some fault => simp

theorem clean_eq_null {j : Json Fault} : j.clean = .ok null ↔ j = null := by
  cases j with
  | list items => simp [clean_list_eq_ok]
  | object entries ending => simp [clean_object_eq_ok, ofEntries]
  | _ => simp [clean]

theorem clean_eq_string {j : Json Fault} {s : String} :
    j.clean = .ok (string s) ↔ j = string s := by
  cases j with
  | list items => simp [clean_list_eq_ok]
  | object entries ending => simp [clean_object_eq_ok, ofEntries]
  | _ => simp [clean]

theorem isClean_of_clean {j : Json Fault} {tree : Json Empty} (h : j.clean = .ok tree) :
    j.isClean = true := by
  rw [isClean, h]

/-- What holds of scalars, and passes from parts to lists and to merged objects. -/
structure Merges (property : Json Fault → Json Empty → Prop) : Prop where
  null : property null null
  bool (b : Bool) : property (bool b) (bool b)
  int (n : Int) : property (int n) (int n)
  float (x : Binary64) : property (float x) (float x)
  string (s : String) : property (string s) (string s)
  list {items : List (Json Fault)} {cleaned : List (Json Empty)} :
    List.Forall₂ property items cleaned → property (list items) (list cleaned)
  object {entries : List (String × Json Fault)} {cleaned : List (String × Json Empty)} :
    List.Forall₂ (Keyed property) entries cleaned →
      property (object entries none) (ofEntries (Table.ofList cleaned).entries)

section Merges

variable {property : Json Fault → Json Empty → Prop}

mutual

theorem Merges.of_clean (h : Merges property) : (j : Json Fault) → {tree : Json Empty} →
    j.clean = .ok tree → property j tree
  | .null, _, rfl => h.null
  | .bool b, _, rfl => h.bool b
  | .int n, _, rfl => h.int n
  | .float x, _, rfl => h.float x
  | .string s, _, rfl => h.string s
  | .list items, _, hj => by
    obtain ⟨cleaned, hc, rfl⟩ := clean_list_eq_ok.mp hj
    exact h.list (h.of_items items hc)
  | .object entries _, _, hj => by
    obtain ⟨rfl, cleaned, hc, rfl⟩ := clean_object_eq_ok.mp hj
    exact h.object (h.of_entries entries hc)

theorem Merges.of_items (h : Merges property) : (items : List (Json Fault)) →
    {cleaned : List (Json Empty)} →
    List.Forall₂ (fun item j => item.clean = .ok j) items cleaned →
      List.Forall₂ property items cleaned
  | [], _, .nil => .nil
  | item :: items, _, .cons hi hr => .cons (h.of_clean item hi) (h.of_items items hr)

theorem Merges.of_entries (h : Merges property) : (entries : List (String × Json Fault)) →
    {cleaned : List (String × Json Empty)} →
    List.Forall₂ (Keyed fun value j => value.clean = .ok j) entries cleaned →
      List.Forall₂ (Keyed property) entries cleaned
  | [], _, .nil => .nil
  | (_, value) :: entries, _, .cons he hr =>
    .cons ⟨he.1, h.of_clean value he.2⟩ (h.of_entries entries hr)

end

end Merges

theorem keysApartItems_iff {items : List (Json Fault)} :
    keysApartItems items = true ↔ ∀ item ∈ items, item.keysApart = true := by
  induction items with
  | nil => simp [keysApartItems]
  | cons item items ih => simp [keysApartItems, ih]

theorem keysApartEntries_iff {entries : List (String × Json Fault)} :
    keysApartEntries entries = true ↔ ∀ entry ∈ entries, entry.2.keysApart = true := by
  induction entries with
  | nil => simp [keysApartEntries]
  | cons entry entries ih =>
    obtain ⟨key, value⟩ := entry
    simp [keysApartEntries, ih]

theorem keysApart_object {entries : List (String × Json Fault)} {ending : Option Fault} :
    (object entries ending).keysApart = true ↔
      (entries.map Prod.fst).Nodup ∧ ∀ entry ∈ entries, entry.2.keysApart = true := by
  rw [keysApart, Bool.and_eq_true_iff, decide_eq_true_iff, keysApartEntries_iff]

theorem depthItems_le_iff {items : List (Json Fault)} {most : Nat} :
    depthItems items ≤ most ↔ ∀ item ∈ items, item.depth ≤ most := by
  induction items with
  | nil => simp [depthItems]
  | cons item items ih => rw [depthItems, Nat.max_le, ih, List.forall_mem_cons]

theorem depthEntries_le_iff {entries : List (String × Json Fault)} {most : Nat} :
    depthEntries entries ≤ most ↔ ∀ entry ∈ entries, entry.2.depth ≤ most := by
  induction entries with
  | nil => simp [depthEntries]
  | cons entry entries ih =>
    obtain ⟨key, value⟩ := entry
    rw [depthEntries, Nat.max_le, ih, List.forall_mem_cons]

/-- Nothing is left to merge. -/
theorem keysApart_of_clean {j : Json Fault} {tree : Json Empty} (h : j.clean = .ok tree) :
    tree.keysApart = true := by
  have hmerges : Merges fun (_ : Json Fault) tree => tree.keysApart = true := by
    refine ⟨rfl, fun _ => rfl, fun _ => rfl, fun _ => rfl, fun _ => rfl, fun hc => ?_, fun hc => ?_⟩
    · refine keysApartItems_iff.mpr fun item hm => ?_
      obtain ⟨_, h⟩ := exists_of_forall₂ (List.Forall₂.flip hc) item hm
      exact h
    · refine keysApart_object.mpr ⟨(Table.ofList _).nodup, ?_⟩
      refine Table.forall_ofList (fun tree : Json Empty => tree.keysApart = true) fun entry hm => ?_
      obtain ⟨_, h⟩ := exists_of_forall₂ (List.Forall₂.flip hc) entry hm
      exact h.2
  exact hmerges.of_clean j h

/-- Merging leaves out parts and adds none. -/
theorem depth_le_of_clean {j : Json Fault} {tree : Json Empty} (h : j.clean = .ok tree) :
    tree.depth ≤ j.depth := by
  have hmerges : Merges fun (j : Json Fault) tree => tree.depth ≤ j.depth := by
    refine ⟨Nat.le_refl 0, fun _ => Nat.le_refl 0, fun _ => Nat.le_refl 0, fun _ => Nat.le_refl 0,
      fun _ => Nat.le_refl 0, fun hc => ?_, fun {entries _} hc => ?_⟩
    · refine Nat.succ_le_succ (depthItems_le_iff.mpr fun item hm => ?_)
      obtain ⟨before, hb, h⟩ := exists_mem_of_forall₂ (List.Forall₂.flip hc) item hm
      exact Nat.le_trans h (depthItems_le_iff.mp (Nat.le_refl _) before hb)
    · refine Nat.succ_le_succ (depthEntries_le_iff.mpr ?_)
      refine Table.forall_ofList (fun tree : Json Empty => tree.depth ≤ depthEntries entries)
        fun entry hm => ?_
      obtain ⟨before, hb, h⟩ := exists_mem_of_forall₂ (List.Forall₂.flip hc) entry hm
      exact Nat.le_trans h.2 (depthEntries_le_iff.mp (Nat.le_refl _) before hb)
  exact hmerges.of_clean j h

end Json

end LinkedSchema
