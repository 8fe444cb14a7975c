import LinkedSchema.Proofs.Outcome
import LinkedSchema.Schema.Printer
import LinkedSchema.Schema.Shape

namespace LinkedSchema

namespace Json

mutual

/-- No object in the tree has two entries with the same key. -/
def keysApart {Fault : Type} : Json Fault → Bool
  | list items => keysApartItems items
  | object entries _ => decide (entries.map Prod.fst).Nodup && keysApartEntries entries
  | _ => true

def keysApartItems {Fault : Type} : List (Json Fault) → Bool
  | [] => true
  | item :: items => item.keysApart && keysApartItems items

def keysApartEntries {Fault : Type} : List (String × Json Fault) → Bool
  | [] => true
  | (_, value) :: entries => value.keysApart && keysApartEntries entries

end

mutual

/-- There is nothing to merge in a tree whose keys are apart. -/
theorem clean_of_keysApart : (j : Json Empty) → j.keysApart = true → j.clean = .ok j
  | null, _ | bool _, _ | int _, _ | float _, _ | string _, _ => rfl
  | list items, h => by
    rw [clean, cleanItems_of_keysApart items h]
    rfl
  | object entries none, h => by
    obtain ⟨hn, he⟩ := Bool.and_eq_true_iff.mp h
    rw [clean, cleanEntries_of_keysApart entries he]
    simp only [Outcome.ok_bind, Table.entries_ofList (of_decide_eq_true hn)]
    rfl
  | object _ (some f), _ => f.elim
  | fault f, _ => f.elim

theorem cleanItems_of_keysApart : (items : List (Json Empty)) → keysApartItems items = true →
    cleanItems items = .ok items
  | [], _ => rfl
  | item :: items, h => by
    obtain ⟨hi, hr⟩ := Bool.and_eq_true_iff.mp h
    rw [cleanItems, clean_of_keysApart item hi, cleanItems_of_keysApart items hr]
    rfl

theorem cleanEntries_of_keysApart : (entries : List (String × Json Empty)) →
    keysApartEntries entries = true → cleanEntries entries = .ok entries
  | [], _ => rfl
  | (_, value) :: entries, h => by
    obtain ⟨hv, hr⟩ := Bool.and_eq_true_iff.mp h
    rw [cleanEntries, clean_of_keysApart value hv, cleanEntries_of_keysApart entries hr]
    rfl

end

/-- Where there are no faults, there is none in any tree. -/
theorem isClean_eq_true (j : Json Empty) : j.isClean = true := by
  unfold isClean
  split
  · rfl
  · rename_i f _
    exact f.elim

namespace Shape

variable {α β : Type} {shape : Shape Empty α}

theorem anything_of_keysApart {j : Json Empty} (h : j.keysApart = true) : anything j = .ok j := by
  simp only [anything, clean_of_keysApart j h, Outcome.pure_eq]

theorem int64_toInt (n : Int64) : int64 (.int n.toInt : Json Empty) = .ok n := by
  have hmin := n.minValue_le_toInt
  have hmax := n.toInt_le
  simp only [int64]
  rw [if_pos ⟨hmin, hmax⟩]
  simp

theorem listOf_map {toJson : α → Json Empty} {items : List α}
    (h : ∀ item ∈ items, shape (toJson item) = .ok item) :
    listOf shape (.list (items.map toJson)) = .ok items := by
  rw [listOf, List.mapM_map]
  refine Outcome.mapM_eq_ok.mpr ?_
  exact List.forall₂_same.mpr h

theorem listOf_names (names : List String) : listOf string (namesToJson names) = .ok names :=
  listOf_map fun _ _ => rfl

/-- A table is written with its entries in their order, and is read in that order. -/
theorem tableOf_toJson {toJson : α → Json Empty} {t : Table α}
    (h : ∀ entry ∈ t.entries, shape (toJson entry.2) = .ok entry.2) :
    tableOf shape (t.toJson toJson) = .ok t := by
  have hread : (t.entries.map fun entry => (entry.1, toJson entry.2)).mapM
      (fun entry => (entry.1, ·) <$> shape entry.2) = .ok t.entries := by
    rw [List.mapM_map]
    refine Outcome.mapM_eq_ok.mpr (List.forall₂_same.mpr fun entry hm => ?_)
    show (entry.1, ·) <$> shape (toJson entry.2) = .ok entry
    rw [h entry hm]
    rfl
  rw [Table.toJson, ofEntries, tableOf, hread]
  exact congrArg Except.ok (Table.ext_entries (Table.entries_ofList t.nodup))

theorem optional_of_ne_null {j : Json Empty} {a : α} (hn : j ≠ .null) (h : shape j = .ok a) :
    optional shape j = .ok (some a) := by
  cases j with
  | null => exact absurd rfl hn
  | _ =>
    simp only [optional, h]
    rfl

/-- What is read from a record is there, and gives the value. -/
def Located.Gives (x : Located α) (a : α) : Prop :=
  x.outcome = .ok a

namespace Located

theorem gives_pure (a : α) : (pure a : Located α).Gives a := rfl

theorem Gives.map {x : Located α} {a : α} (f : α → β) (h : x.Gives a) : (f <$> x).Gives (f a) := by
  simp only [Gives] at h
  simp only [Gives, Functor.map, h]

theorem Gives.seq {f : Located (α → β)} {x : Located α} {g : α → β} {a : α} (hf : f.Gives g)
    (h : x.Gives a) : (f <*> x).Gives (g a) := by
  simp only [Gives] at hf h
  simp only [Gives, Seq.seq, hf, h]

end Located

namespace Fields

section Read

variable {Fault : Type} {fields : Fields Fault} {shape : Shape Fault α} {name : String}
  {absent : Option α}

/-- A field that is there is read, whatever could be taken in its place. -/
theorem read_of_lookup_eq_some {j : Json Fault} (hl : fields.entries.lookup name = some j) :
    ∃ place, fields.read name shape absent = ⟨(shape j).mapError (place, ·)⟩ := by
  have hplace : ∃ place, fields.entries.findIdx? (fun entry => entry.1 = name) = some place := by
    rw [← Option.isSome_iff_exists, List.findIdx?_isSome]
    obtain ⟨found, rest, he, _⟩ := List.lookup_eq_some_iff.mp hl
    simp [he]
  obtain ⟨place, hp⟩ := hplace
  exact ⟨place, by simp only [read, hp, hl]⟩

theorem read_of_lookup_eq_none (hl : fields.entries.lookup name = none) :
    fields.read name shape absent =
      match absent with
      | some a => pure a
      | none => ⟨.error (fields.missing name)⟩ := by
  unfold read
  rw [hl]
  split
  · rename_i he
    cases he
  · rfl

end Read

variable {fields : Fields Empty} {name : String} {j : Json Empty} {a : α}

theorem gives_read {absent : Option α} (hl : fields.entries.lookup name = some j)
    (h : shape j = .ok a) : (fields.read name shape absent).Gives a := by
  obtain ⟨place, hread⟩ : ∃ place, fields.read name shape absent =
    ⟨(shape j).mapError (place, ·)⟩ := read_of_lookup_eq_some hl
  rw [Located.Gives, hread, h]
  rfl

theorem gives_required (hl : fields.entries.lookup name = some j) (h : shape j = .ok a) :
    (fields.required name shape).Gives a :=
  gives_read hl h

theorem gives_defaulted {default : α} (hl : fields.entries.lookup name = some j)
    (h : shape j = .ok a) : (fields.defaulted name shape default).Gives a :=
  gives_read hl h

theorem gives_default {default : α} (hl : fields.entries.lookup name = none) :
    (fields.defaulted name shape default).Gives default := by
  rw [defaulted, read_of_lookup_eq_none hl]
  exact Located.gives_pure default

/-- A field that is written only where there is a value gives the value back. -/
theorem gives_optional (toJson : α → Json Empty) {value : Option α}
    (hl : fields.entries.lookup name = value.map toJson)
    (h : ∀ a, value = some a → toJson a ≠ .null ∧ shape (toJson a) = .ok a) :
    (fields.optional name shape).Gives value := by
  cases value with
  | none => exact gives_default hl
  | some a => exact gives_defaulted hl (optional_of_ne_null (h a rfl).1 (h a rfl).2)

end Fields

theorem firstRepeat?_eq_none {Fault : Type} {before : List String}
    {entries : List (String × Json Fault)} {place : Nat} :
    Fields.firstRepeat? place before entries = none ↔
      (entries.map Prod.fst).Nodup ∧ ∀ entry ∈ entries, entry.1 ∉ before := by
  induction entries generalizing before place with
  | nil => simp [Fields.firstRepeat?]
  | cons entry rest ih =>
    rw [Fields.firstRepeat?, List.map_cons, List.nodup_cons, List.forall_mem_cons]
    simp only [List.contains_iff_mem]
    by_cases hb : entry.1 ∈ before
    · simp [hb]
    · rw [if_neg hb, ih]
      constructor
      · rintro ⟨hn, hr⟩
        refine ⟨⟨fun hm => ?_, hn⟩, hb, fun other ho hm => hr other ho (List.mem_cons_of_mem _ hm)⟩
        obtain ⟨other, ho, he⟩ := List.mem_map.mp hm
        exact hr other ho (he ▸ List.mem_cons_self ..)
      · rintro ⟨⟨hn, hr⟩, -, hrest⟩
        refine ⟨hr, fun other ho hm => ?_⟩
        rcases List.mem_cons.mp hm with he | hm
        · exact hn (he ▸ List.mem_map_of_mem ho)
        · exact hrest other ho hm

/-- A record in which no field is repeated is what its fields give. -/
theorem once_of_nodup {Fault : Type} {fields : Fields Fault} (record : Located α)
    (h : (fields.entries.map Prod.fst).Nodup) : fields.once record = record := by
  rw [Fields.once, firstRepeat?_eq_none.mpr ⟨h, fun _ _ => List.not_mem_nil⟩]

/-- An object without repeated keys is what its fields give. -/
theorem record_of_nodup {Fault : Type} {title : String} {names : List String}
    {read : Fields Fault → Located α} {entries : List (String × Json Fault)} {a : α}
    (hn : (entries.map Prod.fst).Nodup)
    (h : (read (.ofEntries ("struct " ++ title) names entries)).Gives a) :
    record title names read (.object entries none) = .ok a := by
  have hkept : ((Fields.ofEntries ("struct " ++ title) names entries).entries.map
      Prod.fst).Nodup := hn.sublist (List.filter_sublist.map _)
  simp only [record, recordFrom, once_of_nodup _ hkept, Outcome.mapError_eq_ok]
  exact h

/-- A record whose fields were written in the order of declaration, some of them left out. -/
theorem recordFrom_ofEntries {title : String} {names : List String}
    {read : Fields Empty → Located α} {entries : List (String × Json Empty)} {a : α}
    (positional : Bool) (expected : String) (hn : names.Nodup)
    (hs : (entries.map Prod.fst).Sublist names)
    (h : (read ⟨title, names, entries, false⟩).Gives a) :
    recordFrom title names read positional expected (.ofEntries entries) = .ok a := by
  have hfilter : entries.filter (fun entry => names.contains entry.1) = entries := by
    refine List.filter_eq_self.mpr fun entry hm => ?_
    rw [List.contains_iff_mem]
    exact hs.subset (List.mem_map_of_mem hm)
  simp only [ofEntries, recordFrom, Fields.ofEntries, hfilter, Outcome.mapError_eq_ok]
  rw [once_of_nodup _ (hn.sublist hs)]
  exact h

theorem record_ofEntries {title : String} {names : List String} {read : Fields Empty → Located α}
    {entries : List (String × Json Empty)} {a : α} (hn : names.Nodup)
    (hs : (entries.map Prod.fst).Sublist names)
    (h : (read ⟨"struct " ++ title, names, entries, false⟩).Gives a) :
    record title names read (.ofEntries entries) = .ok a :=
  recordFrom_ofEntries true ("struct " ++ title) hn hs h

theorem withFields_ofEntries {tag : String} {names : List String} {positional : Bool}
    {read : Fields Empty → Located α} {entries : List (String × Json Empty)} {a : α}
    (hn : names.Nodup) (hs : (entries.map Prod.fst).Sublist names)
    (h : (read ⟨"struct variant", names, entries, false⟩).Gives a) :
    (Variant.withFields positional tag names read).shape (.ofEntries entries) = .ok a :=
  recordFrom_ofEntries positional "struct variant" hn hs h

theorem bare_ofEntries (positional : Bool) (tag : String) (a : α) :
    (Variant.bare positional tag a).shape (.ofEntries [] : Json Empty) = .ok a :=
  withFields_ofEntries .nil (.refl _) (Located.gives_pure a)

/-- A variant is found by its tag. -/
theorem oneOf_tagged {variants : List (Variant Empty α)} {variant : Variant Empty α} {tag : String}
    {content : Json Empty} {a : α}
    (hf : variants.find? (fun variant => variant.tag = tag) = some variant)
    (h : variant.shape content = .ok a) : oneOf variants (tagged tag content) = .ok a := by
  simp only [tagged, ofEntries, oneOf, oneOf.find, hf, Outcome.pure_eq, Outcome.ok_bind, h]

/-- A variant that holds something is read as what it holds. -/
theorem oneOf_holding {variants : List (Variant Empty α)} {tag : String} {content : Json Empty}
    {a : α} (hf : variants.find? (fun variant => variant.tag = tag) = some (.holding tag shape))
    (h : shape content = .ok a) : oneOf variants (tagged tag content) = .ok a :=
  oneOf_tagged hf h

end Shape

end Json

/-- The key of an entry that may be left out. -/
theorem map_fst_entryIf_sublist (key : String) (value : Option (Json Empty)) :
    ((entryIf key value).map Prod.fst).Sublist [key] := by
  cases value with
  | none => exact List.nil_sublist _
  | some j => exact .refl _

theorem lookup_entryIf_self (key : String) (value : Option (Json Empty)) :
    (entryIf key value).lookup key = value := by
  cases value <;> simp [entryIf]

theorem lookup_entryIf_of_ne {key name : String} (h : name ≠ key) (value : Option (Json Empty)) :
    (entryIf key value).lookup name = none := by
  have hb : (name == key) = false := by simpa using h
  cases value <;> simp [entryIf, List.lookup_cons, hb]

end LinkedSchema
