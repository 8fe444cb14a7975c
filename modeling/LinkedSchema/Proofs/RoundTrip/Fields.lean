import LinkedSchema.Proofs.Plain.StructWriting
import Mathlib.Data.List.Nodup

namespace LinkedSchema

namespace Field

variable {part : PartOutcome} {field : Field}

/-- What is given for a field in the representation, and what is read from it. -/
inductive Reads (part : PartOutcome) (field : Field) : Option Value → Option Value → Prop where
  | present {given value : Value} (h : field.type.plain part given = .ok value) :
      Reads part field (some given) (some value)
  | absent {typed : Option Value} (h : field.isRequired = false) (ht : typed = field.implicit) :
      Reads part field none typed

/-- What a field is in the typed form, and what is written for it. -/
inductive Writes (part : PartOutcome) (field : Field) : Option Value → Option Value → Prop where
  | present {value given : Value} (hi : field.implicit.any (·.same value) = false)
      (h : field.type.plain part value = .ok given) : Writes part field (some value) (some given)
  | implied {value : Value} (hi : field.implicit.any (·.same value) = true) :
      Writes part field (some value) none
  | absent (h : field.isRequired = false) : Writes part field none none

theorem Reads.unique {given typed other : Option Value} (h : field.Reads part given typed)
    (ho : field.Reads part given other) : typed = other := by
  cases h with
  | present h =>
    cases ho with
    | present ho =>
      rw [h] at ho
      cases ho
      rfl
  | absent _ ht =>
    cases ho with
    | absent _ hot => rw [ht, hot]

theorem Writes.unique {typed written other : Option Value} (h : field.Writes part typed written)
    (ho : field.Writes part typed other) : written = other := by
  cases h with
  | present hi h =>
    cases ho with
    | present _ ho =>
      rw [h] at ho
      cases ho
      rfl
    | implied ho => simp [hi] at ho
  | implied hi =>
    cases ho with
    | present ho _ => simp [hi] at ho
    | implied _ => rfl
  | absent _ =>
    cases ho with
    | absent _ => rfl

theorem isRequired_rule (part : PartOutcome) (field : Field) :
    (field.rule part).isRequired = field.isRequired := by
  unfold Plain.FieldRule.isRequired Field.isRequired rule
  cases field.implicit <;> rfl

/-- The value of an absent field is known. -/
theorem exists_filling (part : PartOutcome) (field : Field) :
    ∃ filling, (field.rule part).filling = .ok filling := by
  unfold Plain.FieldRule.filling rule
  cases field.implicit with
  | none => exact ⟨none, rfl⟩
  | some value => exact ⟨some (field.name, value), rfl⟩

theorem not_isRequired (field : Field) {value : Value} (h : field.implicit = some value) :
    field.isRequired = false := by
  simp [isRequired, h]

end Field

namespace Plain

variable {part : PartOutcome} {fields : List Field} {given typed : SortedMap Value none}

/-- Every key of a map is the name, or the key, of a field. -/
def Within (name : Field → String) (fields : List Field) (entries : SortedMap Value none) : Prop :=
  ∀ key, entries.contains key = true → ∃ field ∈ fields, name field = key

/-- The two forms of a struct, as reading relates them. -/
structure StructReads (part : PartOutcome) (fields : List Field)
    (given typed : SortedMap Value none) : Prop where
  keys : Within Field.key fields given
  names : Within Field.name fields typed
  fields : ∀ field ∈ fields, field.Reads part (given.get? field.key) (typed.get? field.name)

/-- The two forms of a struct, as writing relates them. -/
structure StructWrites (part : PartOutcome) (fields : List Field)
    (typed written : SortedMap Value none) : Prop where
  names : Within Field.name fields typed
  keys : Within Field.key fields written
  fields : ∀ field ∈ fields, field.Writes part (typed.get? field.name) (written.get? field.key)

/-- Entries that are known by the fields they belong to make a map that is known by its fields. -/
theorem get?_ofList_of_fields {name : Field → String} (hn : (fields.map name).Nodup)
    {entries : List (String × Value)} (holds : Field → Value → Prop)
    (hu : ∀ field a b, holds field a → holds field b → a = b)
    (hm : ∀ key value, (key, value) ∈ entries ↔
      ∃ field ∈ fields, name field = key ∧ holds field value) :
    Within name fields (SortedMap.ofList entries) ∧ ∀ field ∈ fields, ∀ value,
      (SortedMap.ofList entries).get? (name field) = some value ↔ holds field value := by
  have hf : ∀ key a b, (key, a) ∈ entries → (key, b) ∈ entries → a = b := by
    intro key a b ha hb
    obtain ⟨field, hfm, rfl, hfa⟩ := (hm key a).mp ha
    obtain ⟨other, hom, he, hob⟩ := (hm _ b).mp hb
    rw [List.inj_on_of_nodup_map hn hom hfm he] at hob
    exact hu field a b hfa hob
  constructor
  · intro key hc
    obtain ⟨value, hv⟩ := Option.isSome_iff_exists.mp hc
    obtain ⟨field, hfm, hk, -⟩ := (hm key value).mp ((SortedMap.get?_ofList_of_functional hf).mp hv)
    exact ⟨field, hfm, hk⟩
  · intro field hfm value
    rw [SortedMap.get?_ofList_of_functional hf, hm]
    constructor
    · intro h
      obtain ⟨other, hom, he, hv⟩ := h
      rwa [List.inj_on_of_nodup_map hn hom hfm he] at hv
    · intro hv
      exact ⟨field, hfm, rfl, hv⟩

theorem any_isRequired_eq_false {name : FieldRule → String} {fieldName : Field → String}
    (hn : ∀ field, name (field.rule part) = fieldName field) :
    ((fields.map (Field.rule part)).any fun rule =>
        rule.isRequired && !given.contains (name rule)) = false ↔
      ∀ field ∈ fields, given.get? (fieldName field) = none → field.isRequired = false := by
  rw [List.any_eq_false, List.forall_mem_map]
  refine forall₂_congr fun field _ => ?_
  rw [hn, Field.isRequired_rule, SortedMap.contains]
  cases given.get? (fieldName field) <;> simp

section Reading

theorem readEntry_eq_ok_iff (hk : (fields.map Field.key).Nodup) {entry converted : String × Value} :
    readEntry (fields.map (Field.rule part)) entry = .ok converted ↔
      ∃ field ∈ fields, field.key = entry.1 ∧ field.name = converted.1 ∧
        field.type.plain part entry.2 = .ok converted.2 := by
  unfold readEntry
  rw [StructMap.find?_rule_key]
  constructor
  · intro h
    cases hf : fields.find? fun field => field.key = entry.1 with
    | none => simp [hf] at h
    | some field =>
      obtain ⟨hm, hkey⟩ := (find?_eq_some_iff_of_nodup hk).mp hf
      simp only [hf, Option.map_some] at h
      obtain ⟨value, hv, h⟩ := Outcome.bind_eq_ok.mp h
      cases h
      exact ⟨field, hm, hkey, rfl, hv⟩
  · intro h
    obtain ⟨field, hm, hkey, hname, hv⟩ := h
    rw [(find?_eq_some_iff_of_nodup hk).mpr ⟨hm, hkey⟩]
    show (field.type.plain part entry.2 >>= fun value => pure (field.name, value)) = _
    rw [hv, hname]
    rfl

/-- The typed value of a field, from what is given for it or from its absence. -/
def IsTyped (part : PartOutcome) (given : SortedMap Value none) (field : Field) (value : Value) :
    Prop :=
  match given.get? field.key with
  | some found => field.type.plain part found = .ok value
  | none => field.implicit = some value

theorem IsTyped.unique {field : Field} {a b : Value} (ha : IsTyped part given field a)
    (hb : IsTyped part given field b) : a = b := by
  unfold IsTyped at ha hb
  cases hg : given.get? field.key with
  | none =>
    simp only [hg] at ha hb
    rw [ha] at hb
    exact Option.some.inj hb
  | some found =>
    simp only [hg] at ha hb
    rw [ha] at hb
    cases hb
    rfl

theorem mem_read_iff (hk : (fields.map Field.key).Nodup) {done : List (String × Value)}
    {filled : List (Option (String × Value))}
    (hd : given.toList.mapM (readEntry (fields.map (Field.rule part))) = .ok done)
    (hf : ((fields.map (Field.rule part)).filter fun rule => !given.contains rule.key).mapM
      FieldRule.filling = .ok filled) (name : String) (value : Value) :
    (name, value) ∈ done ++ filled.reduceOption ↔
      ∃ field ∈ fields, field.name = name ∧ IsTyped part given field value := by
  rw [List.mem_append, Outcome.mem_of_mapM_eq_ok hd, List.reduceOption_mem_iff,
    Outcome.mem_of_mapM_eq_ok hf]
  constructor
  · intro h
    rcases h with ⟨entry, hm, he⟩ | ⟨rule, hm, hr⟩
    · obtain ⟨field, hfm, hkey, hname, hv⟩ := (readEntry_eq_ok_iff hk).mp he
      refine ⟨field, hfm, hname, ?_⟩
      have hg : given.get? field.key = some entry.2 := by
        rw [hkey]
        exact SortedMap.get?_eq_some_iff.mpr hm
      simpa only [IsTyped, hg] using hv
    · obtain ⟨hm, hc⟩ := List.mem_filter.mp hm
      obtain ⟨field, hfm, rfl⟩ := List.mem_map.mp hm
      have hg : given.get? field.key = none := by simpa [SortedMap.contains] using hc
      simp only [FieldRule.filling, Field.rule] at hr
      cases hi : field.implicit with
      | none => simp [hi] at hr
      | some implicit =>
        simp only [hi, Option.map_some, Outcome.ok_bind, Outcome.pure_eq, Except.ok.injEq,
          Option.some.injEq, Prod.mk.injEq] at hr
        obtain ⟨rfl, rfl⟩ := hr
        exact ⟨field, hfm, rfl, by simp only [IsTyped, hg, hi]⟩
  · intro h
    obtain ⟨field, hfm, rfl, hv⟩ := h
    cases hg : given.get? field.key with
    | some found =>
      simp only [IsTyped, hg] at hv
      refine .inl ⟨(field.key, found), SortedMap.get?_eq_some_iff.mp hg, ?_⟩
      exact (readEntry_eq_ok_iff hk).mpr ⟨field, hfm, rfl, rfl, hv⟩
    | none =>
      simp only [IsTyped, hg] at hv
      refine .inr
        ⟨field.rule part, List.mem_filter.mpr ⟨List.mem_map.mpr ⟨field, hfm, rfl⟩, ?_⟩, ?_⟩
      · simp [SortedMap.contains, hg]
      · simp [FieldRule.filling, Field.rule, hv]

theorem exists_filling_eq_ok (part : PartOutcome) (fields : List Field)
    (given : SortedMap Value none) :
    ∃ filled, ((fields.map (Field.rule part)).filter fun rule => !given.contains rule.key).mapM
      FieldRule.filling = .ok filled := by
  refine Outcome.exists_mapM_eq_ok fun rule hm => ?_
  obtain ⟨field, -, rfl⟩ := List.mem_map.mp (List.mem_filter.mp hm).1
  exact field.exists_filling part

theorem readStruct_eq_ok (hn : (fields.map Field.name).Nodup) (hk : (fields.map Field.key).Nodup)
    {value : Value} (h : readStruct (fields.map (Field.rule part)) (.map given) = .ok value) :
    ∃ typed, value = .map typed ∧ StructReads part fields given typed := by
  obtain ⟨done, hd, h⟩ := Outcome.bind_eq_ok.mp h
  split at h
  · cases h
  rename_i hrequired
  rw [Bool.not_eq_true, any_isRequired_eq_false fun _ => rfl] at hrequired
  obtain ⟨filled, hf, h⟩ := Outcome.bind_eq_ok.mp h
  cases h
  obtain ⟨hwithin, hget⟩ := get?_ofList_of_fields hn (IsTyped part given)
    (fun _ _ _ => IsTyped.unique) (mem_read_iff hk hd hf)
  refine ⟨_, rfl, ?_, hwithin, ?_⟩
  · intro key hc
    obtain ⟨found, hg⟩ := Option.isSome_iff_exists.mp hc
    obtain ⟨converted, hm⟩ := Outcome.forall_of_mapM_eq_ok hd _ (SortedMap.get?_eq_some_iff.mp hg)
    obtain ⟨field, hfm, hkey, -⟩ := (readEntry_eq_ok_iff hk).mp hm
    exact ⟨field, hfm, hkey⟩
  · intro field hfm
    cases hg : given.get? field.key with
    | some found =>
      obtain ⟨converted, hm⟩ := Outcome.forall_of_mapM_eq_ok hd _ (SortedMap.get?_eq_some_iff.mp hg)
      obtain ⟨other, hom, hkey, -, hv⟩ := (readEntry_eq_ok_iff hk).mp hm
      rw [List.inj_on_of_nodup_map hk hom hfm hkey] at hv
      have ht : IsTyped part given field converted.2 := by simpa only [IsTyped, hg] using hv
      rw [(hget field hfm _).mpr ht]
      exact .present hv
    | none =>
      refine .absent (hrequired field hfm hg) (Option.ext fun value => ?_)
      rw [hget field hfm]
      simp only [IsTyped, hg]

theorem exists_readStruct (part : PartOutcome) (hn : (fields.map Field.name).Nodup)
    (hk : (fields.map Field.key).Nodup)
    (hkeys : Within Field.key fields given)
    (h : ∀ field ∈ fields, ∃ typed, field.Reads part (given.get? field.key) typed) :
    ∃ typed, readStruct (fields.map (Field.rule part)) (.map given) = .ok (.map typed) ∧
      StructReads part fields given typed := by
  have hentries : ∀ entry ∈ given.toList, ∃ converted,
      readEntry (fields.map (Field.rule part)) entry = .ok converted := by
    intro entry hm
    have hg := SortedMap.get?_eq_some_iff.mpr hm
    obtain ⟨field, hfm, hkey⟩ := hkeys entry.1 (by simp [SortedMap.contains, hg])
    obtain ⟨typed, ht⟩ := h field hfm
    rw [hkey, hg] at ht
    cases ht with
    | present hv =>
      exact ⟨(field.name, _), (readEntry_eq_ok_iff hk).mpr ⟨field, hfm, hkey, rfl, hv⟩⟩
  have hrequired : ((fields.map (Field.rule part)).any fun rule =>
      rule.isRequired && !given.contains rule.key) = false := by
    rw [any_isRequired_eq_false fun _ => rfl]
    intro field hfm hg
    obtain ⟨typed, ht⟩ := h field hfm
    rw [show given.get? (Field.key field) = none from hg] at ht
    cases ht with
    | absent hr _ => exact hr
  obtain ⟨done, hd⟩ := Outcome.exists_mapM_eq_ok hentries
  obtain ⟨filled, hf⟩ := exists_filling_eq_ok part fields given
  have hread : readStruct (fields.map (Field.rule part)) (.map given) =
      .ok (.map (SortedMap.ofList (done ++ filled.reduceOption))) := by
    simp only [readStruct, hd, hrequired, hf, Outcome.ok_bind, Outcome.pure_eq, Bool.false_eq_true,
      if_false]
  obtain ⟨typed, ht, hs⟩ := readStruct_eq_ok hn hk hread
  cases ht
  exact ⟨_, hread, hs⟩

end Reading

section Writing

theorem writeEntry_eq_ok_iff (hn : (fields.map Field.name).Nodup) {entry : String × Value}
    {written : Option (String × Value)} :
    writeEntry (fields.map (Field.rule part)) entry = .ok written ↔
      ∃ field ∈ fields, field.name = entry.1 ∧
        ∃ given, field.Writes part (some entry.2) given ∧
          written = given.map fun value => (field.key, value) := by
  unfold writeEntry
  rw [StructMap.find?_rule_name]
  constructor
  · intro h
    cases hf : fields.find? fun field => field.name = entry.1 with
    | none => simp [hf] at h
    | some field =>
      obtain ⟨hm, hname⟩ := (find?_eq_some_iff_of_nodup hn).mp hf
      simp only [hf, Option.map_some, StructMap.rule_isImplied, Outcome.ok_bind] at h
      split at h
      · cases h
        exact ⟨field, hm, hname, none, .implied ‹_›, rfl⟩
      · rename_i hi
        obtain ⟨value, hv, h⟩ := Outcome.bind_eq_ok.mp h
        cases h
        exact ⟨field, hm, hname, some value, .present (by simpa using hi) hv, rfl⟩
  · intro h
    obtain ⟨field, hm, hname, given, hw, rfl⟩ := h
    rw [(find?_eq_some_iff_of_nodup hn).mpr ⟨hm, hname⟩]
    simp only [Option.map_some, StructMap.rule_isImplied, Outcome.ok_bind]
    cases hw with
    | implied hi =>
      rw [if_pos hi]
      rfl
    | present hi hv =>
      rw [if_neg (by simp [hi])]
      show (field.type.plain part entry.2 >>= fun value => pure (some (field.key, value))) = _
      rw [hv]
      rfl

/-- What is written for a field that is there and has not its implicit value. -/
def IsWritten (part : PartOutcome) (typed : SortedMap Value none) (field : Field) (value : Value) :
    Prop :=
  field.Writes part (typed.get? field.name) (some value)

theorem mem_written_iff (hn : (fields.map Field.name).Nodup)
    {done : List (Option (String × Value))}
    (hd : typed.toList.mapM (writeEntry (fields.map (Field.rule part))) = .ok done)
    (key : String) (value : Value) :
    (key, value) ∈ done.reduceOption ↔
      ∃ field ∈ fields, field.key = key ∧ IsWritten part typed field value := by
  rw [List.reduceOption_mem_iff, Outcome.mem_of_mapM_eq_ok hd]
  constructor
  · intro h
    obtain ⟨entry, hm, he⟩ := h
    obtain ⟨field, hfm, hname, given, hw, hg⟩ := (writeEntry_eq_ok_iff hn).mp he
    obtain ⟨found, rfl, hk⟩ := Option.map_eq_some_iff.mp hg.symm
    cases hk
    refine ⟨field, hfm, rfl, ?_⟩
    rwa [IsWritten, hname, SortedMap.get?_eq_some_iff.mpr hm]
  · intro h
    obtain ⟨field, hfm, rfl, hw⟩ := h
    unfold IsWritten at hw
    cases ht : typed.get? field.name with
    | none =>
      rw [ht] at hw
      cases hw
    | some found =>
      rw [ht] at hw
      refine ⟨(field.name, found), SortedMap.get?_eq_some_iff.mp ht, ?_⟩
      exact (writeEntry_eq_ok_iff hn).mpr ⟨field, hfm, rfl, some value, hw, rfl⟩

theorem writeStruct_eq_ok (hn : (fields.map Field.name).Nodup) (hk : (fields.map Field.key).Nodup)
    {value : Value} (h : writeStruct (fields.map (Field.rule part)) (.map typed) = .ok value) :
    ∃ written, value = .map written ∧ StructWrites part fields typed written := by
  obtain ⟨done, hd, h⟩ := Outcome.bind_eq_ok.mp h
  split at h
  · cases h
  rename_i hrequired
  rw [Bool.not_eq_true, any_isRequired_eq_false fun _ => rfl] at hrequired
  cases h
  obtain ⟨hwithin, hget⟩ := get?_ofList_of_fields hk (IsWritten part typed)
    (fun _ _ _ ha hb => Option.some.inj (Field.Writes.unique ha hb)) (mem_written_iff hn hd)
  refine ⟨_, rfl, ?_, hwithin, ?_⟩
  · intro name hc
    obtain ⟨found, ht⟩ := Option.isSome_iff_exists.mp hc
    obtain ⟨written, hw⟩ := Outcome.forall_of_mapM_eq_ok hd _ (SortedMap.get?_eq_some_iff.mp ht)
    obtain ⟨field, hfm, hname, -⟩ := (writeEntry_eq_ok_iff hn).mp hw
    exact ⟨field, hfm, hname⟩
  · intro field hfm
    -- Some outcome of the field is known from the traversal; the look-up is that outcome.
    obtain ⟨given, hw⟩ : ∃ given, field.Writes part (typed.get? field.name) given := by
      cases ht : typed.get? field.name with
      | none => exact ⟨none, .absent (hrequired field hfm ht)⟩
      | some found =>
        obtain ⟨written, hw⟩ :=
          Outcome.forall_of_mapM_eq_ok hd _ (SortedMap.get?_eq_some_iff.mp ht)
        obtain ⟨other, hom, hname, given, hw, -⟩ := (writeEntry_eq_ok_iff hn).mp hw
        rw [List.inj_on_of_nodup_map hn hom hfm hname] at hw
        exact ⟨given, hw⟩
    have he : (SortedMap.ofList done.reduceOption).get? field.key = given := by
      refine Option.ext fun value => ?_
      rw [hget field hfm]
      constructor
      · intro hv
        exact Field.Writes.unique hw hv
      · intro he
        subst he
        exact hw
    rwa [he]

theorem exists_writeStruct (part : PartOutcome) (hn : (fields.map Field.name).Nodup)
    (hk : (fields.map Field.key).Nodup)
    (hnames : Within Field.name fields typed)
    (h : ∀ field ∈ fields, ∃ written, field.Writes part (typed.get? field.name) written) :
    ∃ written, writeStruct (fields.map (Field.rule part)) (.map typed) = .ok (.map written) ∧
      StructWrites part fields typed written := by
  have hentries : ∀ entry ∈ typed.toList, ∃ written,
      writeEntry (fields.map (Field.rule part)) entry = .ok written := by
    intro entry hm
    have ht := SortedMap.get?_eq_some_iff.mpr hm
    obtain ⟨field, hfm, hname⟩ := hnames entry.1 (by simp [SortedMap.contains, ht])
    obtain ⟨written, hw⟩ := h field hfm
    rw [hname, ht] at hw
    exact ⟨_, (writeEntry_eq_ok_iff hn).mpr ⟨field, hfm, hname, written, hw, rfl⟩⟩
  have hrequired : ((fields.map (Field.rule part)).any fun rule =>
      rule.isRequired && !typed.contains rule.name) = false := by
    rw [any_isRequired_eq_false fun _ => rfl]
    intro field hfm ht
    obtain ⟨written, hw⟩ := h field hfm
    rw [show typed.get? (Field.name field) = none from ht] at hw
    cases hw with
    | absent hr => exact hr
  obtain ⟨done, hd⟩ := Outcome.exists_mapM_eq_ok hentries
  have hwrite : writeStruct (fields.map (Field.rule part)) (.map typed) =
      .ok (.map (SortedMap.ofList done.reduceOption)) := by
    simp only [writeStruct, hd, hrequired, Outcome.ok_bind, Outcome.pure_eq, Bool.false_eq_true,
      if_false]
  obtain ⟨written, hw, hs⟩ := writeStruct_eq_ok hn hk hwrite
  cases hw
  exact ⟨_, hwrite, hs⟩

end Writing

section Tuples

variable {items : List Value}

/-- The two forms of a struct that is represented as a list, as reading relates them. -/
structure TupleReads (part : PartOutcome) (fields : List Field) (items : List Value)
    (typed : SortedMap Value none) : Prop where
  size : typed.size = fields.length
  names : Within Field.name fields typed
  items : List.Forall₂ (fun field item => ∃ value, field.type.plain part item = .ok value ∧
    typed.get? field.name = some value) fields items

theorem readTuple_eq_ok (hn : (fields.map Field.name).Nodup) {value result : Value}
    (h : readTuple (fields.map (Field.rule part)) value = .ok result) :
    ∃ items typed, value = .list items ∧ result = .map typed ∧
      TupleReads part fields items typed := by
  cases value with
  | list items =>
    simp only [readTuple, List.length_map] at h
    split at h
    · cases h
    rename_i hl
    rw [not_not] at hl
    obtain ⟨done, hd, h⟩ := Outcome.bind_eq_ok.mp h
    cases h
    rw [List.zip_map_left, List.mapM_map] at hd
    have hitem : ∀ (pair : Field × Value) (entry : String × Value),
        readItem (Prod.map (Field.rule part) id pair) = .ok entry →
          entry.1 = pair.1.name ∧ pair.1.type.plain part pair.2 = .ok entry.2 := by
      intro pair entry he
      obtain ⟨value, hv, he⟩ := Outcome.bind_eq_ok.mp he
      cases he
      exact ⟨rfl, hv⟩
    have hnames : done.map Prod.fst = fields.map Field.name := by
      have hzip : (fields.zip items).map Prod.fst = fields := List.map_fst_zip (by omega)
      rw [← congrArg (List.map Field.name) hzip, List.map_map]
      have hdone := Outcome.mapM_eq_ok.mp hd
      generalize fields.zip items = pairs at hdone
      clear * - hdone hitem
      induction hdone with
      | nil => rfl
      | cons he _ ih => rw [List.map_cons, List.map_cons, (hitem _ _ he).1, ih]; rfl
    have hnd : (done.map Prod.fst).Nodup := by rwa [hnames]
    refine ⟨items, _, rfl, rfl, ?_, ?_, ?_⟩
    · rw [SortedMap.size_ofList hnd, ← List.length_map Prod.fst, hnames, List.length_map]
    · intro name hc
      obtain ⟨found, hg⟩ := Option.isSome_iff_exists.mp hc
      have hm : name ∈ done.map Prod.fst :=
        List.mem_map.mpr ⟨_, (SortedMap.get?_ofList hnd).mp hg, rfl⟩
      rw [hnames] at hm
      exact List.mem_map.mp hm
    · rw [List.forall₂_iff_zip]
      refine ⟨hl.symm, fun {field item} hm => ?_⟩
      obtain ⟨entry, he⟩ := Outcome.forall_of_mapM_eq_ok hd _ hm
      obtain ⟨hname, hv⟩ := hitem _ _ he
      refine ⟨entry.2, hv, (SortedMap.get?_ofList hnd).mpr ?_⟩
      rw [← show entry.1 = field.name from hname]
      exact (Outcome.mem_of_mapM_eq_ok hd entry).mpr ⟨_, hm, he⟩
  | _ => cases h

theorem exists_readTuple (part : PartOutcome) (hn : (fields.map Field.name).Nodup)
    (h : List.Forall₂ (fun field item => ∃ value, field.type.plain part item = .ok value) fields
      items) :
    ∃ typed, readTuple (fields.map (Field.rule part)) (.list items) = .ok (.map typed) ∧
      TupleReads part fields items typed := by
  obtain ⟨done, hd⟩ : ∃ done,
      ((fields.map (Field.rule part)).zip items).mapM readItem = .ok done := by
    rw [List.zip_map_left, List.mapM_map]
    refine Outcome.exists_mapM_eq_ok fun pair hm => ?_
    obtain ⟨value, hv⟩ := (List.forall₂_iff_zip.mp h).2 hm
    refine ⟨(pair.1.name, value), ?_⟩
    show (pair.1.type.plain part pair.2 >>= fun value => pure (pair.1.name, value)) = _
    rw [hv]
    rfl
  have hread : readTuple (fields.map (Field.rule part)) (.list items) =
      .ok (.map (SortedMap.ofList done)) := by
    simp [readTuple, hd, h.length_eq]
  obtain ⟨others, typed, hi, ht, hs⟩ := readTuple_eq_ok hn hread
  cases hi
  cases ht
  exact ⟨_, hread, hs⟩

theorem writeTuple_eq_ok_iff {value result : Value} :
    writeTuple (fields.map (Field.rule part)) value = .ok result ↔
      ∃ typed items, value = .map typed ∧ result = .list items ∧ typed.size = fields.length ∧
        List.Forall₂ (fun field item => ∃ value, typed.get? field.name = some value ∧
          field.type.plain part value = .ok item) fields items := by
  have hitem : ∀ typed field item, writeItem typed (Field.rule part field) = .ok item ↔
      ∃ value, typed.get? field.name = some value ∧ field.type.plain part value = .ok item := by
    intro typed field item
    rw [writeItem, Field.rule_name]
    cases typed.get? field.name with
    | none => simp
    | some value =>
      simp only [Option.some.injEq, exists_eq_left']
      exact Iff.rfl
  constructor
  · intro h
    cases value with
    | map typed =>
      simp only [writeTuple, List.length_map] at h
      split at h
      · cases h
      rename_i hl
      obtain ⟨items, hi, h⟩ := Outcome.bind_eq_ok.mp h
      cases h
      rw [List.mapM_map] at hi
      exact ⟨typed, items, rfl, rfl, not_not.mp hl,
        (Outcome.mapM_eq_ok.mp hi).imp fun field item => (hitem typed field item).mp⟩
    | _ => cases h
  · intro h
    obtain ⟨typed, items, rfl, rfl, hs, hi⟩ := h
    have hm : (fields.map (Field.rule part)).mapM (writeItem typed) = .ok items := by
      rw [List.mapM_map]
      exact Outcome.mapM_eq_ok.mpr (hi.imp fun field item => (hitem typed field item).mpr)
    simp [writeTuple, hs, hm]

end Tuples

end Plain

end LinkedSchema
