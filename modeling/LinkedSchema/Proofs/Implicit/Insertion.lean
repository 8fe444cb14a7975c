import LinkedSchema.Proofs.RoundTrip.Fields

namespace LinkedSchema

namespace SortedMap

variable {α : Type} {key : String}

/-- A new entry stands somewhere between the old ones. -/
theorem exists_toList_insertAbove {bound : Option String} {m : SortedMap α bound}
    (h : m.get? key = none) (value : α) (above : Above bound key) :
    ∃ before after, m.toList = before ++ after ∧
      (m.insertAbove key value above).toList = before ++ (key, value) :: after := by
  induction m with
  | nil => exact ⟨[], [], rfl, rfl⟩
  | cons first old _ rest ih =>
    simp only [get?] at h
    split at h
    · cases h
    · rename_i hne
      rw [insertAbove]
      by_cases lt : key < first
      · rw [dif_pos lt]
        exact ⟨[], (first, old) :: rest.toList, rfl, rfl⟩
      · have gt : first < key :=
          Decidable.byContradiction fun hn => hne (String.le_antisymm hn lt)
        obtain ⟨before, after, hm, hi⟩ := ih h (above_some.mpr gt)
        rw [dif_neg lt, dif_pos gt, toList, toList, hm, hi]
        exact ⟨(first, old) :: before, after, rfl, rfl⟩

theorem exists_toList_insert {m : SortedMap α none} (h : m.get? key = none) (value : α) :
    ∃ before after, m.toList = before ++ after ∧
      (m.insert key value).toList = before ++ (key, value) :: after :=
  exists_toList_insertAbove h value _

end SortedMap

/-- A traversal of one more item that succeeds fails as before, or gives one more result. -/
theorem Alike.mapM_insert {ε α β : Type} {f : α → Except ε β} {item : α} {result : β}
    (h : f item = .ok result) (before after : List α) :
    Alike (fun done more => ∃ left right, done = left ++ right ∧ more = left ++ result :: right)
      ((before ++ after).mapM f) ((before ++ item :: after).mapM f) := by
  rw [List.mapM_append, List.mapM_append, List.mapM_cons, h]
  cases before.mapM f with
  | error e => exact .error e
  | ok left =>
    cases after.mapM f with
    | error e => exact .error e
    | ok right => exact .ok ⟨left, right, rfl, rfl⟩

namespace Plain

variable {part : PartOutcome} {fields : List Field} {field : Field}
  {given shown : SortedMap Value none} {literal value : Value}

/-- A field that is not required may be there or not. -/
theorem any_isRequired_insert (part : PartOutcome) {name : FieldRule → String}
    {fieldName : Field → String} (hname : ∀ field : Field, name (field.rule part) = fieldName field)
    (hn : (fields.map fieldName).Nodup) (hm : field ∈ fields) (hr : field.isRequired = false)
    (entries : SortedMap Value none) (value : Value) :
    ((fields.map (Field.rule part)).any fun rule => rule.isRequired &&
        !(entries.insert (fieldName field) value).contains (name rule)) =
      (fields.map (Field.rule part)).any fun rule =>
        rule.isRequired && !entries.contains (name rule) := by
  rw [Bool.eq_iff_iff, ← not_iff_not, Bool.not_eq_true, Bool.not_eq_true,
    any_isRequired_eq_false hname, any_isRequired_eq_false hname]
  refine forall₂_congr fun other ho => ?_
  rw [SortedMap.get?_insert]
  split
  · rename_i he
    have he : other = field := List.inj_on_of_nodup_map hn ho hm he
    simp [he, hr]
  · exact Iff.rfl

theorem StructReads.unique {typed other : SortedMap Value none}
    (h : StructReads part fields given typed) (ho : StructReads part fields given other) :
    typed = other := by
  refine SortedMap.ext_get? fun key => ?_
  by_cases hk : ∃ field ∈ fields, field.name = key
  · obtain ⟨field, hm, rfl⟩ := hk
    exact (h.fields field hm).unique (ho.fields field hm)
  · have habsent : ∀ {entries : SortedMap Value none}, Within Field.name fields entries →
        entries.get? key = none := by
      intro entries hw
      exact Option.not_isSome_iff_eq_none.mp fun hc => hk (hw key hc)
    rw [habsent h.names, habsent ho.names]

/-- The literal may be given for the field whose implicit value is read from it. -/
theorem StructReads.insert {typed : SortedMap Value none} (h : StructReads part fields given typed)
    (hk : (fields.map Field.key).Nodup) (hm : field ∈ fields) (hi : field.implicit = some value)
    (hl : field.type.plain part literal = .ok value) (hg : given.get? field.key = none) :
    StructReads part fields (given.insert field.key literal) typed := by
  refine ⟨fun key hc => ?_, h.names, fun other ho => ?_⟩
  · rcases SortedMap.contains_insert_iff.mp hc with he | hc
    · exact ⟨field, hm, he.symm⟩
    · exact h.keys key hc
  · rw [SortedMap.get?_insert]
    split
    · rename_i he
      have he : other = field := List.inj_on_of_nodup_map hk ho hm he
      subst he
      have hf := h.fields other ho
      rw [hg] at hf
      cases hf with
      | absent _ ht =>
        rw [ht, hi]
        exact .present hl
    · exact h.fields other ho

/-- A map is read if its entries are and no required field is missing. -/
theorem exists_readStruct_of_mapM {done : List (String × Value)}
    (hd : given.toList.mapM (readEntry (fields.map (Field.rule part))) = .ok done)
    (hr : ((fields.map (Field.rule part)).any fun rule =>
      rule.isRequired && !given.contains rule.key) = false) :
    ∃ result, readStruct (fields.map (Field.rule part)) (.map given) = .ok result := by
  obtain ⟨filled, hf⟩ := exists_filling_eq_ok part fields given
  refine ⟨.map (SortedMap.ofList (done ++ filled.reduceOption)), ?_⟩
  simp only [readStruct, hd, hr, hf, Outcome.ok_bind, Outcome.pure_eq, Bool.false_eq_true, if_false]

/-- Reading fills in what is read from the literal. -/
theorem readStruct_insert (hn : (fields.map Field.name).Nodup)
    (hk : (fields.map Field.key).Nodup) (hm : field ∈ fields) (hi : field.implicit = some value)
    (hl : field.type.plain part literal = .ok value) (hg : given.get? field.key = none) :
    readStruct (fields.map (Field.rule part)) (.map given) =
      readStruct (fields.map (Field.rule part)) (.map (given.insert field.key literal)) := by
  obtain ⟨before, after, hgiven, hinsert⟩ := SortedMap.exists_toList_insert hg literal
  have hentry : readEntry (fields.map (Field.rule part)) (field.key, literal) =
      .ok (field.name, value) :=
    (readEntry_eq_ok_iff hk).mpr ⟨field, hm, rfl, rfl, hl⟩
  have halike := Alike.mapM_insert hentry before after
  rw [← hgiven, ← hinsert] at halike
  have hrequired := any_isRequired_insert part (Field.rule_key part) hk hm
    (field.not_isRequired hi) given literal
  generalize hd : given.toList.mapM (readEntry (fields.map (Field.rule part))) = x,
    hd' : (given.insert field.key literal).toList.mapM
      (readEntry (fields.map (Field.rule part))) = y at halike
  cases halike with
  | error stop => simp only [readStruct, hd, hd', Outcome.error_bind]
  | ok _ =>
    rename_i done more _
    cases hr : (fields.map (Field.rule part)).any fun rule =>
        rule.isRequired && !given.contains rule.key with
    | true =>
      rw [hr] at hrequired
      simp only [readStruct, hd, hd', hr, hrequired, Outcome.ok_bind, if_true,
        Outcome.throw_eq, Outcome.error_bind]
    | false =>
      rw [hr] at hrequired
      -- Both maps are read. What is read is known field by field, and is the same for both.
      obtain ⟨result, hread⟩ := exists_readStruct_of_mapM hd hr
      obtain ⟨result', hread'⟩ := exists_readStruct_of_mapM hd' hrequired
      obtain ⟨typed, rfl, hs⟩ := readStruct_eq_ok hn hk hread
      obtain ⟨other, rfl, hs'⟩ := readStruct_eq_ok hn hk hread'
      rw [hread, hread', (hs.insert hk hm hi hl hg).unique hs']

/-- Writing leaves out what equals the implicit value. -/
theorem writeStruct_insert (hn : (fields.map Field.name).Nodup) (hm : field ∈ fields)
    (hi : field.implicit = some value) {equal : Value} (he : value.same equal = true)
    (hg : shown.get? field.name = none) :
    writeStruct (fields.map (Field.rule part)) (.map shown) =
      writeStruct (fields.map (Field.rule part)) (.map (shown.insert field.name equal)) := by
  obtain ⟨before, after, hshown, hinsert⟩ := SortedMap.exists_toList_insert hg equal
  have himplied : field.implicit.any (·.same equal) = true := by rwa [hi]
  have hentry : writeEntry (fields.map (Field.rule part)) (field.name, equal) = .ok none :=
    (writeEntry_eq_ok_iff hn).mpr ⟨field, hm, rfl, none, .implied himplied, rfl⟩
  have halike := Alike.mapM_insert hentry before after
  rw [← hshown, ← hinsert] at halike
  have hrequired := any_isRequired_insert part (Field.rule_name part) hn hm
    (field.not_isRequired hi) shown equal
  generalize hd : shown.toList.mapM (writeEntry (fields.map (Field.rule part))) = x,
    hd' : (shown.insert field.name equal).toList.mapM
      (writeEntry (fields.map (Field.rule part))) = y at halike
  cases halike with
  | error stop => simp only [writeStruct, hd, hd', Outcome.error_bind]
  | ok hmore =>
    obtain ⟨left, right, rfl, rfl⟩ := hmore
    simp only [writeStruct, hd, hd', hrequired, Outcome.ok_bind, List.reduceOption_append,
      List.reduceOption_cons_of_none]

end Plain

end LinkedSchema
