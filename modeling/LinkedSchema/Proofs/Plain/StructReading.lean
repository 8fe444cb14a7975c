import LinkedSchema.Proofs.Plain.StructLayout

namespace LinkedSchema.StructMap

variable {layout : StructMap} {convertPart : PartConversion}

theorem find?_rule_name (part : PartOutcome) (fields : List Field) (name : String) :
    (fields.map (Field.rule part)).find? (fun rule => rule.name = name) =
      (fields.find? fun field => field.name = name).map (Field.rule part) :=
  List.find?_map

theorem find?_rule_key (part : PartOutcome) (fields : List Field) (key : String) :
    (fields.map (Field.rule part)).find? (fun rule => rule.key = key) =
      (fields.find? fun field => field.key = key).map (Field.rule part) :=
  List.find?_map

theorem rule_convert (field : Field) (convertPart : PartConversion) :
    (field.rule convertPart.result).convert =
      Conversion.outcomes (field.type.convert convertPart) :=
  field.type.plain_eq convertPart

/-- Where reading stands after the given entries, of which the plain results are given. -/
structure ReadSoFar (layout : StructMap) (before : List (String × Value)) (progress : Progress)
    (done : List (String × Value)) : Prop where
  draft : progress.draft.begun before = SortedMap.ofList done
  missing : progress.missing = pending Field.key layout.fields.values (before.map Prod.fst)
  present : ∀ index field, layout.fields.values[index]? = some field →
    (index ∈ progress.present ↔ field.key ∈ before.map Prod.fst)

theorem ReadSoFar.start (h : layout.WellFormed) :
    ReadSoFar layout [] ⟨layout.required, [], none⟩ [] :=
  ⟨rfl, h.required_eq, by simp⟩

theorem alike_readEntry (h : layout.WellFormed) {entries before rest done : List (String × Value)}
    {entry : String × Value} {progress : Progress} (hn : (entries.map Prod.fst).Nodup)
    (he : before ++ entry :: rest = entries) (hs : ReadSoFar layout before progress done) :
    Alike (fun next converted => ReadSoFar layout (before ++ [entry]) next (done ++ [converted]))
      (layout.readEntry convertPart entries progress (entry, before.length))
      (Plain.readEntry (layout.fields.values.map (Field.rule convertPart.result)) entry) := by
  obtain ⟨key, value⟩ := entry
  have hnew : key ∉ before.map Prod.fst := by
    rw [← he, List.map_append, List.map_cons] at hn
    exact fun hm => (List.nodup_append.mp hn).2.2 _ hm _ (List.mem_cons_self ..) rfl
  simp only [readEntry, Plain.readEntry, find?_rule_key]
  cases hk : layout.keys.get? key with
  | none =>
    have hf : layout.fields.values.find? (fun field => field.key = key) = none := by
      rw [List.find?_eq_none]
      intro field hm hkey
      obtain ⟨index, hi⟩ := List.mem_iff_getElem?.mp hm
      have := h.keys_get?_eq_some_iff.mpr ⟨field, hi, of_decide_eq_true hkey⟩
      simp [hk] at this
    rw [hf]
    exact .error _
  | some index =>
    obtain ⟨field, hi, rfl⟩ := h.keys_get?_eq_some_iff.mp hk
    have hm : field ∈ layout.fields.values := List.mem_of_getElem? hi
    have hf : layout.fields.values.find? (fun other => other.key = field.key) = some field :=
      (find?_eq_some_iff_of_nodup h.keys).mpr ⟨hm, rfl⟩
    rw [hf]
    simp only [hi, Option.map_some, rule_convert]
    refine (Conversion.alike_outcomes _ value).bind fun change converted hc => ?_
    subst hc
    rw [hs.missing, countDown_pending h.keys hm hnew]
    have ht : entries.take before.length = before := by simp [← he]
    simp only [ht, Outcome.ok_bind, Outcome.pure_eq]
    refine .ok ⟨?_, by simp, ?_⟩
    · show Draft.begun (if _ then _ else _) _ = _
      rw [SortedMap.ofList_concat, ← hs.draft]
      split
      · rename_i hu
        simp only [Bool.and_eq_true, Option.isNone_iff_eq_none, decide_eq_true_eq,
          Change.isUnchanged_iff] at hu
        obtain ⟨⟨hd, hname⟩, rfl⟩ := hu
        simp [Draft.begun, hd, SortedMap.ofList_concat, hname]
      · rfl
    · intro other found hf
      have hp := hs.present other found hf
      rw [List.mem_cons, hp, List.map_append, List.mem_append, or_comm]
      refine or_congr_right ?_
      rw [List.map_singleton, List.mem_singleton]
      constructor
      · intro he
        subst he
        rw [hi] at hf
        exact congrArg Field.key (Option.some.inj hf).symm
      · intro hkey
        have := h.keys_get?_eq_some_iff.mpr ⟨found, hf, hkey⟩
        exact Option.some.inj (this.symm.trans hk)

theorem getD_foldl_fillIn (convertPart : PartConversion) {entries : SortedMap Value none}
    {present : List Nat} (draft : Draft) {rest : List Field} (start : Nat)
    (hp : ∀ index field, rest[index]? = some field →
      (start + index ∈ present ↔ entries.contains field.key = true)) :
    ∃ filled, ((rest.map (Field.rule convertPart.result)).filter
        fun rule => !entries.contains rule.key).mapM Plain.FieldRule.filling = .ok filled ∧
      ((rest.zipIdx start).foldl (fillIn entries present) draft).getD entries =
        filled.reduceOption.foldl (fun built entry => built.insert entry.1 entry.2)
          (draft.getD entries) := by
  induction rest generalizing start draft with
  | nil => exact ⟨[], rfl, rfl⟩
  | cons field rest ih =>
    have hhead : start ∈ present ↔ entries.contains field.key = true := hp 0 field rfl
    obtain ⟨filled, hf, hd⟩ := ih (fillIn entries present draft (field, start)) (start + 1)
      fun index other hi => by
        have := hp (index + 1) other hi
        rwa [show start + 1 + index = start + (index + 1) by omega]
    rw [List.zipIdx_cons, List.foldl_cons, List.map_cons, hd]
    cases hc : entries.contains field.key with
    | true =>
      have hm : start ∈ present := hhead.mpr hc
      refine ⟨filled, by simpa [hc] using hf, ?_⟩
      congr 1
      unfold fillIn
      cases field.implicit <;> simp [hm]
    | false =>
      have hm : start ∉ present := fun hm => by simp [hhead.mp hm] at hc
      cases hi : field.implicit with
      | none =>
        refine ⟨none :: filled, ?_, ?_⟩
        · simp [hc, hf, Plain.FieldRule.filling, Field.rule, hi]
        · simp [fillIn, hi, List.reduceOption_cons_of_none]
      | some value =>
        refine ⟨some (field.name, value) :: filled, ?_, ?_⟩
        · simp [hc, hf, Plain.FieldRule.filling, Field.rule, hi]
        · simp [fillIn, hi, hm, List.reduceOption_cons_of_some]

theorem any_isRequired_rule (part : PartOutcome) (fields : List Field) (key : Field → String)
    (ruleKey : Plain.FieldRule → String) (hk : ∀ field, ruleKey (field.rule part) = key field)
    (entries : SortedMap Value none) :
    ((fields.map (Field.rule part)).any fun rule =>
        rule.isRequired && !entries.contains (ruleKey rule)) = true ↔
      pending key fields (entries.toList.map Prod.fst) ≠ 0 := by
  have hr : ∀ field : Field, (field.rule part).isRequired = field.isRequired := by
    intro field
    unfold Plain.FieldRule.isRequired Field.isRequired Field.rule
    cases field.implicit <;> rfl
  have hc : ∀ key, entries.contains key = (entries.toList.map Prod.fst).contains key := by
    intro key
    rw [Bool.eq_iff_iff, SortedMap.contains_iff, List.contains_iff_mem]
  rw [pending_ne_zero_iff, List.any_map]
  simp only [Function.comp_def, hr, hk, hc]

theorem result_read (h : layout.WellFormed) (convertPart : PartConversion) (value : Value) :
    (layout.read convertPart value).result value =
      Plain.readStruct (layout.fields.values.map (Field.rule convertPart.result)) value := by
  cases value with
  | map entries =>
    refine Conversion.result_eq ?_
    refine (Alike.foldlM_mapM (fun _ _ _ _ _ => alike_readEntry h entries.nodup_keys)
      (ReadSoFar.start h)).bind fun progress done hs => ?_
    have hmissing := any_isRequired_rule convertPart.result layout.fields.values Field.key
      Plain.FieldRule.key (fun _ => rfl) entries
    rw [← hs.missing] at hmissing
    by_cases hz : progress.missing = 0
    · have hany := mt hmissing.mp (not_not.mpr hz)
      obtain ⟨filled, hf, hd⟩ := getD_foldl_fillIn convertPart progress.draft 0
        fun index field hi => by
          rw [Nat.zero_add, hs.present index field hi, SortedMap.contains_iff]
      rw [if_neg (not_not.mpr hz), if_neg hany]
      simp only [Outcome.pure_eq, Outcome.ok_bind, hf]
      have hb : progress.draft.getD entries = SortedMap.ofList done := by
        rw [← Draft.begun_toList, hs.draft]
      refine .ok ((Draft.apply_change _ entries).trans ?_)
      rw [hd, hb, SortedMap.ofList, SortedMap.ofList, List.foldl_append]
    · rw [if_pos hz, if_pos (hmissing.mpr hz)]
      exact .error _
  | _ => rfl

end LinkedSchema.StructMap
