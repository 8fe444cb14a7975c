import LinkedSchema.Proofs.Plain.StructReading

namespace LinkedSchema.StructMap

variable {layout : StructMap} {convertPart : PartConversion}

/-- Where writing stands after the given entries, of which the plain results are given. -/
structure WrittenSoFar (layout : StructMap) (before : List (String × Value))
    (progress : Nat × Draft) (done : List (Option (String × Value))) : Prop where
  draft : progress.2.begun before = SortedMap.ofList done.reduceOption
  missing : progress.1 = pending Field.name layout.fields.values (before.map Prod.fst)

theorem WrittenSoFar.start (h : layout.WellFormed) :
    WrittenSoFar layout [] (layout.required, none) [] :=
  ⟨rfl, h.required_eq⟩

theorem rule_isImplied (part : PartOutcome) (field : Field) (value : Value) :
    (field.rule part).isImplied value = .ok (field.implicit.any (·.same value)) := by
  unfold Plain.FieldRule.isImplied Field.rule
  cases field.implicit <;> rfl

theorem alike_writeEntry (h : layout.WellFormed) {entries before rest : List (String × Value)}
    {done : List (Option (String × Value))} {entry : String × Value} {progress : Nat × Draft}
    (hn : (entries.map Prod.fst).Nodup) (he : before ++ entry :: rest = entries)
    (hs : WrittenSoFar layout before progress done) :
    Alike (fun next written => WrittenSoFar layout (before ++ [entry]) next (done ++ [written]))
      (layout.writeEntry convertPart entries progress (entry, before.length))
      (Plain.writeEntry (layout.fields.values.map (Field.rule convertPart.result)) entry) := by
  obtain ⟨name, value⟩ := entry
  obtain ⟨missing, draft⟩ := progress
  have hnew : name ∉ before.map Prod.fst := by
    rw [← he, List.map_append, List.map_cons] at hn
    exact fun hm => (List.nodup_append.mp hn).2.2 _ hm _ (List.mem_cons_self ..) rfl
  have hd : Draft.begun draft before = SortedMap.ofList done.reduceOption := hs.draft
  have ht : entries.take before.length = before := by simp [← he]
  simp only [writeEntry, Plain.writeEntry, find?_rule_name, h.fields_get?]
  cases hf : layout.fields.values.find? (fun field => field.name = name) with
  | none => exact .error _
  | some field =>
    obtain ⟨hm, rfl⟩ := (find?_eq_some_iff_of_nodup h.names).mp hf
    have hcount := countDown_pending h.names hm hnew
    rw [← hs.missing] at hcount
    simp only [Option.map_some, hcount, Outcome.ok_bind, rule_isImplied, ht]
    split
    · refine .ok ⟨?_, by simp⟩
      rw [List.reduceOption_append, List.reduceOption_cons_of_none, List.reduceOption_nil,
        List.append_nil, ← hd]
      rfl
    · rw [rule_convert]
      refine (Conversion.alike_outcomes _ value).bind fun change converted hc => ?_
      subst hc
      have hdone : SortedMap.ofList (done ++ [some (field.key, change.apply value)]).reduceOption =
          (draft.begun before).insert field.key (change.apply value) := by
        rw [List.reduceOption_append, List.reduceOption_singleton, Option.toList_some,
          SortedMap.ofList_concat, hd]
      split
      · rename_i hu
        simp only [Bool.and_eq_true, Option.isNone_iff_eq_none, decide_eq_true_eq,
          Change.isUnchanged_iff] at hu
        obtain ⟨⟨hnone, hkey⟩, rfl⟩ := hu
        refine .ok ⟨?_, by simp⟩
        rw [Field.rule_key, hdone, hnone, hkey]
        simp [Draft.begun, SortedMap.ofList_concat]
      · refine .ok ⟨?_, by simp⟩
        exact hdone.symm

theorem result_write (h : layout.WellFormed) (convertPart : PartConversion) (value : Value) :
    (layout.write convertPart value).result value =
      Plain.writeStruct (layout.fields.values.map (Field.rule convertPart.result)) value := by
  cases value with
  | map entries =>
    refine Conversion.result_eq ?_
    refine (Alike.foldlM_mapM (fun _ _ _ _ _ => alike_writeEntry h entries.nodup_keys)
      (WrittenSoFar.start h)).bind fun progress done hs => ?_
    obtain ⟨missing, draft⟩ := progress
    have hmissing := any_isRequired_rule convertPart.result layout.fields.values Field.name
      Plain.FieldRule.name (fun _ => rfl) entries
    rw [← hs.missing] at hmissing
    by_cases hz : missing = 0
    · rw [if_neg (mt hmissing.mp (not_not.mpr hz))]
      simp only [hz, ne_eq, not_true_eq_false, if_false]
      have hb : draft.getD entries = SortedMap.ofList done.reduceOption := by
        rw [← Draft.begun_toList]
        exact hs.draft
      exact .ok ((Draft.apply_change draft entries).trans (congrArg Value.map hb))
    · rw [if_pos (hmissing.mpr hz)]
      simp only [hz, ne_eq, not_false_eq_true, if_true]
      exact .error _
  | _ => rfl

end LinkedSchema.StructMap
