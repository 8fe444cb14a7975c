import LinkedSchema.Proofs.RoundTrip.Members

namespace LinkedSchema

/-- Entries may be added in another order, if none replaces another. -/
theorem SortedMap.foldl_insert_eq_of_perm {entries others : List (String × Value)}
    (h : entries.Perm others)
    (hu : ∀ entry ∈ entries, ∀ other ∈ entries, entry.1 = other.1 → entry = other)
    (m : SortedMap Value none) :
    entries.foldl (fun built entry => built.insert entry.1 entry.2) m =
      others.foldl (fun built entry => built.insert entry.1 entry.2) m := by
  refine h.foldl_eq' (fun entry he other ho built => ?_) m
  by_cases hk : entry.1 = other.1
  · rw [hu entry he other ho hk]
  · refine ext_get? fun query => ?_
    simp only [get?_insert]
    by_cases hq : query = entry.1
    · simp [hq, hk]
    · simp [hq]

namespace Plain

section Structs

variable {rules others : List FieldRule}

/-- An absent field is filled in under its name. -/
theorem FieldRule.name_of_filling {rule : FieldRule} {entry : String × Value}
    (h : rule.filling = .ok (some entry)) : entry.1 = rule.name := by
  unfold filling at h
  split at h
  · cases h
  · obtain ⟨value, -, h⟩ := Outcome.bind_eq_ok.mp h
    cases h
    rfl

/-- Fields with different names are filled in under different names. -/
theorem eq_of_fillings (hn : (rules.map FieldRule.name).Nodup)
    {filled : List (Option (String × Value))} (hf : rules.mapM FieldRule.filling = .ok filled) :
    ∀ entry ∈ filled.reduceOption, ∀ other ∈ filled.reduceOption,
      entry.1 = other.1 → entry = other := by
  intro entry he other ho hname
  obtain ⟨rule, hr, hentry⟩ := (Outcome.mem_of_mapM_eq_ok hf _).mp (List.reduceOption_mem_iff.mp he)
  obtain ⟨rule', hr', hother⟩ :=
    (Outcome.mem_of_mapM_eq_ok hf _).mp (List.reduceOption_mem_iff.mp ho)
  rw [FieldRule.name_of_filling hentry, FieldRule.name_of_filling hother] at hname
  rw [List.inj_on_of_nodup_map hn hr hr' hname, hother] at hentry
  exact (Option.some.inj (Except.ok.inj hentry)).symm

/-- Absent fields are filled in, in whatever order. -/
theorem ofList_fillings_eq_of_perm (h : rules.Perm others) (hn : (rules.map FieldRule.name).Nodup)
    {filled filled' : List (Option (String × Value))}
    (hf : rules.mapM FieldRule.filling = .ok filled)
    (hf' : others.mapM FieldRule.filling = .ok filled') (given : List (String × Value)) :
    SortedMap.ofList (given ++ filled.reduceOption) =
      SortedMap.ofList (given ++ filled'.reduceOption) := by
  have hperm := perm_of_forall₂ (f := id) (g := id) h (Outcome.mapM_eq_ok.mp hf)
    (Outcome.mapM_eq_ok.mp hf') fun rule _ filling other hx hy => by
      rw [hx] at hy
      exact Except.ok.inj hy
  rw [List.map_id, List.map_id] at hperm
  rw [SortedMap.ofList, SortedMap.ofList, List.foldl_append, List.foldl_append]
  exact SortedMap.foldl_insert_eq_of_perm (hperm.filterMap id) (eq_of_fillings hn hf) _

theorem readStruct_eq_of_perm (h : rules.Perm others) (hn : (rules.map FieldRule.name).Nodup)
    (hk : (rules.map FieldRule.key).Nodup)
    (hi : ∀ rule ∈ rules, ∃ filling, rule.filling = .ok filling) (value : Value) :
    readStruct rules value = readStruct others value := by
  cases value with
  | map entries =>
    have hentry : readEntry rules = readEntry others := funext fun entry => by
      simp only [readEntry, find?_eq_of_perm_of_nodup h hk]
    have habsent := h.filter fun rule => !entries.contains rule.key
    obtain ⟨filled, hf⟩ := Outcome.exists_mapM_eq_ok fun rule hm =>
      hi rule (List.mem_of_mem_filter hm)
    obtain ⟨filled', hf'⟩ := Outcome.exists_mapM_eq_ok fun rule hm =>
      hi rule (List.mem_of_mem_filter (habsent.mem_iff.mpr hm))
    have hfill := ofList_fillings_eq_of_perm habsent (hn.sublist (List.filter_sublist.map _)) hf hf'
    simp only [readStruct, hentry, h.any_eq, hf, hf', Outcome.ok_bind, hfill]
  | _ => rfl

theorem writeStruct_eq_of_perm (h : rules.Perm others) (hn : (rules.map FieldRule.name).Nodup)
    (value : Value) : writeStruct rules value = writeStruct others value := by
  cases value with
  | map entries =>
    have hentry : writeEntry rules = writeEntry others := funext fun entry => by
      simp only [writeEntry, find?_eq_of_perm_of_nodup h hn]
    simp only [writeStruct, hentry, h.any_eq]
  | _ => rfl

end Structs

end Plain

namespace Node

variable {members others : List (String × Value)}

theorem readPlainEnum_eq_of_perm (h : members.Perm others) (hm : EnumApart members)
    (value : Value) : readPlainEnum members value = readPlainEnum others value := by
  have hfind : (members.find? fun member => member.2.same value) =
      others.find? fun member => member.2.same value := by
    refine find?_eq_of_perm h fun member hmember other hother hs hs' => ?_
    have he := (hm.same_iff hmember value).mp hs
    have he' := (hm.same_iff hother value).mp hs'
    subst he
    refine Prod.ext (hm.name_unique hmember (he' ▸ hother)) he'.symm
  simp only [readPlainEnum, hfind]

theorem writePlainEnum_eq_of_perm (h : members.Perm others) (hm : EnumApart members)
    (value : Value) : writePlainEnum members value = writePlainEnum others value := by
  cases value with
  | string name => simp only [writePlainEnum, find?_eq_of_perm_of_nodup h hm.names]
  | _ => rfl

end Node

end LinkedSchema
