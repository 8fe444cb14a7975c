import LinkedSchema.Proofs.Plain.Node

namespace LinkedSchema

/-- Each part with its outcome. -/
def Conversion.outcomes (convert : Value → Conversion) : Value → Outcome := fun value =>
  Conversion.result (convert value) value

/-- A change and the value that it makes of the given one. -/
def Change.Makes (value : Value) (change : Change) (converted : Value) : Prop :=
  change.apply value = converted

theorem Conversion.alike_outcomes (convert : Value → Conversion) (value : Value) :
    Alike (Change.Makes value) (convert value) (outcomes convert value) := by
  unfold outcomes result
  cases convert value with
  | ok change => exact .ok rfl
  | error stop => exact .error stop

theorem Conversion.result_eq {conversion : Conversion} {value : Value} {outcome : Outcome}
    (h : Alike (Change.Makes value) conversion outcome) : conversion.result value = outcome :=
  h.map_eq

theorem PartType.plain_eq (type : PartType) (convertPart : PartConversion) :
    type.plain convertPart.result = Conversion.outcomes (type.convert convertPart) := by
  funext value
  unfold PartType.plain Plain.nullable Conversion.outcomes PartType.convert
  by_cases h : value = .null
  · cases type.nullable <;> simp [h, Conversion.result, PartConversion.result]
  · simp [h, PartConversion.result]

namespace Draft

theorem begun_toList (draft : Draft) (entries : SortedMap Value none) :
    draft.begun entries.toList = draft.getD entries := by
  simp [begun]

theorem apply_change (draft : Draft) (entries : SortedMap Value none) :
    draft.change.apply (.map entries) = .map (draft.getD entries) := by
  cases draft <;> rfl

end Draft

namespace Node

variable (convert : Value → Conversion)

/-- The items converted so far, given the items seen and the list under construction. -/
def itemsDone (before : List Value) (built : Option (Array Value)) : List Value :=
  (built.map Array.toList).getD before

theorem alike_convertItem {items before rest done : List Value} {item : Value}
    {built : Option (Array Value)} (hi : before ++ item :: rest = items)
    (h : itemsDone before built = done) :
    Alike (fun next converted => itemsDone (before ++ [item]) next = done ++ [converted])
      (convertItem convert items built (item, before.length))
      (Conversion.outcomes convert item) := by
  rw [← bind_pure (Conversion.outcomes convert item)]
  refine (Conversion.alike_outcomes convert item).bind fun change converted hc => ?_
  subst hi h hc
  cases built with
  | some built => exact .ok (by simp [itemsDone])
  | none =>
    cases change with
    | unchanged => exact .ok (by simp [itemsDone])
    | replaced value => exact .ok (by simp [itemsDone])

theorem result_convertList (value : Value) :
    (convertList convert value).result value = Plain.list (Conversion.outcomes convert) value := by
  cases value with
  | list items =>
    refine Conversion.result_eq ?_
    refine (Alike.foldlM_mapM (I := fun before built done => itemsDone before built = done)
      (fun _ _ _ _ _ => alike_convertItem convert) rfl).bind fun built done h => ?_
    subst h
    cases built <;> exact .ok rfl
  | _ => rfl

theorem alike_convertEntry {entries before rest done : List (String × Value)}
    {entry : String × Value} {draft : Draft} (he : before ++ entry :: rest = entries)
    (h : draft.begun before = SortedMap.ofList done) :
    Alike (fun next converted =>
        Draft.begun next (before ++ [entry]) = SortedMap.ofList (done ++ [converted]))
      (convertEntry convert entries draft (entry, before.length))
      (Plain.entry (Conversion.outcomes convert) entry) := by
  obtain ⟨key, value⟩ := entry
  refine (Conversion.alike_outcomes convert value).bind fun change converted hc => ?_
  subst he hc
  have ht : (before ++ (key, value) :: rest).take before.length = before := by simp
  simp only [ht, Outcome.pure_eq]
  split
  · rename_i hu
    obtain ⟨hd, hu⟩ := Bool.and_eq_true_iff.mp hu
    rw [Option.isNone_iff_eq_none.mp hd] at h
    rw [Change.isUnchanged_iff.mp hu]
    refine .ok ?_
    simp only [Draft.begun, Option.getD_none, Change.apply_unchanged] at h ⊢
    rw [SortedMap.ofList_concat, SortedMap.ofList_concat, h]
  · refine .ok ?_
    rw [SortedMap.ofList_concat, ← h]
    rfl

theorem result_convertMap (value : Value) :
    (convertMap convert value).result value = Plain.map (Conversion.outcomes convert) value := by
  cases value with
  | map entries =>
    refine Conversion.result_eq ?_
    refine (Alike.foldlM_mapM
      (I := fun before draft done => Draft.begun draft before = SortedMap.ofList done)
      (fun _ _ _ _ _ => alike_convertEntry convert) rfl).bind fun draft done h => ?_
    rw [Draft.begun_toList] at h
    exact .ok ((draft.apply_change entries).trans (congrArg Value.map h))
  | _ => rfl

theorem readPair_eq (built : SortedMap Value none) (pair : Value) :
    readPair convert built pair = Plain.readPair (Conversion.outcomes convert) built pair := by
  have hpair : ∀ key value, readPair convert built (.list [.string key, value]) =
      Plain.readPair (Conversion.outcomes convert) built (.list [.string key, value]) := by
    intro key value
    simp only [readPair, Plain.readPair, Conversion.outcomes, Conversion.result]
    cases built.contains key with
    | true => rfl
    | false => cases convert value <;> rfl
  cases pair with
  | list items =>
    rcases items with - | ⟨first, - | ⟨value, - | ⟨_, _⟩⟩⟩
    · rfl
    · simp [readPair, Plain.readPair]
    · cases first with
      | string key => exact hpair key value
      | _ => rfl
    · simp [readPair, Plain.readPair]
  | _ => rfl

theorem result_readPairs (value : Value) :
    (readPairs convert value).result value =
      Plain.readPairs (Conversion.outcomes convert) value := by
  cases value with
  | list items =>
    have h : readPair convert = Plain.readPair (Conversion.outcomes convert) :=
      funext fun built => funext (readPair_eq convert built)
    simp only [readPairs, Plain.readPairs, h]
    cases items.foldlM (Plain.readPair (Conversion.outcomes convert)) ∅ <;> rfl
  | _ => rfl

theorem result_writePairs (value : Value) :
    (writePairs convert value).result value =
      Plain.writePairs (Conversion.outcomes convert) value := by
  cases value with
  | map entries =>
    have h : (fun (entry : String × Value) => do
        let change ← convert entry.2
        return Value.list [.string entry.1, change.apply entry.2]) =
        Plain.pair (Conversion.outcomes convert) := by
      funext entry
      unfold Plain.pair Conversion.outcomes Conversion.result
      cases convert entry.2 <;> rfl
    simp only [writePairs, Plain.writePairs, h]
    cases entries.toList.mapM (Plain.pair (Conversion.outcomes convert)) <;> rfl
  | _ => rfl

end Node

end LinkedSchema
