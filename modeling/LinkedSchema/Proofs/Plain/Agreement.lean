import LinkedSchema.Proofs.Plain.StructWriting

namespace LinkedSchema

namespace Conversion

variable {α : Type}

theorem result_bind (conversion : Conversion) (value : Value) (f : Value → Except Stop α) :
    (conversion.result value >>= f) = conversion >>= fun change => f (change.apply value) := by
  cases conversion <;> rfl

theorem result_replaced (x : Except Stop α) (f : α → Value) (value : Value) :
    Conversion.result (x >>= fun a => pure (.replaced (f a))) value =
      x >>= fun a => pure (f a) := by
  cases x <;> rfl

end Conversion

namespace Node

variable (convertPart : PartConversion) (value : Value)

theorem result_readTuple (fields : List Field) :
    (readTuple fields convertPart value).result value =
      Plain.readTuple (fields.map (Field.rule convertPart.result)) value := by
  cases value with
  | list items =>
    simp only [readTuple, Plain.readTuple, List.length_map, List.zip_map_left, List.mapM_map]
    by_cases hl : items.length = fields.length
    · rw [if_neg (not_not.mpr hl), if_neg (not_not.mpr hl)]
      refine (Conversion.result_replaced _ _ _).trans ?_
      refine Congruence.eq.bind (Congruence.eq.mapM fun pair _ => ?_) fun _ => rfl
      obtain ⟨field, item⟩ := pair
      simp only [Function.comp_apply, Plain.readItem, Prod.map_fst, Prod.map_snd, id,
        StructMap.rule_convert, Conversion.outcomes, Conversion.result_bind, Field.rule_name]
    · rw [if_pos hl, if_pos hl]
      rfl
  | _ => rfl

theorem result_writeTuple (fields : List Field) :
    (writeTuple fields convertPart value).result value =
      Plain.writeTuple (fields.map (Field.rule convertPart.result)) value := by
  cases value with
  | map entries =>
    simp only [writeTuple, Plain.writeTuple, List.length_map, List.mapM_map]
    by_cases hl : entries.size = fields.length
    · rw [if_neg (not_not.mpr hl), if_neg (not_not.mpr hl)]
      refine (Conversion.result_replaced _ _ _).trans ?_
      refine Congruence.eq.bind (Congruence.eq.mapM fun field _ => ?_) fun _ => rfl
      simp only [Function.comp_apply, Plain.writeItem, Field.rule_name]
      cases entries.get? field.name with
      | none => rfl
      | some value =>
        simp only [StructMap.rule_convert, Conversion.outcomes, Conversion.result]
        cases field.type.convert convertPart value <;> rfl
    · rw [if_pos hl, if_pos hl]
      rfl
  | _ => rfl

theorem result_readUnion (members : List Member) (strategy : Strategy) :
    (readUnion members strategy convertPart value).result value =
      readPlainUnion members strategy convertPart.result value := by
  simp only [readUnion, readPlainUnion]
  cases strategy.select? value with
  | none => rfl
  | some selected =>
    obtain ⟨place, content⟩ := selected
    simp only []
    cases members[place]? with
    | none => rfl
    | some member =>
      simp only [Plain.tag, PartConversion.result, Conversion.result_bind]
      exact Conversion.result_replaced _ _ _

theorem result_writeUnion (members : List Member) (strategy : Strategy) :
    (writeUnion members strategy convertPart value).result value =
      writePlainUnion members strategy convertPart.result value := by
  cases value with
  | map entries =>
    simp only [writeUnion, writePlainUnion, Plain.untag?]
    cases entries.toList with
    | nil => rfl
    | cons entry rest =>
      obtain ⟨name, content⟩ := entry
      cases rest with
      | cons _ _ => rfl
      | nil =>
        simp only []
        cases members.findIdx? fun member => member.name = name with
        | none => rfl
        | some place =>
          simp only []
          cases members[place]? with
          | none => rfl
          | some member =>
            simp only [PartConversion.result, Conversion.result_bind]
            cases convertPart member.slot content with
            | error stop => rfl
            | ok change =>
              simp only [Outcome.ok_bind]
              cases strategy.wrap? place (change.apply content) <;> rfl
  | _ => rfl

theorem result_readEnum (members : List (String × Value)) :
    (readEnum members value).result value = readPlainEnum members value := by
  simp only [readEnum, readPlainEnum]
  cases members.find? fun member => member.2.same value with
  | none => rfl
  | some member =>
    by_cases h : value = .string member.1
    · simp [h, Conversion.result]
    · simp [h, Conversion.result]

theorem result_writeEnum {members : List (String × Value)} (h : EnumApart members) :
    (writeEnum members value).result value = writePlainEnum members value := by
  cases value with
  | string name =>
    simp only [writeEnum, writePlainEnum]
    cases hf : members.find? fun member => member.1 = name with
    | none => rfl
    | some member =>
      simp only []
      split
      · rename_i hs
        -- A text is the same as no number, and a text that is the same is equal.
        rcases h.scalars member (List.mem_of_find?_eq_some hf) with ⟨s, he⟩ | ⟨n, he⟩
        · rw [he] at hs ⊢
          rw [show s = name by simpa [Value.same] using hs]
          rfl
        · rw [he] at hs
          simp [Value.same] at hs
      · rfl
  | _ => rfl

/-- What conversion by a well-formed type makes of a value, and how it fails. -/
theorem result_convert {node : Node} (h : node.WellFormed) (direction : Direction) :
    (node.convert direction convertPart value).result value =
      node.plain direction convertPart.result value := by
  cases node with
  | kind member =>
    simp only [convert, plain]
    split <;> rfl
  | list items => simpa only [convert, plain, PartType.plain_eq] using result_convertList _ value
  | map values => simpa only [convert, plain, PartType.plain_eq] using result_convertMap _ value
  | pairs values =>
    cases direction with
    | toTyped => simpa only [convert, plain, PartType.plain_eq] using result_readPairs _ value
    | toRepresentation =>
      simpa only [convert, plain, PartType.plain_eq] using result_writePairs _ value
  | structMap layout =>
    cases direction with
    | toTyped => exact StructMap.result_read h convertPart value
    | toRepresentation => exact StructMap.result_write h convertPart value
  | structTuple fields =>
    cases direction with
    | toTyped => exact result_readTuple convertPart value fields
    | toRepresentation => exact result_writeTuple convertPart value fields
  | union members strategy =>
    cases direction with
    | toTyped => exact result_readUnion convertPart value members strategy
    | toRepresentation => exact result_writeUnion convertPart value members strategy
  | enum members =>
    cases direction with
    | toTyped => exact result_readEnum value members
    | toRepresentation => exact result_writeEnum value h
  | custom name transform => rfl

end Node

end LinkedSchema
