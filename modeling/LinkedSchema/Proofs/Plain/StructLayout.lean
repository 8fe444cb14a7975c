import LinkedSchema.Proofs.Lists
import LinkedSchema.Proofs.Plain.CopyOnWrite

namespace LinkedSchema

namespace StructMap

theorem values_ofFields {fields : List Field} (h : (fields.map Field.name).Nodup) :
    (ofFields fields).fields.values = fields := by
  unfold ofFields Table.values
  rw [Table.entries_ofList (by simpa [Function.comp_def] using h)]
  simp [Function.comp_def]

theorem wellFormed_ofFields {fields : List Field} (hn : (fields.map Field.name).Nodup)
    (hk : (fields.map Field.key).Nodup) : (ofFields fields).WellFormed := by
  have hv := values_ofFields hn
  exact ⟨by rwa [hv], by rwa [hv], by rw [hv]⟩

variable {layout : StructMap}

theorem WellFormed.fields_get? (h : layout.WellFormed) (name : String) :
    layout.fields.get? name = layout.fields.values.find? (fun field => field.name = name) := by
  have he : layout.fields.entries = layout.fields.values.map fun field => (field.name, field) := by
    conv_lhs => rw [h.eq_ofFields]
    exact Table.entries_ofList (by simpa [Function.comp_def] using h.names)
  apply Option.ext
  intro field
  rw [Table.get?_eq_some_iff, find?_eq_some_iff_of_nodup h.names, he]
  simp only [List.mem_map, Prod.mk.injEq]
  constructor
  · intro h
    obtain ⟨field, hm, rfl, rfl⟩ := h
    exact ⟨hm, rfl⟩
  · intro h
    obtain ⟨hm, rfl⟩ := h
    exact ⟨field, hm, rfl, rfl⟩

theorem WellFormed.keys_get?_eq_some_iff (h : layout.WellFormed) {key : String} {index : Nat} :
    layout.keys.get? key = some index ↔
      ∃ field, layout.fields.values[index]? = some field ∧ field.key = key := by
  have he : layout.keys.entries =
      layout.fields.values.zipIdx.map fun entry => (entry.1.key, entry.2) := by
    conv_lhs => rw [h.eq_ofFields]
    refine Table.entries_ofList ?_
    have hk : Prod.fst ∘ (fun (entry : Field × Nat) => (entry.1.key, entry.2)) =
        Field.key ∘ Prod.fst := rfl
    rw [List.map_map, hk, ← List.map_map, List.zipIdx_map_fst]
    exact h.keys
  rw [Table.get?_eq_some_iff, he]
  simp only [List.mem_map, Prod.mk.injEq, Prod.exists, List.mk_mem_zipIdx_iff_getElem?]
  constructor
  · intro h
    obtain ⟨field, place, hf, hk, rfl⟩ := h
    exact ⟨field, hf, hk⟩
  · intro h
    obtain ⟨field, hf, hk⟩ := h
    exact ⟨field, index, hf, hk, rfl⟩

/-- The number of required fields that the given names or keys do not mention. -/
def pending (key : Field → String) (fields : List Field) (seen : List String) : Nat :=
  fields.countP fun field => field.isRequired && !seen.contains (key field)

variable {key : Field → String} {fields : List Field} {seen : List String} {field : Field}

theorem WellFormed.required_eq (h : layout.WellFormed) :
    layout.required = pending key layout.fields.values [] := by
  conv_lhs => rw [h.eq_ofFields]
  simp [ofFields, pending, List.countP_eq_length_filter]

theorem pending_concat (h : (fields.map key).Nodup) (hm : field ∈ fields)
    (hs : key field ∉ seen) :
    pending key fields seen =
      pending key fields (seen ++ [key field]) + if field.isRequired then 1 else 0 := by
  unfold pending
  induction fields with
  | nil => simp at hm
  | cons first rest ih =>
    obtain ⟨hn, hr⟩ := List.nodup_cons.mp h
    rw [List.countP_cons, List.countP_cons]
    rcases List.mem_cons.mp hm with rfl | hm
    · have hrest : ∀ other ∈ rest,
          (other.isRequired && !seen.contains (key other)) = true ↔
            (other.isRequired && !(seen ++ [key field]).contains (key other)) = true := by
        intro other ho
        have hne : key other ≠ key field := fun he => hn (List.mem_map.mpr ⟨other, ho, he⟩)
        simp [hne]
      rw [List.countP_congr hrest]
      simp [hs]
    · have hne : key first ≠ key field := fun he => hn (List.mem_map.mpr ⟨field, hm, he.symm⟩)
      have := ih hr hm
      simp only [List.contains_eq_mem, List.mem_append, List.mem_singleton, hne, or_false] at this ⊢
      omega

theorem pending_ne_zero_iff :
    pending key fields seen ≠ 0 ↔
      (fields.any fun field => field.isRequired && !seen.contains (key field)) = true := by
  unfold pending
  rw [List.any_eq_true, ← Nat.pos_iff_ne_zero, List.countP_pos_iff]

theorem countDown_pending (h : (fields.map key).Nodup) (hm : field ∈ fields)
    (hs : key field ∉ seen) :
    field.countDown (pending key fields seen) =
      .ok (pending key fields (seen ++ [key field])) := by
  rw [pending_concat h hm hs]
  unfold Field.countDown
  cases field.isRequired <;> rfl

end StructMap

end LinkedSchema
