import LinkedSchema.Proofs.RoundTrip.Same
import LinkedSchema.Proofs.RoundTrip.Selecting
import Mathlib.Data.List.Nodup

namespace LinkedSchema

namespace EnumApart

variable {members : List (String × Value)} {value : Value}

theorem same_iff (h : EnumApart members) {member : String × Value} (hm : member ∈ members)
    (value : Value) : member.2.same value = true ↔ member.2 = value :=
  Value.same_iff_eq (h.scalars member hm)

theorem name_unique (h : EnumApart members) {name other : String} (hn : (name, value) ∈ members)
    (ho : (other, value) ∈ members) : name = other := by
  have hs : (fun a b : String × Value => a.2.same b.2 = false) (name, value) (other, value) →
      False := by
    intro hf
    rw [show value.same value = true from (h.same_iff hn value).mpr rfl] at hf
    cases hf
  by_contra hne
  rcases List.Pairwise.forall_of_forall_of_flip (l := members)
    (R := fun a b => a ≠ b → a.2.same b.2 = false ∨ b.2.same a.2 = false) (by simp)
    (h.values.imp fun hf _ => .inl hf) (h.values.imp fun hf _ => .inr hf) hn ho
    (by simpa using hne) with hf | hf
  · exact hs hf
  · exact hs hf

end EnumApart

namespace Node

variable {part : PartOutcome} {value result : Value}

theorem plain_kind_eq_ok_iff {kind : Kind} {direction : Direction} :
    (Node.kind kind).plain direction part value = .ok result ↔
      kind.admits value = true ∧ result = value := by
  simp only [plain]
  split
  · rename_i ha
    simp [ha, eq_comm]
  · rename_i ha
    simp [ha]

theorem readPlainUnion_eq_ok_iff {members : List Member} {strategy : Strategy} :
    readPlainUnion members strategy part value = .ok result ↔ ∃ place content member converted,
      strategy.select? value = some (place, content) ∧ members[place]? = some member ∧
        part member.slot content = .ok converted ∧
          result = .map (SortedMap.singleton member.name converted) := by
  unfold readPlainUnion
  constructor
  · intro h
    split at h
    · cases h
    · rename_i place content hs
      split at h
      · cases h
      · rename_i member hm
        obtain ⟨converted, hc, h⟩ := Outcome.bind_eq_ok.mp h
        cases h
        exact ⟨place, content, member, converted, hs, hm, hc, rfl⟩
  · intro h
    obtain ⟨place, content, member, converted, hs, hm, hc, rfl⟩ := h
    simp only [hs, hm, Plain.tag, hc, Outcome.ok_bind, Outcome.pure_eq]

theorem untag?_eq_some_iff {name : String} {content : Value} :
    Plain.untag? value = some (name, content) ↔
      value = .map (SortedMap.singleton name content) := by
  constructor
  · intro h
    unfold Plain.untag? at h
    split at h
    · split at h
      · rename_i entries entry hl
        cases h
        exact congrArg Value.map (SortedMap.toList_injective hl)
      · cases h
    · cases h
  · intro he
    subst he
    rfl

theorem writePlainUnion_eq_ok_iff {members : List Member} {strategy : Strategy}
    (hn : (members.map Member.name).Nodup) :
    writePlainUnion members strategy part value = .ok result ↔ ∃ place content member converted,
      value = .map (SortedMap.singleton member.name content) ∧ members[place]? = some member ∧
        part member.slot content = .ok converted ∧
          strategy.wrap? place converted = some result := by
  unfold writePlainUnion
  constructor
  · intro h
    split at h
    · cases h
    · rename_i name content hu
      split at h
      · cases h
      · rename_i place hp
        split at h
        · cases h
        · rename_i member hm
          obtain ⟨converted, hc, h⟩ := Outcome.bind_eq_ok.mp h
          split at h
          · rename_i shown hw
            cases h
            obtain ⟨hlt, hname, -⟩ := List.findIdx?_eq_some_iff_getElem.mp hp
            rw [List.getElem?_eq_getElem hlt] at hm
            cases hm
            refine ⟨place, content, members[place], converted, ?_, ?_, hc, hw⟩
            · rw [of_decide_eq_true hname]
              exact untag?_eq_some_iff.mp hu
            · exact List.getElem?_eq_getElem hlt
          · cases h
  · intro h
    obtain ⟨place, content, member, converted, rfl, hm, hc, hw⟩ := h
    have hu : Plain.untag? (.map (SortedMap.singleton member.name content)) =
        some (member.name, content) := rfl
    have hp : members.findIdx? (fun other => other.name = member.name) = some place := by
      obtain ⟨hlt, rfl⟩ := List.getElem?_eq_some_iff.mp hm
      refine List.findIdx?_eq_some_iff_getElem.mpr ⟨hlt, by simp, fun j hj => ?_⟩
      rw [decide_eq_true_eq]
      intro he
      have hj' : j < (members.map Member.name).length := by rw [List.length_map]; omega
      have hlt' : place < (members.map Member.name).length := by rwa [List.length_map]
      have hi : (members.map Member.name)[j] = (members.map Member.name)[place] := by simpa using he
      have := (List.Nodup.getElem_inj_iff hn).mp hi
      omega
    simp only [hu, hp, hm, hc, Outcome.ok_bind, hw, Outcome.pure_eq]

theorem readPlainEnum_eq_ok_iff {members : List (String × Value)} (h : EnumApart members) :
    readPlainEnum members value = .ok result ↔ ∃ name, (name, value) ∈ members ∧
      result = .string name := by
  constructor
  · intro hr
    unfold readPlainEnum at hr
    split at hr
    · cases hr
    · rename_i name found hf
      cases hr
      have hm := List.mem_of_find?_eq_some hf
      have he : found = value := (h.same_iff hm value).mp (by simpa using List.find?_some hf)
      rw [he] at hm
      exact ⟨name, hm, rfl⟩
  · intro h
    obtain ⟨name, hm, rfl⟩ := h
    unfold readPlainEnum
    cases hf : members.find? fun member => member.2.same value with
    | none =>
      have hs := List.find?_eq_none.mp hf _ hm
      exact absurd ((h.same_iff hm value).mpr rfl) hs
    | some member =>
      have hfm := List.mem_of_find?_eq_some hf
      have he : member.2 = value := (h.same_iff hfm value).mp (by simpa using List.find?_some hf)
      have hn : member.1 = name := by
        subst he
        exact h.name_unique hfm hm
      rw [← hn]
      rfl

theorem writePlainEnum_eq_ok_iff {members : List (String × Value)}
    (hn : (members.map Prod.fst).Nodup) :
    writePlainEnum members value = .ok result ↔ ∃ name, value = .string name ∧
      (name, result) ∈ members := by
  constructor
  · intro h
    unfold writePlainEnum at h
    split at h
    · rename_i name
      split at h
      · cases h
      · rename_i other found hf
        cases h
        obtain ⟨hm, rfl⟩ := (find?_eq_some_iff_of_nodup hn).mp hf
        exact ⟨_, rfl, hm⟩
    · cases h
  · intro h
    obtain ⟨name, rfl, hm⟩ := h
    have hf : members.find? (fun member => member.1 = name) = some (name, result) :=
      (find?_eq_some_iff_of_nodup hn).mpr ⟨hm, rfl⟩
    simp only [writePlainEnum, hf, Outcome.pure_eq]

end Node

end LinkedSchema
