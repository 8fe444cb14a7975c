import LinkedSchema.Proofs.RoundTrip.Likeness
import LinkedSchema.Proofs.RoundTrip.Undoing

namespace LinkedSchema

namespace Value

/-- Pairs are finite if their second items are. -/
theorem finite_pairs {pairs : List (String × Value)}
    (h : ∀ entry ∈ pairs, entry.2.Finite) : (list (pairs.map Plain.pairOf)).Finite := by
  refine finite_list_iff.mpr fun item hm => ?_
  obtain ⟨entry, he, rfl⟩ := List.mem_map.mp hm
  refine finite_list_iff.mpr fun part hp => ?_
  rcases List.mem_pair.mp hp with rfl | rfl
  · exact finite_string entry.1
  · exact h entry he

/-- A number in a value stands for a number in each value that is the same. -/
theorem exists_inside_of_same {value other : Value} {y : Binary64} (hs : value.same other = true)
    (h : (float y).Inside other) : ∃ x, (float x).Inside value ∧ x.same y = true := by
  induction h generalizing value with
  | self =>
    cases value with
    | float x => exact ⟨x, .self _, hs⟩
    | _ => simp [same] at hs
  | item hm _ ih =>
    cases value with
    | list others =>
      obtain ⟨found, hf, hsame⟩ := exists_mem_of_forall₂ (same_list_iff.mp hs).flip _ hm
      obtain ⟨x, hx, hxy⟩ := ih hsame
      exact ⟨x, .item hf hx, hxy⟩
    | _ => simp [same] at hs
  | entry hm _ ih =>
    cases value with
    | map others =>
      rw [same, sameEntries_iff] at hs
      obtain ⟨found, hf, -, hsame⟩ := exists_mem_of_forall₂ hs.flip _ hm
      obtain ⟨x, hx, hxy⟩ := ih hsame
      exact ⟨x, .entry hf hx, hxy⟩
    | _ => simp [same] at hs

theorem Finite.of_same {value other : Value} (h : value.Finite) (hs : value.same other = true) :
    other.Finite := by
  intro y hy
  obtain ⟨x, hx, hxy⟩ := exists_inside_of_same hs hy
  exact Binary64.isFinite_of_same hxy (h x hx)

end Value

/-- A representation that shows a member holds no more numbers than the content of the member. -/
theorem Strategy.finite_of_select? {strategy : Strategy} {count place : Nat}
    {value content : Value} (hw : strategy.WellFormed count)
    (h : strategy.select? value = some (place, content)) (hc : content.Finite) : value.Finite := by
  cases selects_of_select? h with
  | kinded => exact hc
  | keyed hl =>
    refine Value.finite_map_of_mem fun entry hm => ?_
    rw [hl, List.mem_singleton] at hm
    subst hm
    exact hc
  | envelope hsize ht hf hs =>
    rename_i discriminantKey contentKey tag table entries
    refine Value.finite_map_iff.mpr fun key value hg => ?_
    rcases entries.eq_or_eq_of_size hsize hw.1 ht hf hg with rfl | rfl
    · rw [ht] at hg
      cases hg
      exact Value.finite_string tag
    · rw [hf] at hg
      cases hg
      exact hc
  | inlined ht hs =>
    rename_i discriminantKey tag table entries
    refine Value.finite_map_iff.mpr fun key value hg => ?_
    by_cases hk : key = discriminantKey
    · rw [hk, ht] at hg
      cases hg
      exact Value.finite_string tag
    · have he : (entries.erase discriminantKey).get? key = some value := by
        rw [SortedMap.get?_erase, if_neg hk, hg]
      exact Value.finite_map_iff.mp hc key value he
  | stringPrefix => exact Value.finite_string _
  | bytesPrefix => exact Value.finite_of_admits (show Kind.bytes.isScalar = true from rfl) rfl

namespace Plain

/-- What is converted holds finite numbers only, and so does what it is converted to. -/
def PassesFinite (convert : Value → Outcome) : Prop :=
  ∀ value result, convert value = .ok result → value.Finite ∧ result.Finite

variable {convert : Value → Outcome}

namespace PassesFinite

theorem nullable (h : PassesFinite convert) (allowed : Bool) :
    PassesFinite (nullable allowed convert) := by
  intro value result hv
  by_cases hn : allowed = true ∧ value = .null
  · obtain ⟨rfl, rfl⟩ := hn
    cases hv
    have hnull : Value.null.Finite :=
      Value.finite_of_admits (show Kind.null.isScalar = true from rfl) rfl
    exact ⟨hnull, hnull⟩
  · rw [nullable_of_not hn] at hv
    exact h value result hv

theorem list (h : PassesFinite convert) : PassesFinite (list convert) := by
  intro value result hv
  obtain ⟨items, results, rfl, rfl, hf⟩ := list_eq_ok_iff.mp hv
  constructor
  · refine Value.finite_list_iff.mpr fun item hm => ?_
    obtain ⟨other, ho⟩ := exists_of_forall₂ hf item hm
    exact (h item other ho).1
  · refine Value.finite_list_iff.mpr fun other hm => ?_
    obtain ⟨item, hi⟩ := exists_of_forall₂ hf.flip other hm
    exact (h item other hi).2

/-- Converted entries are finite on both sides. -/
theorem entries (h : PassesFinite convert) {before after : List (String × Value)}
    (hf : List.Forall₂ (Converted convert) before after) :
    (∀ entry ∈ before, entry.2.Finite) ∧ ∀ entry ∈ after, entry.2.Finite := by
  constructor
  · intro entry hm
    obtain ⟨other, -, ho⟩ := exists_of_forall₂ hf entry hm
    exact (h entry.2 other.2 ho).1
  · intro other hm
    obtain ⟨entry, -, he⟩ := exists_of_forall₂ hf.flip other hm
    exact (h entry.2 other.2 he).2

theorem map (h : PassesFinite convert) : PassesFinite (map convert) := by
  intro value result hv
  obtain ⟨before, after, rfl, rfl, hf⟩ := map_eq_ok_iff.mp hv
  obtain ⟨hb, ha⟩ := h.entries hf
  exact ⟨Value.finite_map_of_mem hb, Value.finite_map_of_mem ha⟩

theorem readPairs (h : PassesFinite convert) : PassesFinite (readPairs convert) := by
  intro value result hv
  obtain ⟨before, after, rfl, rfl, hnd, hf⟩ := readPairs_eq_ok_iff.mp hv
  obtain ⟨hb, ha⟩ := h.entries hf
  rw [Converted.keys hf] at hnd
  refine ⟨Value.finite_pairs hb, Value.finite_map_iff.mpr fun key value hg => ?_⟩
  exact ha (key, value) ((SortedMap.get?_ofList hnd).mp hg)

theorem writePairs (h : PassesFinite convert) : PassesFinite (writePairs convert) := by
  intro value result hv
  obtain ⟨before, after, rfl, rfl, hf⟩ := writePairs_eq_ok_iff.mp hv
  obtain ⟨hb, ha⟩ := h.entries hf
  exact ⟨Value.finite_map_of_mem hb, Value.finite_pairs ha⟩

section Structs

variable {part : PartOutcome} {fields : List Field}

theorem field (h : ∀ slot, PassesFinite (part slot)) (field : Field) :
    PassesFinite (field.type.plain part) :=
  (h field.type.slot).nullable field.type.nullable

/-- The values of the fields are all that a map holds that has entries for fields only. -/
theorem finite_of_within {name : Field → String} {entries : SortedMap Value none}
    (hw : Within name fields entries)
    (h : ∀ field ∈ fields, ∀ value, entries.get? (name field) = some value → value.Finite) :
    (Value.map entries).Finite := by
  refine Value.finite_map_iff.mpr fun key value hg => ?_
  obtain ⟨field, hm, rfl⟩ := hw key (by simp [SortedMap.contains, hg])
  exact h field hm value hg

theorem readStruct (hn : (fields.map Field.name).Nodup) (hk : (fields.map Field.key).Nodup)
    (hi : ∀ field ∈ fields, ∀ value, field.implicit = some value → value.Finite)
    (h : ∀ slot, PassesFinite (part slot)) :
    PassesFinite (readStruct (fields.map (Field.rule part))) := by
  intro value result hv
  obtain ⟨given, rfl⟩ := exists_map_of_readStruct hv
  obtain ⟨typed, rfl, hreads⟩ := readStruct_eq_ok hn hk hv
  constructor
  · refine finite_of_within hreads.keys fun field hm value hg => ?_
    have hf := hreads.fields field hm
    rw [hg] at hf
    generalize typed.get? field.name = found at hf
    cases hf with
    | present hp => exact (PassesFinite.field h field value _ hp).1
  · refine finite_of_within hreads.names fun field hm value hg => ?_
    have hf := hreads.fields field hm
    rw [hg] at hf
    generalize given.get? field.key = found at hf
    cases hf with
    | present hp => exact (PassesFinite.field h field _ value hp).2
    | absent _ ht => exact hi field hm value ht.symm

theorem writeStruct (hn : (fields.map Field.name).Nodup) (hk : (fields.map Field.key).Nodup)
    (hi : ∀ field ∈ fields, ∀ value, field.implicit = some value → value.Finite)
    (h : ∀ slot, PassesFinite (part slot)) :
    PassesFinite (writeStruct (fields.map (Field.rule part))) := by
  intro value result hv
  obtain ⟨typed, rfl⟩ := exists_map_of_writeStruct hv
  obtain ⟨written, rfl, hwrites⟩ := writeStruct_eq_ok hn hk hv
  constructor
  · refine finite_of_within hwrites.names fun field hm value hg => ?_
    have hf := hwrites.fields field hm
    rw [hg] at hf
    generalize written.get? field.key = found at hf
    cases hf with
    | present _ hp => exact (PassesFinite.field h field value _ hp).1
    | implied himplied =>
      -- What is left out has no number of its own: the implicit value has the same ones.
      cases himplicit : field.implicit with
      | none => simp [himplicit] at himplied
      | some implicit =>
        rw [himplicit] at himplied
        exact (hi field hm implicit himplicit).of_same himplied
  · refine finite_of_within hwrites.keys fun field hm value hg => ?_
    have hf := hwrites.fields field hm
    rw [hg] at hf
    generalize typed.get? field.name = found at hf
    cases hf with
    | present _ hp => exact (PassesFinite.field h field _ value hp).2

theorem readTuple (hn : (fields.map Field.name).Nodup) (h : ∀ slot, PassesFinite (part slot)) :
    PassesFinite (readTuple (fields.map (Field.rule part))) := by
  intro value result hv
  obtain ⟨items, typed, rfl, rfl, hreads⟩ := readTuple_eq_ok hn hv
  constructor
  · refine Value.finite_list_iff.mpr fun item hm => ?_
    obtain ⟨field, found, hr, -⟩ := exists_of_forall₂ hreads.items.flip item hm
    exact (PassesFinite.field h field item found hr).1
  · refine finite_of_within hreads.names fun field hm value hg => ?_
    obtain ⟨item, found, hr, ht⟩ := exists_of_forall₂ hreads.items field hm
    rw [hg] at ht
    cases ht
    exact (PassesFinite.field h field item value hr).2

theorem writeTuple (hn : (fields.map Field.name).Nodup) (h : ∀ slot, PassesFinite (part slot)) :
    PassesFinite (writeTuple (fields.map (Field.rule part))) := by
  intro value result hv
  obtain ⟨typed, items, rfl, rfl, hsize, hitems⟩ := writeTuple_eq_ok_iff.mp hv
  have hw : Within Field.name fields typed := by
    refine within_of_size hn hsize fun field hm => ?_
    obtain ⟨item, found, hg, -⟩ := exists_of_forall₂ hitems field hm
    simp [SortedMap.contains, hg]
  constructor
  · refine finite_of_within hw fun field hm value hg => ?_
    obtain ⟨item, found, ht, hr⟩ := exists_of_forall₂ hitems field hm
    rw [hg] at ht
    cases ht
    exact (PassesFinite.field h field value item hr).1
  · refine Value.finite_list_iff.mpr fun item hm => ?_
    obtain ⟨field, found, -, hr⟩ := exists_of_forall₂ hitems.flip item hm
    exact (PassesFinite.field h field found item hr).2

end Structs

end PassesFinite

end Plain

/-- The members of an enum are represented by strings and integers. -/
theorem EnumApart.finite {members : List (String × Value)} (hw : EnumApart members)
    {entry : String × Value} (hm : entry ∈ members) : entry.2.Finite := by
  rcases hw.scalars _ hm with ⟨s, hs⟩ | ⟨n, hn⟩
  · rw [hs]
    exact Value.finite_string s
  · rw [hn]
    exact Value.finite_of_admits (show Kind.int.isScalar = true from rfl) rfl

namespace Node

variable {part : PartOutcome} {node : Node}

theorem passesFinite_union {members : List Member} {strategy : Strategy}
    (hw : (union members strategy).WellFormed) (h : ∀ slot, Plain.PassesFinite (part slot))
    (direction : Direction) :
    Plain.PassesFinite ((union members strategy).plain direction part) := by
  intro value result hv
  cases direction with
  | toTyped =>
    obtain ⟨place, content, member, converted, hs, hm, hc, rfl⟩ := readPlainUnion_eq_ok_iff.mp hv
    obtain ⟨hcontent, hconverted⟩ := h member.slot content converted hc
    exact ⟨Strategy.finite_of_select? hw.2 hs hcontent, Value.finite_singleton_iff.mpr hconverted⟩
  | toRepresentation =>
    obtain ⟨place, content, member, converted, rfl, hm, hc, hwrap⟩ :=
      (writePlainUnion_eq_ok_iff hw.1).mp hv
    obtain ⟨hcontent, hconverted⟩ := h member.slot content converted hc
    -- What is written shows the member again, with the same content.
    have hs := Strategy.select?_of_wrap? hw.2 hwrap
    exact ⟨Value.finite_singleton_iff.mpr hcontent, Strategy.finite_of_select? hw.2 hs hconverted⟩

theorem passesFinite_enum {members : List (String × Value)} (hw : EnumApart members)
    (direction : Direction) : Plain.PassesFinite ((enum members).plain direction part) := by
  intro value result hv
  cases direction with
  | toTyped =>
    obtain ⟨name, hm, rfl⟩ := (readPlainEnum_eq_ok_iff hw).mp hv
    exact ⟨hw.finite hm, Value.finite_string name⟩
  | toRepresentation =>
    obtain ⟨name, rfl, hm⟩ := (writePlainEnum_eq_ok_iff hw.names).mp hv
    exact ⟨Value.finite_string name, hw.finite hm⟩

/-- A type passes on only finite numbers, if its parts and its implicit values do. -/
theorem passesFinite (hw : node.WellFormed) (hu : node.Untransformed)
    (hi : ∀ field value, node.Implies field value → value.Finite)
    (h : ∀ slot, Plain.PassesFinite (part slot)) (direction : Direction) :
    Plain.PassesFinite (node.plain direction part) := by
  have hparts : ∀ type : PartType, Plain.PassesFinite (type.plain part) :=
    fun type => (h type.slot).nullable type.nullable
  cases node with
  | kind member =>
    intro value result hv
    obtain ⟨ha, rfl⟩ := plain_kind_eq_ok_iff.mp hv
    have hf := Value.finite_of_admits hw ha
    exact ⟨hf, hf⟩
  | list items => exact (hparts items).list
  | map values => exact (hparts values).map
  | pairs values =>
    cases direction with
    | toTyped => exact (hparts values).readPairs
    | toRepresentation => exact (hparts values).writePairs
  | structMap layout =>
    have himplicit : ∀ field ∈ layout.fields.values, ∀ value, field.implicit = some value →
        value.Finite := fun field hm value hv => hi field value ⟨hm, hv⟩
    cases direction with
    | toTyped => exact .readStruct hw.names hw.keys himplicit h
    | toRepresentation => exact .writeStruct hw.names hw.keys himplicit h
  | structTuple fields =>
    cases direction with
    | toTyped => exact .readTuple hw.1 h
    | toRepresentation => exact .writeTuple hw.1 h
  | union members strategy => exact passesFinite_union hw h direction
  | enum members => exact passesFinite_enum hw direction
  | custom name transform => exact hu.elim

end Node

namespace Registry.Sound

variable {registry : Registry} {most : Nat} {slot : Slot} {value result : Value}

theorem passesFinite (hs : registry.Sound) (direction : Direction) (most : Nat) (slot : Slot) :
    Plain.PassesFinite (registry.outcomeUpTo direction most slot) := by
  induction most generalizing slot with
  | zero => exact nofun
  | succ most ih =>
    intro value result h
    obtain ⟨less, node, he, hn, h⟩ := hs.wellFormed.exists_of_outcomeUpTo h
    cases he
    exact Node.passesFinite (hs.wellFormed slot node hn) (hs.untransformed slot node hn)
      (fun field value => hs.finite_of_implies hn) ih direction value result h

/-- What can be read holds no NaN: every number in it was met as a scalar. -/
theorem same_self_of_read (hs : registry.Sound)
    (h : registry.outcomeUpTo .toTyped most slot value = .ok result) :
    value.same value = true :=
  (hs.passesFinite .toTyped most slot value result h).1.same_self

end Registry.Sound

end LinkedSchema
