import LinkedSchema.Proofs.RoundTrip.Scalars
import Mathlib.Data.List.Perm.Basic

namespace LinkedSchema

namespace Plain

variable {read write : Value → Outcome} {allowed : Bool} {given typed : Value}

/-- What was read can be written, and read again as the same value. -/
def Rereads (read write : Value → Outcome) (given typed : Value) : Prop :=
  ∃ shown again, write typed = .ok shown ∧ read shown = .ok again ∧ again.same typed = true ∧
    shown.Reshapes given

/-- Everything that can be read can be written and read again. -/
structure Stable (read write : Value → Outcome) : Prop where
  rereads {given typed : Value} (h : read given = .ok typed) : Rereads read write given typed
  eq_null {given : Value} (h : read given = .ok .null) : given = .null
  admits {given typed : Value} (h : read given = .ok typed) :
    (Kind.of given).admits given = true

theorem Stable.nullable (hs : Stable read write)
    (h : nullable allowed read given = .ok typed) :
    Rereads (nullable allowed read) (Plain.nullable allowed write) given typed := by
  by_cases hn : allowed = true ∧ given = .null
  · obtain ⟨rfl, rfl⟩ := hn
    cases h
    exact ⟨.null, .null, rfl, rfl, rfl, .of_eq⟩
  · rw [nullable_of_not hn] at h
    obtain ⟨shown, again, hw, hr, hsame, hshape⟩ := hs.rereads h
    refine ⟨shown, again, ?_, ?_, hsame, hshape⟩
    · rw [nullable_of_not, hw]
      intro h
      obtain ⟨ha, rfl⟩ := h
      exact hn ⟨ha, hs.eq_null h⟩
    · rw [nullable_of_not, hr]
      intro h
      obtain ⟨ha, rfl⟩ := h
      have hk := hshape.kind
      refine hn ⟨ha, ?_⟩
      cases given with
      | null => rfl
      | _ => cases hk

/-- Every part that can be read can be written and read again. -/
def StableParts (read write : Value → Outcome) : Prop :=
  ∀ given typed, read given = .ok typed → Rereads read write given typed

theorem rereads_list (hs : StableParts read write) (h : list read given = .ok typed) :
    Rereads (list read) (list write) given typed := by
  obtain ⟨items, others, rfl, rfl, hf⟩ := list_eq_ok_iff.mp h
  obtain ⟨shown, again, hshown, hagain, hsame⟩ : ∃ shown again,
      List.Forall₂ (fun a b => write a = .ok b) others shown ∧
        List.Forall₂ (fun a b => read a = .ok b) shown again ∧
          List.Forall₂ (fun a b : Value => a.same b = true) again others := by
    refine forall₂_round hf fun a b hab => ?_
    obtain ⟨shown, again, hw, hr, hsame, -⟩ := hs a b hab
    exact ⟨shown, again, hw, hr, hsame⟩
  refine ⟨.list shown, .list again, ?_, ?_, Value.same_list_iff.mpr hsame, .of_kind rfl nofun⟩
  · exact list_eq_ok_iff.mpr ⟨others, shown, rfl, rfl, hshown⟩
  · exact list_eq_ok_iff.mpr ⟨shown, again, rfl, rfl, hagain⟩

theorem rereads_entries (hs : StableParts read write) {entries others : List (String × Value)}
    (h : List.Forall₂ (Converted read) entries others) :
    ∃ shown again, List.Forall₂ (Converted write) others shown ∧
      List.Forall₂ (Converted read) shown again ∧
        List.Forall₂ (fun a b => a.1 = b.1 ∧ a.2.same b.2 = true) again others := by
  refine forall₂_round h fun a b hab => ?_
  obtain ⟨hk, hab⟩ := hab
  obtain ⟨shown, again, hw, hr, hsame, -⟩ := hs a.2 b.2 hab
  exact ⟨(b.1, shown), (b.1, again), ⟨rfl, hw⟩, ⟨rfl, hr⟩, rfl, hsame⟩

theorem rereads_map (hs : StableParts read write) (h : map read given = .ok typed) :
    Rereads (map read) (map write) given typed := by
  obtain ⟨entries, others, rfl, rfl, hf⟩ := map_eq_ok_iff.mp h
  obtain ⟨shown, again, hshown, hagain, hsame⟩ := rereads_entries hs hf
  have hsk := Converted.keys hshown
  have hsl := SortedMap.toList_ofList_of_keys hsk
  have hal := SortedMap.toList_ofList_of_keys (hsk.trans (Converted.keys hagain))
  refine ⟨.map (SortedMap.ofList shown), .map (SortedMap.ofList again), ?_, ?_, ?_, rfl, ?_⟩
  · exact map_eq_ok_iff.mpr ⟨_, _, rfl, rfl, by rwa [hsl]⟩
  · exact map_eq_ok_iff.mpr ⟨_, _, rfl, rfl, by rwa [hsl, hal]⟩
  · rw [Value.same, Value.sameEntries_iff, hal]
    exact hsame
  · intro key hc
    rw [SortedMap.contains_iff] at hc ⊢
    rwa [hsl, ← hsk, ← Converted.keys hf] at hc

theorem rereads_pairs (hs : StableParts read write) (h : readPairs read given = .ok typed) :
    Rereads (readPairs read) (writePairs write) given typed := by
  obtain ⟨pairs, done, rfl, rfl, hn, hf⟩ := readPairs_eq_ok_iff.mp h
  have hdn : (done.map Prod.fst).Nodup := by rwa [← Converted.keys hf]
  -- The typed map has the converted pairs in the order of their keys.
  obtain ⟨sorted, -, hsorted⟩ : Relation.Comp List.Perm (List.Forall₂ (Converted read)) pairs
      (SortedMap.ofList done).toList := by
    rw [← List.forall₂_comp_perm_eq_perm_comp_forall₂]
    exact ⟨done, hf, (SortedMap.perm_toList_ofList hdn).symm⟩
  obtain ⟨shown, again, hshown, hagain, hsame⟩ := rereads_entries hs hsorted
  have hsk := Converted.keys hshown
  have hal := SortedMap.toList_ofList_of_keys (hsk.trans (Converted.keys hagain))
  refine ⟨.list (shown.map pairOf), .map (SortedMap.ofList again), ?_, ?_, ?_, .of_kind rfl nofun⟩
  · exact writePairs_eq_ok_iff.mpr ⟨_, shown, rfl, rfl, hshown⟩
  · refine readPairs_eq_ok_iff.mpr ⟨shown, again, rfl, rfl, ?_, hagain⟩
    rw [← hsk]
    exact SortedMap.nodup_keys _
  · rw [Value.same, Value.sameEntries_iff, hal]
    exact hsame

section Structs

variable {readPart writePart : PartOutcome} {fields : List Field}

/-- A field that was read is left out or written, and comes back with the same value. -/
theorem rereads_field {field : Field}
    (hs : ∀ slot, Stable (readPart slot) (writePart slot))
    (hi : ∀ value, field.implicit = some value → value.same value = true)
    {given typed : Option Value} (h : field.Reads readPart given typed) :
    ∃ shown again, field.Writes writePart typed shown ∧ field.Reads readPart shown again ∧
      Option.Rel (fun a b : Value => a.same b = true) again typed ∧
        (shown.isSome = true → given.isSome = true) := by
  cases h with
  | present h =>
    rename_i found value
    cases hany : field.implicit.any (·.same value) with
    | true =>
      obtain ⟨implicit, himp, hsame⟩ := (Option.any_eq_true _ _).mp hany
      exact ⟨none, some implicit, .implied hany, .absent (field.not_isRequired himp) himp.symm,
        .some hsame, nofun⟩
    | false =>
      obtain ⟨shown, again, hw, hr, hsame, -⟩ := (hs field.type.slot).nullable h
      exact ⟨some shown, some again, .present hany hw, .present hr, .some hsame, fun _ => rfl⟩
  | absent hreq ht =>
    subst ht
    cases himp : field.implicit with
    | none => exact ⟨none, none, .absent hreq, .absent hreq himp.symm, .none, id⟩
    | some implicit =>
      have hsame := hi implicit himp
      refine ⟨none, some implicit, .implied ?_, .absent hreq himp.symm, .some hsame, id⟩
      simp [himp, hsame]

theorem Within.get?_eq_none {name : Field → String} {entries : SortedMap Value none} {key : String}
    (h : Within name fields entries) (hk : ¬∃ field ∈ fields, name field = key) :
    entries.get? key = none := by
  rw [← Option.not_isSome_iff_eq_none]
  exact fun hc => hk (h key hc)

theorem rel_get?_of_within {name : Field → String} {rel : Value → Value → Prop}
    {entries others : SortedMap Value none} (he : Within name fields entries)
    (ho : Within name fields others)
    (h : ∀ field ∈ fields, Option.Rel rel (entries.get? (name field)) (others.get? (name field)))
    (key : String) : Option.Rel rel (entries.get? key) (others.get? key) := by
  by_cases hk : ∃ field ∈ fields, name field = key
  · obtain ⟨field, hm, rfl⟩ := hk
    exact h field hm
  · rw [he.get?_eq_none hk, ho.get?_eq_none hk]
    exact .none

theorem rereads_struct (hn : (fields.map Field.name).Nodup) (hk : (fields.map Field.key).Nodup)
    (hs : ∀ slot, Stable (readPart slot) (writePart slot))
    (hi : ∀ field ∈ fields, ∀ value, field.implicit = some value → value.same value = true)
    (h : readStruct (fields.map (Field.rule readPart)) given = .ok typed) :
    Rereads (readStruct (fields.map (Field.rule readPart)))
      (writeStruct (fields.map (Field.rule writePart))) given typed := by
  obtain ⟨given, rfl⟩ := exists_map_of_readStruct h
  obtain ⟨typed, rfl, hreads⟩ := readStruct_eq_ok hn hk h
  have hfield : ∀ field ∈ fields, ∃ shown again,
      field.Writes writePart (typed.get? field.name) shown ∧ field.Reads readPart shown again ∧
        Option.Rel (fun a b : Value => a.same b = true) again (typed.get? field.name) ∧
          (shown.isSome = true → (given.get? field.key).isSome = true) := fun field hm =>
    rereads_field hs (hi field hm) (hreads.fields field hm)
  obtain ⟨shown, hshown, hwrites⟩ := exists_writeStruct writePart hn hk hreads.names
    fun field hm => by
      obtain ⟨shown, again, hw, -⟩ := hfield field hm
      exact ⟨shown, hw⟩
  -- What is written for each field is known by its look-up.
  have hfield : ∀ field ∈ fields, ∃ again, field.Reads readPart (shown.get? field.key) again ∧
      Option.Rel (fun a b : Value => a.same b = true) again (typed.get? field.name) ∧
        (shown.contains field.key = true → given.contains field.key = true) := by
    intro field hm
    obtain ⟨written, again, hw, hr, hsame, hkey⟩ := hfield field hm
    rw [Field.Writes.unique hw (hwrites.fields field hm)] at hr hkey
    exact ⟨again, hr, hsame, hkey⟩
  obtain ⟨again, hagain, hrereads⟩ := exists_readStruct readPart hn hk hwrites.keys
    fun field hm => by
      obtain ⟨again, hr, -⟩ := hfield field hm
      exact ⟨again, hr⟩
  refine ⟨.map shown, .map again, hshown, hagain, ?_, rfl, ?_⟩
  · refine Value.same_map_of_get? (rel_get?_of_within hrereads.names hreads.names ?_)
    intro field hm
    obtain ⟨value, hr, hsame, -⟩ := hfield field hm
    rwa [Field.Reads.unique (hrereads.fields field hm) hr]
  · intro key hc
    obtain ⟨field, hm, rfl⟩ := hwrites.keys key hc
    obtain ⟨_, -, -, hkey⟩ := hfield field hm
    exact hkey hc

theorem rereads_tuple (hn : (fields.map Field.name).Nodup)
    (hs : ∀ slot, Stable (readPart slot) (writePart slot))
    (h : readTuple (fields.map (Field.rule readPart)) given = .ok typed) :
    Rereads (readTuple (fields.map (Field.rule readPart)))
      (writeTuple (fields.map (Field.rule writePart))) given typed := by
  obtain ⟨items, typed, rfl, rfl, hreads⟩ := readTuple_eq_ok hn h
  obtain ⟨shown, hshown⟩ : ∃ shown, List.Forall₂ (fun field shown =>
      ∃ value, typed.get? field.name = some value ∧
        field.type.plain writePart value = .ok shown ∧ ∃ again,
          field.type.plain readPart shown = .ok again ∧ again.same value = true) fields shown := by
    refine forall₂_of_exists hreads.items fun field item ⟨value, hv, ht⟩ => ?_
    obtain ⟨shown, again, hw, hr, hsame, -⟩ := (hs field.type.slot).nullable hv
    exact ⟨shown, value, ht, hw, again, hr, hsame⟩
  obtain ⟨again, hagain, hrereads⟩ := exists_readTuple readPart hn (hshown.imp
    fun field shown ⟨_, _, _, again, hr, _⟩ => ⟨again, hr⟩)
  refine ⟨.list shown, .map again, ?_, hagain, ?_, .of_kind rfl nofun⟩
  · refine writeTuple_eq_ok_iff.mpr ⟨typed, shown, rfl, rfl, hreads.size, ?_⟩
    exact hshown.imp fun field shown ⟨value, ht, hw, _⟩ => ⟨value, ht, hw⟩
  · refine Value.same_map_of_get? (rel_get?_of_within hrereads.names hreads.names ?_)
    intro field hm
    obtain ⟨shown, ⟨value, ht, -, again, hr, hsame⟩, found, hr', hf⟩ :=
      exists_of_forall₂ (forall₂_and hshown hrereads.items) field hm
    rw [hr] at hr'
    cases hr'
    rw [ht, hf]
    exact .some hsame

end Structs

end Plain

namespace Node

variable {readPart writePart : PartOutcome} {given typed : Value}

theorem rereads_union {members : List Member} {strategy : Strategy}
    (hw : (union members strategy).WellFormed)
    (hs : ∀ slot, Plain.Stable (readPart slot) (writePart slot))
    (h : readPlainUnion members strategy readPart given = .ok typed) :
    Plain.Rereads (readPlainUnion members strategy readPart)
      (writePlainUnion members strategy writePart) given typed := by
  obtain ⟨hn, hw⟩ := hw
  obtain ⟨place, content, member, converted, hsel, hm, hc, rfl⟩ := readPlainUnion_eq_ok_iff.mp h
  obtain ⟨rewritten, again, hwrite, hread, hsame, hshape⟩ := (hs member.slot).rereads hc
  obtain ⟨shown, hwrap, hreshapes⟩ :=
    Strategy.exists_wrap? hw hsel hshape ((hs member.slot).admits hread)
  have hsel' := Strategy.select?_of_wrap? hw hwrap
  refine ⟨shown, .map (SortedMap.singleton member.name again), ?_, ?_, ?_, hreshapes⟩
  · exact (writePlainUnion_eq_ok_iff hn).mpr
      ⟨place, converted, member, rewritten, rfl, hm, hwrite, hwrap⟩
  · exact readPlainUnion_eq_ok_iff.mpr ⟨place, rewritten, member, again, hsel', hm, hread, rfl⟩
  · exact Value.same_singleton_iff.mpr ⟨rfl, hsame⟩

/-- Reading, writing and reading again by a type, given that its parts allow it. -/
theorem rereads {node : Node} (hw : node.WellFormed) (hu : node.Untransformed)
    (hs : ∀ slot, Plain.Stable (readPart slot) (writePart slot))
    (hi : ∀ field value, node.Implies field value → value.same value = true)
    (h : node.plain .toTyped readPart given = .ok typed) :
    Plain.Rereads (node.plain .toTyped readPart) (node.plain .toRepresentation writePart) given
      typed := by
  have hparts : ∀ type : PartType,
      Plain.StableParts (type.plain readPart) (type.plain writePart) :=
    fun type _ _ h => (hs type.slot).nullable h
  cases node with
  | kind member =>
    obtain ⟨ha, rfl⟩ := plain_kind_eq_ok_iff.mp h
    exact ⟨typed, typed, plain_kind_eq_ok_iff.mpr ⟨ha, rfl⟩, h, Value.same_self_of_admits hw ha,
      .of_eq⟩
  | list items => exact Plain.rereads_list (hparts items) h
  | map values => exact Plain.rereads_map (hparts values) h
  | pairs values => exact Plain.rereads_pairs (hparts values) h
  | structMap layout =>
    exact Plain.rereads_struct hw.names hw.keys hs
      (fun field hm value hv => hi field value ⟨hm, hv⟩) h
  | structTuple fields => exact Plain.rereads_tuple hw.1 hs h
  | union members strategy => exact rereads_union hw hs h
  | enum members =>
    obtain ⟨name, hm, rfl⟩ := (readPlainEnum_eq_ok_iff hw).mp h
    refine ⟨given, .string name, ?_, h, by simp [Value.same], .of_eq⟩
    exact (writePlainEnum_eq_ok_iff hw.names).mpr ⟨name, rfl, hm⟩
  | custom name transform => exact hu.elim

end Node

namespace Registry.Sound

variable {registry : Registry}

theorem stable (hs : registry.Sound) (most : Nat) (slot : Slot) :
    Plain.Stable (registry.outcomeUpTo .toTyped most slot)
      (registry.outcomeUpTo .toRepresentation most slot) := by
  induction most generalizing slot with
  | zero => exact ⟨nofun, nofun, nofun⟩
  | succ most ih =>
    refine ⟨fun h => ?_, hs.eq_null_of_read, hs.admits_of_read⟩
    obtain ⟨less, node, he, hn, h⟩ := hs.wellFormed.exists_of_outcomeUpTo h
    cases he
    have hnode := Node.rereads (hs.wellFormed slot node hn) (hs.untransformed slot node hn) ih
      (fun field value => hs.same_self_of_implies hn) h
    obtain ⟨shown, again, hw, hr, hsame, hshape⟩ := hnode
    refine ⟨shown, again, ?_, ?_, hsame, hshape⟩
    · rw [hs.wellFormed.outcomeUpTo_succ hn, hw]
    · rw [hs.wellFormed.outcomeUpTo_succ hn, hr]

/-- What was read can be written and read again, with the same result. -/
theorem rereads (hs : registry.Sound) {slot : Slot} {given typed : Value}
    (h : registry.outcome .toTyped slot given = .ok typed) :
    ∃ shown again, registry.outcome .toRepresentation slot typed = .ok shown ∧
      registry.outcome .toTyped slot shown = .ok again ∧ again.same typed = true := by
  obtain ⟨most, h⟩ := hs.wellFormed.outcome_eq_ok_iff.mp h
  obtain ⟨shown, again, hw, hr, hsame, -⟩ := (hs.stable most slot).rereads h
  refine ⟨shown, again, ?_, ?_, hsame⟩
  · exact hs.wellFormed.outcome_eq_ok_iff.mpr ⟨most, hw⟩
  · exact hs.wellFormed.outcome_eq_ok_iff.mpr ⟨most, hr⟩

end Registry.Sound

end LinkedSchema
