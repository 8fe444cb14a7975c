import LinkedSchema.Proofs.RoundTrip.Rereading

namespace LinkedSchema

namespace Plain

variable {read write : Value → Outcome} {allowed : Bool} {given typed : Value}

/-- What was written can be read, and written again as it was. -/
def Rewrites (read write : Value → Outcome) (given : Value) : Prop :=
  ∃ again, read given = .ok again ∧ write again = .ok given

/-- Everything that is written can be read and written again. -/
structure Restorable (read write : Value → Outcome) : Prop where
  rewrites {typed given : Value} (h : write typed = .ok given) : Rewrites read write given
  eq_null {given : Value} (h : read given = .ok .null) : given = .null

/-- A null that is written for another value, such as the null member of a union, reads as the null
that may stand there itself. -/
theorem Restorable.nullable (hs : Restorable read write)
    (h : Plain.nullable allowed write typed = .ok given) :
    Rewrites (Plain.nullable allowed read) (Plain.nullable allowed write) given := by
  by_cases hg : allowed = true ∧ given = .null
  · obtain ⟨rfl, rfl⟩ := hg
    exact ⟨.null, rfl, rfl⟩
  · have ht : ¬(allowed = true ∧ typed = .null) := by
      intro h
      obtain ⟨rfl, rfl⟩ := h
      cases h
      exact hg ⟨rfl, rfl⟩
    rw [nullable_of_not ht] at h
    obtain ⟨again, hr, hw⟩ := hs.rewrites h
    refine ⟨again, ?_, ?_⟩
    · rw [nullable_of_not hg, hr]
    · rw [nullable_of_not, hw]
      intro h
      obtain ⟨ha, rfl⟩ := h
      exact hg ⟨ha, hs.eq_null hr⟩

/-- Every part that is written can be read and written again. -/
def RestorableParts (read write : Value → Outcome) : Prop :=
  ∀ typed given, write typed = .ok given → Rewrites read write given

theorem rewrites_list (hs : RestorableParts read write) (h : list write typed = .ok given) :
    Rewrites (list read) (list write) given := by
  obtain ⟨items, others, rfl, rfl, hf⟩ := list_eq_ok_iff.mp h
  obtain ⟨again, shown, hagain, hshown, heq⟩ : ∃ again shown,
      List.Forall₂ (fun a b => read a = .ok b) others again ∧
        List.Forall₂ (fun a b => write a = .ok b) again shown ∧ List.Forall₂ Eq shown others := by
    refine forall₂_round hf fun a b hab => ?_
    obtain ⟨again, hr, hw⟩ := hs a b hab
    exact ⟨again, b, hr, hw, rfl⟩
  rw [List.forall₂_eq_eq_eq] at heq
  subst heq
  refine ⟨.list again, ?_, ?_⟩
  · exact list_eq_ok_iff.mpr ⟨shown, again, rfl, rfl, hagain⟩
  · exact list_eq_ok_iff.mpr ⟨again, shown, rfl, rfl, hshown⟩

theorem rewrites_entries (hs : RestorableParts read write) {entries others : List (String × Value)}
    (h : List.Forall₂ (Converted write) entries others) :
    ∃ again, List.Forall₂ (Converted read) others again ∧
      List.Forall₂ (Converted write) again others := by
  obtain ⟨again, shown, hagain, hshown, heq⟩ : ∃ again shown,
      List.Forall₂ (Converted read) others again ∧ List.Forall₂ (Converted write) again shown ∧
        List.Forall₂ Eq shown others := by
    refine forall₂_round h fun a b hab => ?_
    obtain ⟨hk, hab⟩ := hab
    obtain ⟨again, hr, hw⟩ := hs a.2 b.2 hab
    exact ⟨(b.1, again), b, ⟨rfl, hr⟩, ⟨rfl, hw⟩, rfl⟩
  rw [List.forall₂_eq_eq_eq] at heq
  subst heq
  exact ⟨again, hagain, hshown⟩

theorem rewrites_map (hs : RestorableParts read write) (h : map write typed = .ok given) :
    Rewrites (map read) (map write) given := by
  obtain ⟨entries, others, rfl, rfl, hf⟩ := map_eq_ok_iff.mp h
  obtain ⟨again, hagain, hshown⟩ := rewrites_entries hs hf
  have hal := SortedMap.toList_ofList_of_keys (Converted.keys hagain)
  refine ⟨.map (SortedMap.ofList again), ?_, ?_⟩
  · exact map_eq_ok_iff.mpr ⟨others, _, rfl, rfl, by rwa [hal]⟩
  · exact map_eq_ok_iff.mpr ⟨_, others, rfl, rfl, by rwa [hal]⟩

theorem rewrites_pairs (hs : RestorableParts read write) (h : writePairs write typed = .ok given) :
    Rewrites (readPairs read) (writePairs write) given := by
  obtain ⟨entries, pairs, rfl, rfl, hf⟩ := writePairs_eq_ok_iff.mp h
  obtain ⟨again, hagain, hshown⟩ := rewrites_entries hs hf
  have hkeys := Converted.keys hf
  have hal := SortedMap.toList_ofList_of_keys (hkeys.trans (Converted.keys hagain))
  refine ⟨.map (SortedMap.ofList again), ?_, ?_⟩
  · refine readPairs_eq_ok_iff.mpr ⟨pairs, again, rfl, rfl, ?_, hagain⟩
    rw [← hkeys]
    exact entries.nodup_keys
  · exact writePairs_eq_ok_iff.mpr ⟨_, pairs, rfl, rfl, by rwa [hal]⟩

section Structs

variable {readPart writePart : PartOutcome} {fields : List Field}

/-- A value that differs from the implicit one still does after it was written and read. -/
def KeepsApart (read write : Value → Outcome) (implicit : Value) : Prop :=
  ∀ value given again, write value = .ok given → read given = .ok again →
    implicit.same again = true → implicit.same value = true

theorem rewrites_field {field : Field}
    (hs : ∀ slot, Restorable (readPart slot) (writePart slot))
    (hi : ∀ value, field.implicit = some value → value.same value = true ∧
      KeepsApart (field.type.plain readPart) (field.type.plain writePart) value)
    {typed given : Option Value} (h : field.Writes writePart typed given) :
    ∃ again, field.Reads readPart given again ∧ field.Writes writePart again given := by
  have habsent : field.isRequired = false →
      ∃ again, field.Reads readPart none again ∧ field.Writes writePart again none := by
    intro hreq
    refine ⟨field.implicit, .absent hreq rfl, ?_⟩
    cases himp : field.implicit with
    | none => exact .absent hreq
    | some implicit => exact .implied (by simp [himp, (hi implicit himp).1])
  cases h with
  | present hany h =>
    rename_i value found
    obtain ⟨again, hr, hw⟩ := (hs field.type.slot).nullable h
    refine ⟨some again, .present hr, .present ?_ hw⟩
    rw [← Bool.not_eq_true] at hany ⊢
    intro hsame
    obtain ⟨implicit, himp, hsame⟩ := (Option.any_eq_true _ _).mp hsame
    refine hany ((Option.any_eq_true _ _).mpr ⟨implicit, himp, ?_⟩)
    exact (hi implicit himp).2 value found again h hr hsame
  | implied hany =>
    obtain ⟨implicit, himp, -⟩ := (Option.any_eq_true _ _).mp hany
    exact habsent (field.not_isRequired himp)
  | absent hreq => exact habsent hreq

theorem rewrites_struct (hn : (fields.map Field.name).Nodup) (hk : (fields.map Field.key).Nodup)
    (hs : ∀ slot, Restorable (readPart slot) (writePart slot))
    (hi : ∀ field ∈ fields, ∀ value, field.implicit = some value → value.same value = true ∧
      KeepsApart (field.type.plain readPart) (field.type.plain writePart) value)
    (h : writeStruct (fields.map (Field.rule writePart)) typed = .ok given) :
    Rewrites (readStruct (fields.map (Field.rule readPart)))
      (writeStruct (fields.map (Field.rule writePart))) given := by
  obtain ⟨typed, rfl⟩ := exists_map_of_writeStruct h
  obtain ⟨given, rfl, hwrites⟩ := writeStruct_eq_ok hn hk h
  have hfield : ∀ field ∈ fields, ∃ again, field.Reads readPart (given.get? field.key) again ∧
      field.Writes writePart again (given.get? field.key) := fun field hm =>
    rewrites_field hs (hi field hm) (hwrites.fields field hm)
  obtain ⟨again, hagain, hreads⟩ := exists_readStruct readPart hn hk hwrites.keys
    fun field hm => by
      obtain ⟨again, hr, -⟩ := hfield field hm
      exact ⟨again, hr⟩
  have hfield : ∀ field ∈ fields,
      field.Writes writePart (again.get? field.name) (given.get? field.key) := by
    intro field hm
    obtain ⟨typed, hr, hw⟩ := hfield field hm
    rwa [Field.Reads.unique (hreads.fields field hm) hr]
  obtain ⟨shown, hshown, hrewrites⟩ := exists_writeStruct writePart hn hk hreads.names
    fun field hm => ⟨_, hfield field hm⟩
  have heq : shown = given := by
    refine SortedMap.ext_get? fun key => ?_
    by_cases hm : ∃ field ∈ fields, field.key = key
    · obtain ⟨field, hm, rfl⟩ := hm
      exact Field.Writes.unique (hrewrites.fields field hm) (hfield field hm)
    · rw [hrewrites.keys.get?_eq_none hm, hwrites.keys.get?_eq_none hm]
  subst heq
  exact ⟨.map again, hagain, hshown⟩

theorem rewrites_tuple (hn : (fields.map Field.name).Nodup)
    (hs : ∀ slot, Restorable (readPart slot) (writePart slot))
    (h : writeTuple (fields.map (Field.rule writePart)) typed = .ok given) :
    Rewrites (readTuple (fields.map (Field.rule readPart)))
      (writeTuple (fields.map (Field.rule writePart))) given := by
  obtain ⟨typed, items, rfl, rfl, hsize, hitems⟩ := writeTuple_eq_ok_iff.mp h
  have hback : List.Forall₂ (fun field item => ∃ again, field.type.plain readPart item = .ok again ∧
      field.type.plain writePart again = .ok item) fields items :=
    hitems.imp fun field item ⟨_, _, h⟩ => (hs field.type.slot).nullable h
  obtain ⟨again, hagain, hreads⟩ := exists_readTuple readPart hn (hback.imp
    fun field item ⟨again, hr, _⟩ => ⟨again, hr⟩)
  refine ⟨.map again, hagain, writeTuple_eq_ok_iff.mpr ⟨again, items, rfl, rfl, hreads.size, ?_⟩⟩
  refine (forall₂_and hback hreads.items).imp fun field item h => ?_
  obtain ⟨⟨value, hr, hw⟩, found, hr', hf⟩ := h
  rw [hr] at hr'
  cases hr'
  exact ⟨value, hf, hw⟩

end Structs

end Plain

namespace Node

variable {readPart writePart : PartOutcome} {given typed : Value}

/-- Writing, reading and writing again by a type, given that its parts allow it. -/
theorem rewrites {node : Node} (hw : node.WellFormed) (hu : node.Untransformed)
    (hs : ∀ slot, Plain.Restorable (readPart slot) (writePart slot))
    (hi : ∀ field value, node.Implies field value → value.same value = true ∧
      Plain.KeepsApart (field.type.plain readPart) (field.type.plain writePart) value)
    (h : node.plain .toRepresentation writePart typed = .ok given) :
    Plain.Rewrites (node.plain .toTyped readPart) (node.plain .toRepresentation writePart)
      given := by
  have hparts : ∀ type : PartType,
      Plain.RestorableParts (type.plain readPart) (type.plain writePart) :=
    fun type _ _ h => (hs type.slot).nullable h
  cases node with
  | kind member =>
    obtain ⟨ha, rfl⟩ := plain_kind_eq_ok_iff.mp h
    exact ⟨given, plain_kind_eq_ok_iff.mpr ⟨ha, rfl⟩, h⟩
  | list items => exact Plain.rewrites_list (hparts items) h
  | map values => exact Plain.rewrites_map (hparts values) h
  | pairs values => exact Plain.rewrites_pairs (hparts values) h
  | structMap layout =>
    exact Plain.rewrites_struct hw.names hw.keys hs
      (fun field hm value hv => hi field value ⟨hm, hv⟩) h
  | structTuple fields => exact Plain.rewrites_tuple hw.1 hs h
  | union members strategy =>
    obtain ⟨hn, hw⟩ := hw
    obtain ⟨place, content, member, converted, rfl, hm, hc, hwrap⟩ :=
      (writePlainUnion_eq_ok_iff hn).mp h
    obtain ⟨again, hread, hwrite⟩ := (hs member.slot).rewrites hc
    have hsel := Strategy.select?_of_wrap? hw hwrap
    refine ⟨.map (SortedMap.singleton member.name again), ?_, ?_⟩
    · exact readPlainUnion_eq_ok_iff.mpr ⟨place, converted, member, again, hsel, hm, hread, rfl⟩
    · exact (writePlainUnion_eq_ok_iff hn).mpr
        ⟨place, again, member, converted, rfl, hm, hwrite, hwrap⟩
  | enum members =>
    obtain ⟨name, rfl, hm⟩ := (writePlainEnum_eq_ok_iff hw.names).mp h
    exact ⟨.string name, (readPlainEnum_eq_ok_iff hw).mpr ⟨name, hm, rfl⟩, h⟩
  | custom name transform => exact hu.elim

end Node

namespace Registry.Sound

variable {registry : Registry} {most : Nat} {slot : Slot}
  {value given again literal implicit : Value}

/-- A value that is written and then read as something the same as the reading of a scalar was the
same as that from the beginning. -/
theorem keepsApart (hs : registry.Sound) (hl : (Kind.of literal).isScalar = true)
    (hi : registry.outcomeUpTo .toTyped most slot literal = .ok implicit) :
    Plain.KeepsApart (registry.outcomeUpTo .toTyped most slot)
      (registry.outcomeUpTo .toRepresentation most slot) implicit := by
  induction most generalizing slot literal implicit with
  | zero => cases hi
  | succ most ih =>
    intro value given again hw hr hsame
    obtain ⟨less, node, he, hn, hi⟩ := hs.readsScalar hl hi
    cases he
    have hwf := hs.wellFormed slot node hn
    rw [hs.wellFormed.outcomeUpTo_succ hn] at hw hr
    cases hi with
    | kind hk ha =>
      rwa [← (Node.plain_kind_eq_ok_iff.mp hw).2, ← (Node.plain_kind_eq_ok_iff.mp hr).2]
    | enum hm =>
      rename_i members name
      obtain ⟨other, rfl, hom⟩ := (Node.writePlainEnum_eq_ok_iff hwf.names).mp hw
      obtain ⟨found, hfm, rfl⟩ := (Node.readPlainEnum_eq_ok_iff hwf).mp hr
      rw [hwf.name_unique hom hfm]
      exact hsame
    | union hsel hm hc hk =>
      obtain ⟨hnames, hwf⟩ := hwf
      obtain ⟨place, content, member, converted, rfl, hmember, hwrite, hwrap⟩ :=
        (Node.writePlainUnion_eq_ok_iff hnames).mp hw
      obtain ⟨place', content', member', converted', hsel', hmember', hread, rfl⟩ :=
        Node.readPlainUnion_eq_ok_iff.mp hr
      rw [Strategy.select?_of_wrap? hwf hwrap] at hsel'
      cases hsel'
      rw [hmember] at hmember'
      cases hmember'
      obtain ⟨hname, hsamec⟩ := Value.same_singleton_iff.mp hsame
      have he := List.inj_on_of_nodup_map hnames (List.mem_of_getElem? hm)
        (List.mem_of_getElem? hmember) hname
      subst he
      exact Value.same_singleton_iff.mpr ⟨rfl, ih hk hc _ _ _ hwrite hread hsamec⟩

theorem keepsApart_field (hs : registry.Sound) {node : Node} {field : Field}
    (hn : registry.node? slot = some node) (hi : node.Implies field implicit) (most : Nat) :
    Plain.KeepsApart (field.type.plain (registry.outcomeUpTo .toTyped most))
      (field.type.plain (registry.outcomeUpTo .toRepresentation most)) implicit := by
  obtain ⟨literal, hl, enough, himp⟩ := hs.implicit slot node field implicit hn hi
  intro value given again hw hr hsame
  unfold PartType.plain at hw hr
  by_cases hv : field.type.nullable = true ∧ value = .null
  · obtain ⟨hnull, rfl⟩ := hv
    rw [hnull, Plain.nullable_null] at hw
    cases hw
    rw [hnull, Plain.nullable_null] at hr
    cases hr
    exact hsame
  by_cases hg : field.type.nullable = true ∧ given = .null
  · obtain ⟨hnull, rfl⟩ := hg
    rw [hnull, Plain.nullable_null] at hr
    cases hr
    have heq : implicit = .null := by
      cases implicit with
      | null => rfl
      | _ => simp [Value.same] at hsame
    rw [heq] at himp
    exact absurd (hs.eq_null_of_read himp) hl.ne_null
  rw [Plain.nullable_of_not hv] at hw
  rw [Plain.nullable_of_not hg] at hr
  -- The implicit value was read in another number of steps; the greater number serves both.
  have hle := Nat.le_max_left most enough
  have hge := Nat.le_max_right most enough
  exact hs.keepsApart hl.scalar ((hs.wellFormed.outcomeUpTo_le hge _ _).eq_ok himp) value given
    again
    ((hs.wellFormed.outcomeUpTo_le hle _ _).eq_ok hw)
    ((hs.wellFormed.outcomeUpTo_le hle _ _).eq_ok hr) hsame

theorem restorable (hs : registry.Sound) (most : Nat) (slot : Slot) :
    Plain.Restorable (registry.outcomeUpTo .toTyped most slot)
      (registry.outcomeUpTo .toRepresentation most slot) := by
  induction most generalizing slot with
  | zero => exact ⟨nofun, nofun⟩
  | succ most ih =>
    refine ⟨fun h => ?_, hs.eq_null_of_read⟩
    obtain ⟨less, node, he, hn, h⟩ := hs.wellFormed.exists_of_outcomeUpTo h
    cases he
    obtain ⟨again, hr, hw⟩ := Node.rewrites (hs.wellFormed slot node hn)
      (hs.untransformed slot node hn) ih (fun field value hi =>
        ⟨hs.same_self_of_implies hn hi, hs.keepsApart_field hn hi most⟩) h
    refine ⟨again, ?_, ?_⟩
    · rw [hs.wellFormed.outcomeUpTo_succ hn, hr]
    · rw [hs.wellFormed.outcomeUpTo_succ hn, hw]

/-- What was written can be read, and written again as it was. -/
theorem rewrites (hs : registry.Sound) {typed : Value}
    (h : registry.outcome .toRepresentation slot typed = .ok given) :
    ∃ again, registry.outcome .toTyped slot given = .ok again ∧
      registry.outcome .toRepresentation slot again = .ok given := by
  obtain ⟨most, h⟩ := hs.wellFormed.outcome_eq_ok_iff.mp h
  obtain ⟨again, hr, hw⟩ := (hs.restorable most slot).rewrites h
  refine ⟨again, ?_, ?_⟩
  · exact hs.wellFormed.outcome_eq_ok_iff.mpr ⟨most, hr⟩
  · exact hs.wellFormed.outcome_eq_ok_iff.mpr ⟨most, hw⟩

end Registry.Sound

end LinkedSchema
