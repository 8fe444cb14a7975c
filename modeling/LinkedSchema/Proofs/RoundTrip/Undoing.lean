import LinkedSchema.Proofs.RoundTrip.Rereading

namespace LinkedSchema

namespace Plain

variable {back forth : Value → Outcome} {allowed : Bool}

/-- What the second conversion made, the first one takes back. -/
def Undoes (back forth : Value → Outcome) : Prop :=
  ∀ a b, forth a = .ok b → back b = .ok a

theorem Undoes.nullable (h : Undoes back forth)
    (hn : allowed = true → ∀ a, forth a = .ok .null → a = .null) :
    Undoes (nullable allowed back) (nullable allowed forth) := by
  intro a b hab
  by_cases ha : allowed = true ∧ a = .null
  · obtain ⟨rfl, rfl⟩ := ha
    cases hab
    rfl
  · rw [nullable_of_not ha] at hab
    rw [nullable_of_not]
    · exact h a b hab
    · intro hb
      obtain ⟨hallowed, rfl⟩ := hb
      exact ha ⟨hallowed, hn hallowed a hab⟩

theorem Undoes.list (h : Undoes back forth) : Undoes (list back) (list forth) := by
  intro a b hab
  obtain ⟨items, others, rfl, rfl, hf⟩ := list_eq_ok_iff.mp hab
  exact list_eq_ok_iff.mpr ⟨others, items, rfl, rfl, (hf.imp h).flip⟩

theorem Undoes.entries (h : Undoes back forth) {entries others : List (String × Value)}
    (hf : List.Forall₂ (Converted forth) entries others) :
    List.Forall₂ (Converted back) others entries := by
  refine (hf.imp fun a b hab => ?_).flip
  obtain ⟨hk, hab⟩ := hab
  exact ⟨hk.symm, h a.2 b.2 hab⟩

theorem Undoes.map (h : Undoes back forth) : Undoes (map back) (map forth) := by
  intro a b hab
  obtain ⟨entries, others, rfl, rfl, hf⟩ := map_eq_ok_iff.mp hab
  exact map_eq_ok_iff.mpr ⟨others, entries, rfl, rfl, h.entries hf⟩

/-- The pairs come in the order of the keys, from which the map is restored. -/
theorem Undoes.readPairs (h : Undoes back forth) : Undoes (readPairs back) (writePairs forth) := by
  intro a b hab
  obtain ⟨entries, pairs, rfl, rfl, hf⟩ := writePairs_eq_ok_iff.mp hab
  refine readPairs_eq_ok_iff.mpr ⟨pairs, entries.toList, rfl, ?_, ?_, h.entries hf⟩
  · rw [SortedMap.ofList_toList]
  · rw [← Converted.keys hf]
    exact entries.nodup_keys

section Structs

variable {readPart writePart : PartOutcome} {fields : List Field} {field : Field}

theorem Within.ext {name : Field → String} {entries others : SortedMap Value none}
    (he : Within name fields entries) (ho : Within name fields others)
    (h : ∀ field ∈ fields, entries.get? (name field) = others.get? (name field)) :
    entries = others := by
  refine SortedMap.ext_get? fun key => ?_
  by_cases hk : ∃ field ∈ fields, name field = key
  · obtain ⟨field, hm, rfl⟩ := hk
    exact h field hm
  · rw [he.get?_eq_none hk, ho.get?_eq_none hk]

theorem Undoes.writes (h : Undoes (field.type.plain writePart) (field.type.plain readPart))
    (hi : field.implicit = none) {given typed : Option Value}
    (hr : field.Reads readPart given typed) : field.Writes writePart typed given := by
  cases hr with
  | present hr => exact .present (by simp [hi]) (h _ _ hr)
  | absent hreq ht =>
    rw [ht, hi]
    exact .absent hreq

theorem Undoes.reads (h : Undoes (field.type.plain readPart) (field.type.plain writePart))
    (hi : field.implicit = none) {typed given : Option Value}
    (hw : field.Writes writePart typed given) : field.Reads readPart given typed := by
  cases hw with
  | present _ hw => exact .present (h _ _ hw)
  | implied himp => simp [hi] at himp
  | absent hreq => exact .absent hreq hi.symm

theorem Undoes.writeStruct (hn : (fields.map Field.name).Nodup)
    (hk : (fields.map Field.key).Nodup) (hi : ∀ field ∈ fields, field.implicit = none)
    (h : ∀ field ∈ fields, Undoes (field.type.plain writePart) (field.type.plain readPart)) :
    Undoes (writeStruct (fields.map (Field.rule writePart)))
      (readStruct (fields.map (Field.rule readPart))) := by
  intro a b hab
  obtain ⟨given, rfl⟩ := exists_map_of_readStruct hab
  obtain ⟨typed, rfl, hreads⟩ := readStruct_eq_ok hn hk hab
  have hfield : ∀ field ∈ fields,
      field.Writes writePart (typed.get? field.name) (given.get? field.key) := fun field hm =>
    (h field hm).writes (hi field hm) (hreads.fields field hm)
  obtain ⟨shown, hshown, hwrites⟩ := exists_writeStruct writePart hn hk hreads.names
    fun field hm => ⟨_, hfield field hm⟩
  rw [hshown, hwrites.keys.ext hreads.keys fun field hm =>
    Field.Writes.unique (hwrites.fields field hm) (hfield field hm)]

theorem Undoes.readStruct (hn : (fields.map Field.name).Nodup)
    (hk : (fields.map Field.key).Nodup) (hi : ∀ field ∈ fields, field.implicit = none)
    (h : ∀ field ∈ fields, Undoes (field.type.plain readPart) (field.type.plain writePart)) :
    Undoes (readStruct (fields.map (Field.rule readPart)))
      (Plain.writeStruct (fields.map (Field.rule writePart))) := by
  intro a b hab
  obtain ⟨typed, rfl⟩ := exists_map_of_writeStruct hab
  obtain ⟨given, rfl, hwrites⟩ := writeStruct_eq_ok hn hk hab
  have hfield : ∀ field ∈ fields,
      field.Reads readPart (given.get? field.key) (typed.get? field.name) := fun field hm =>
    (h field hm).reads (hi field hm) (hwrites.fields field hm)
  obtain ⟨again, hagain, hreads⟩ := exists_readStruct readPart hn hk hwrites.keys
    fun field hm => ⟨_, hfield field hm⟩
  rw [hagain, hreads.names.ext hwrites.names fun field hm =>
    Field.Reads.unique (hreads.fields field hm) (hfield field hm)]

theorem Undoes.writeTuple (hn : (fields.map Field.name).Nodup)
    (h : ∀ field ∈ fields, Undoes (field.type.plain writePart) (field.type.plain readPart)) :
    Undoes (writeTuple (fields.map (Field.rule writePart)))
      (readTuple (fields.map (Field.rule readPart))) := by
  intro a b hab
  obtain ⟨items, typed, rfl, rfl, hreads⟩ := readTuple_eq_ok hn hab
  refine writeTuple_eq_ok_iff.mpr ⟨typed, items, rfl, rfl, hreads.size, ?_⟩
  refine forall₂_imp_of_mem hreads.items fun field hm item hv => ?_
  obtain ⟨value, hr, ht⟩ := hv
  exact ⟨value, ht, h field hm item value hr⟩

/-- A map that has an entry for each of the fields and no more has an entry only for them. -/
theorem within_of_size {entries : SortedMap Value none} (hn : (fields.map Field.name).Nodup)
    (hs : entries.size = fields.length)
    (h : ∀ field ∈ fields, entries.contains field.name = true) :
    Within Field.name fields entries := by
  have hsub : fields.map Field.name ⊆ entries.toList.map Prod.fst := by
    intro name hm
    obtain ⟨field, hf, rfl⟩ := List.mem_map.mp hm
    exact SortedMap.contains_iff.mp (h field hf)
  have hle : (entries.toList.map Prod.fst).length ≤ (fields.map Field.name).length := by
    rw [List.length_map, List.length_map]
    exact Nat.le_of_eq hs
  have hperm := (List.subperm_of_subset hn hsub).perm_of_length_le hle
  intro key hc
  exact List.mem_map.mp (hperm.mem_iff.mpr (SortedMap.contains_iff.mp hc))

theorem Undoes.readTuple (hn : (fields.map Field.name).Nodup)
    (h : ∀ field ∈ fields, Undoes (field.type.plain readPart) (field.type.plain writePart)) :
    Undoes (readTuple (fields.map (Field.rule readPart)))
      (Plain.writeTuple (fields.map (Field.rule writePart))) := by
  intro a b hab
  obtain ⟨typed, items, rfl, rfl, hsize, hitems⟩ := writeTuple_eq_ok_iff.mp hab
  have hback : List.Forall₂ (fun field item => ∃ value, typed.get? field.name = some value ∧
      field.type.plain readPart item = .ok value) fields items := by
    refine forall₂_imp_of_mem hitems fun field hm item hv => ?_
    obtain ⟨value, ht, hw⟩ := hv
    exact ⟨value, ht, h field hm value item hw⟩
  obtain ⟨again, hagain, hreads⟩ := exists_readTuple readPart hn
    (hback.imp fun field item ⟨value, _, hr⟩ => ⟨value, hr⟩)
  have hnames : Within Field.name fields typed := by
    refine within_of_size hn hsize fun field hm => ?_
    obtain ⟨item, value, ht, -⟩ := exists_of_forall₂ hitems field hm
    simp [SortedMap.contains, ht]
  rw [hagain, hreads.names.ext hnames fun field hm => ?_]
  obtain ⟨item, ⟨value, ht, hr⟩, found, hr', hf⟩ :=
    exists_of_forall₂ (forall₂_and hback hreads.items) field hm
  rw [hr] at hr'
  cases hr'
  rw [ht, hf]

end Structs

end Plain

namespace Node

variable {readPart writePart : PartOutcome} {node : Node}

/-- The fields of a struct. -/
def fields : Node → List Field
  | structMap layout => layout.fields.values
  | structTuple fields => fields
  | _ => []

/-- The types of the items of a list, the values of a map or the fields of a struct. -/
def parts : Node → List PartType
  | list items => [items]
  | map values => [values]
  | pairs values => [values]
  | node => node.fields.map Field.type

theorem undoes_write (hw : node.WellFormed) (hu : node.Untransformed)
    (hi : ∀ field ∈ node.fields, field.implicit = none) (hp : ∀ values, node ≠ pairs values)
    (h : ∀ slot, Plain.Undoes (writePart slot) (readPart slot))
    (hn : ∀ slot given, readPart slot given = .ok .null → given = .null) :
    Plain.Undoes (node.plain .toRepresentation writePart) (node.plain .toTyped readPart) := by
  have hparts : ∀ type : PartType, Plain.Undoes (type.plain writePart) (type.plain readPart) :=
    fun type => (h type.slot).nullable fun _ => hn type.slot
  cases node with
  | kind member =>
    intro given typed hr
    obtain ⟨ha, rfl⟩ := plain_kind_eq_ok_iff.mp hr
    exact plain_kind_eq_ok_iff.mpr ⟨ha, rfl⟩
  | list items => exact (hparts items).list
  | map values => exact (hparts values).map
  | pairs values => exact absurd rfl (hp values)
  | structMap layout =>
    exact .writeStruct hw.names hw.keys hi fun field _ => hparts field.type
  | structTuple fields => exact .writeTuple hw.1 fun field _ => hparts field.type
  | union members strategy =>
    intro given typed hr
    obtain ⟨place, content, member, converted, hs, hm, hc, rfl⟩ := readPlainUnion_eq_ok_iff.mp hr
    exact (writePlainUnion_eq_ok_iff hw.1).mpr ⟨place, converted, member, content, rfl, hm,
      h member.slot content converted hc, Strategy.wrap?_of_select? hw.2 hs⟩
  | enum members =>
    intro given typed hr
    obtain ⟨name, hm, rfl⟩ := (readPlainEnum_eq_ok_iff hw).mp hr
    exact (writePlainEnum_eq_ok_iff hw.names).mpr ⟨name, rfl, hm⟩
  | custom name transform => exact hu.elim

theorem undoes_read (hw : node.WellFormed) (hu : node.Untransformed)
    (hi : ∀ field ∈ node.fields, field.implicit = none)
    (h : ∀ slot, Plain.Undoes (readPart slot) (writePart slot))
    (hn : ∀ type ∈ node.parts, type.nullable = true →
      ∀ typed, writePart type.slot typed ≠ .ok .null) :
    Plain.Undoes (node.plain .toTyped readPart) (node.plain .toRepresentation writePart) := by
  have hparts : ∀ type ∈ node.parts,
      Plain.Undoes (type.plain readPart) (type.plain writePart) := fun type hm =>
    (h type.slot).nullable fun hnull typed hw => absurd hw (hn type hm hnull typed)
  cases node with
  | kind member =>
    intro typed given hr
    obtain ⟨ha, rfl⟩ := plain_kind_eq_ok_iff.mp hr
    exact plain_kind_eq_ok_iff.mpr ⟨ha, rfl⟩
  | list items => exact (hparts items (List.mem_singleton_self items)).list
  | map values => exact (hparts values (List.mem_singleton_self values)).map
  | pairs values => exact (hparts values (List.mem_singleton_self values)).readPairs
  | structMap layout =>
    exact .readStruct hw.names hw.keys hi fun field hm =>
      hparts field.type (List.mem_map_of_mem hm)
  | structTuple fields =>
    exact .readTuple hw.1 fun field hm => hparts field.type (List.mem_map_of_mem hm)
  | union members strategy =>
    intro typed given hr
    obtain ⟨place, content, member, converted, rfl, hm, hc, hwrap⟩ :=
      (writePlainUnion_eq_ok_iff hw.1).mp hr
    exact readPlainUnion_eq_ok_iff.mpr ⟨place, converted, member, content,
      Strategy.select?_of_wrap? hw.2 hwrap, hm, h member.slot content converted hc, rfl⟩
  | enum members =>
    intro typed given hr
    obtain ⟨name, rfl, hm⟩ := (writePlainEnum_eq_ok_iff hw.names).mp hr
    exact (readPlainEnum_eq_ok_iff hw).mpr ⟨name, hm, rfl⟩
  | custom name transform => exact hu.elim

end Node

namespace Registry

/-- No map is represented as a list of pairs. -/
def Unpaired (registry : Registry) : Prop :=
  ∀ slot values, registry.node? slot ≠ some (.pairs values)

/-- No field of a struct is known from its absence. -/
def Explicit (registry : Registry) : Prop :=
  ∀ slot node, registry.node? slot = some node → ∀ field ∈ node.fields, field.implicit = none

/-- Nothing is written as null by a type in whose place null may stand. -/
def NullApart (registry : Registry) : Prop :=
  ∀ slot node, registry.node? slot = some node → ∀ type ∈ node.parts, type.nullable = true →
    ∀ typed, registry.outcome .toRepresentation type.slot typed ≠ .ok .null

variable {registry : Registry} {slot : Slot} {given typed : Value}

namespace Sound

theorem undoes_write (hs : registry.Sound) (he : registry.Explicit) (hp : registry.Unpaired)
    (most : Nat) (slot : Slot) :
    Plain.Undoes (registry.outcomeUpTo .toRepresentation most slot)
      (registry.outcomeUpTo .toTyped most slot) := by
  induction most generalizing slot with
  | zero => exact nofun
  | succ most ih =>
    intro given typed h
    obtain ⟨less, node, hless, hn, h⟩ := hs.wellFormed.exists_of_outcomeUpTo h
    cases hless
    rw [hs.wellFormed.outcomeUpTo_succ hn]
    refine Node.undoes_write (hs.wellFormed slot node hn) (hs.untransformed slot node hn)
      (he slot node hn) ?_ ih (fun _ _ => hs.eq_null_of_read) given typed h
    intro values heq
    exact hp slot values (heq ▸ hn)

theorem undoes_read (hs : registry.Sound) (he : registry.Explicit) (ha : registry.NullApart)
    (most : Nat) (slot : Slot) :
    Plain.Undoes (registry.outcomeUpTo .toTyped most slot)
      (registry.outcomeUpTo .toRepresentation most slot) := by
  induction most generalizing slot with
  | zero => exact nofun
  | succ most ih =>
    intro typed given h
    obtain ⟨less, node, hless, hn, h⟩ := hs.wellFormed.exists_of_outcomeUpTo h
    cases hless
    rw [hs.wellFormed.outcomeUpTo_succ hn]
    refine Node.undoes_read (hs.wellFormed slot node hn) (hs.untransformed slot node hn)
      (he slot node hn) ih ?_ typed given h
    intro type hm hnull value hw
    exact ha slot node hn type hm hnull value (hs.wellFormed.outcome_eq_ok_iff.mpr ⟨_, hw⟩)

theorem written_of_read (hs : registry.Sound) (he : registry.Explicit) (hp : registry.Unpaired)
    (h : registry.outcome .toTyped slot given = .ok typed) :
    registry.outcome .toRepresentation slot typed = .ok given := by
  obtain ⟨most, h⟩ := hs.wellFormed.outcome_eq_ok_iff.mp h
  exact hs.wellFormed.outcome_eq_ok_iff.mpr ⟨most, hs.undoes_write he hp most slot given typed h⟩

theorem read_of_written (hs : registry.Sound) (he : registry.Explicit) (ha : registry.NullApart)
    (h : registry.outcome .toRepresentation slot typed = .ok given) :
    registry.outcome .toTyped slot given = .ok typed := by
  obtain ⟨most, h⟩ := hs.wellFormed.outcome_eq_ok_iff.mp h
  exact hs.wellFormed.outcome_eq_ok_iff.mpr ⟨most, hs.undoes_read he ha most slot typed given h⟩

end Sound

end Registry

end LinkedSchema
