import LinkedSchema.Proofs.Meaning.Definitions
import LinkedSchema.Proofs.RoundTrip.Entries
import LinkedSchema.Proofs.RoundTrip.Fields
import LinkedSchema.Proofs.RoundTrip.Members
import LinkedSchema.Proofs.RoundTrip.Schema

namespace LinkedSchema

/-- The kind of the values of a scalar type. -/
def TypeDefn.scalarKind? : TypeDefn → Option Kind
  | null => some .null
  | bool => some .bool
  | string => some .string
  | bytes => some .bytes
  | int => some .int
  | float => some .float
  | link _ => some .link
  | _ => none

/-- The table from what selects a member to the name of the member. -/
def UnionRepresentation.table : UnionRepresentation → Table String
  | kinded table => table
  | keyed table => table
  | envelope _ _ table => table
  | inlined _ table => table
  | stringPrefix table => table
  | bytesPrefix table => table

mutual

/-- The value has the typed form of the type that a reference stands for. -/
inductive Inhabits (defines : String → TypeDefn → Prop) : TypeTerm → Value → Prop where
  | named {name : String} {defn : TypeDefn} {value : Value} (hd : defines name defn)
      (h : HasForm defines defn value) : Inhabits defines (.named name) value
  | inline {term : TypeTerm} {defn : TypeDefn} {value : Value} (hi : term.inline? = some defn)
      (h : HasForm defines defn value) : Inhabits defines term value

/-- So has the value of a part, or it is null where null may stand in its place. -/
inductive Fills (defines : String → TypeDefn → Prop) : Bool → TypeTerm → Value → Prop where
  | null {term : TypeTerm} : Fills defines true term .null
  | value {nullable : Bool} {term : TypeTerm} {value : Value} (h : Inhabits defines term value) :
      Fills defines nullable term value

/-- The value has the typed form that a definition describes. -/
inductive HasForm (defines : String → TypeDefn → Prop) : TypeDefn → Value → Prop where
  | scalar {defn : TypeDefn} {kind : Kind} {value : Value} (hk : defn.scalarKind? = some kind)
      (ha : kind.admits value = true) : HasForm defines defn value
  | list {defn : ListDefn TypeTerm} {items : List Value}
      (h : ∀ item ∈ items, Fills defines defn.valueNullable defn.valueType item) :
      HasForm defines (.list defn) (.list items)
  | map {defn : MapDefn TypeTerm} {entries : SortedMap Value none}
      (h : ∀ key value, entries.get? key = some value →
        Fills defines defn.valueNullable defn.valueType value) :
      HasForm defines (.map defn) (.map entries)
  /-- The keys are names of fields. Fields that must be given are there, and so are those whose
  values are known from their absence. -/
  | struct {defn : StructDefn} {entries : SortedMap Value none}
      (hk : ∀ name, entries.contains name = true → defn.fields.contains name = true)
      (hp : ∀ name field, defn.fields.get? name = some field →
        field.isOptional = false ∨ (defn.implicit? name).isSome = true →
          entries.contains name = true)
      (hv : ∀ name field value, defn.fields.get? name = some field →
        entries.get? name = some value → Fills defines field.nullable field.type value) :
      HasForm defines (.struct defn) (.map entries)
  | union {defn : UnionDefn} {member : String} {content : Value} (hm : member ∈ defn.members)
      (ht : member ∈ defn.representation.table.values)
      (h : Inhabits defines (.named member) content) :
      HasForm defines (.union defn) (.map (SortedMap.singleton member content))
  | enum {defn : EnumDefn} {member : String} (hm : member ∈ defn.members) :
      HasForm defines (.enum defn) (.string member)
  | copy {fromType : String} {value : Value} (h : Inhabits defines (.named fromType) value) :
      HasForm defines (.copy fromType) value

end

/-- A member that is selected stands in the table. -/
theorem UnionRepresentation.mem_values_of_select? {representation : UnionRepresentation}
    {value content : Value} {member : String}
    (h : representation.select? value = some (member, content)) :
    member ∈ representation.table.values := by
  have hget : ∀ {table : Table String} {key : String} {shown : Value},
      (table.get? key).map (·, shown) = some (member, content) → member ∈ table.values := by
    intro table key shown h
    obtain ⟨_, hg, he⟩ := Option.map_eq_some_iff.mp h
    cases he
    exact List.mem_map_of_mem (f := Prod.snd) (Table.get?_eq_some_iff.mp hg)
  have hprefix : ∀ {table : Table String} {select : String × String → Option (String × Value)},
      (∀ entry named, select entry = some named → named.1 = entry.2) →
        table.entries.findSome? select = some (member, content) → member ∈ table.values := by
    intro table select hs h
    obtain ⟨entry, hm, he⟩ := List.exists_of_findSome?_eq_some h
    have hname : member = entry.2 := hs entry _ he
    rw [hname]
    exact List.mem_map_of_mem hm
  unfold select? at h
  split at h
  · split at h
    · exact hget h
    · cases h
  · split at h
    · exact hget h
    · cases h
  · split at h
    · split at h
      · exact hget h
      · cases h
    · cases h
  · split at h
    · exact hget h
    · cases h
  · refine hprefix (fun entry named he => ?_) h
    obtain ⟨_, _, rfl⟩ := Option.map_eq_some_iff.mp he
    rfl
  · refine hprefix (fun entry named he => ?_) h
    split at he
    · obtain ⟨_, _, rfl⟩ := Option.map_eq_some_iff.mp he
      rfl
    · cases he
  · cases h

section Built

variable {defines : String → TypeDefn → Prop} {slotOf : String → Option Slot} {typed : Reading}
  {owner : String} {part : PartOutcome} {defn : TypeDefn} {value result : Value}

/-- What is read by the type in a slot has the typed form of what a reference stands for. -/
def ReadsTerm (defines : String → TypeDefn → Prop) (reads : Reading) (slot : Slot)
    (term : TypeTerm) : Prop :=
  ∀ value result, reads slot value result → Inhabits defines term result

/-- What is read for the parts of a definition has their typed form. -/
def ReadsParts (defines : String → TypeDefn → Prop) (slotOf : String → Option Slot)
    (owner : String) (reads : Reading) (defn : TypeDefn) : Prop :=
  ∀ part ∈ defn.parts, ∀ slot, slotOf (part.2.nameIn owner part.1) = some slot →
    ReadsTerm defines reads slot part.2

/-- What the parts give. -/
def Reading.ofParts (part : PartOutcome) : Reading :=
  fun slot value result => part slot value = .ok result

/-- A reading of scalars that a schema can give for absent fields. -/
def Reading.ofLiterals (typed : Reading) : Reading :=
  fun slot literal result => literal.IsLiteral ∧ typed slot literal result

theorem Built.hasForm_kind {kind : Kind} (hb : Built slotOf typed owner defn (.kind kind))
    (ha : kind.admits value = true) : HasForm defines defn value := by
  cases hb with
  | enum h =>
    obtain ⟨_, _, _, hn⟩ := EnumDefn.compile_eq_ok_iff.mp h
    cases hn
  | _ => exact .scalar rfl ha

theorem Built.hasForm_enum {members : List (String × Value)} {name : String}
    (hb : Built slotOf typed owner defn (.enum members)) (hm : (name, value) ∈ members) :
    HasForm defines defn (.string name) := by
  cases hb with
  | enum h =>
    obtain ⟨_, hv, _, hn⟩ := EnumDefn.compile_eq_ok_iff.mp h
    cases hn
    refine .enum ?_
    rw [← (EnumDefn.values_eq_ok hv).2.1]
    exact List.mem_map_of_mem hm

/-- A union is read as a member of its table, which is registered under its own name. -/
theorem Built.hasForm_union {reads : Reading} {members : List Member} {strategy : Strategy}
    {place : Nat} {content converted : Value} {member : Member}
    (hb : Built slotOf typed owner defn (.union members strategy))
    (hreads : ReadsParts defines slotOf owner reads defn)
    (hs : strategy.select? value = some (place, content)) (hm : members[place]? = some member)
    (h : reads member.slot content converted) :
    HasForm defines defn (.map (SortedMap.singleton member.name converted)) := by
  cases hb with
  | union hstrategy hn hmembers =>
    rename_i defn
    have hagrees := UnionDefn.select?_agrees (UnionDefn.builtStrategy_of_eq_ok hstrategy) value
    rw [hs] at hagrees
    generalize hselect : UnionRepresentation.select? _ value = named at hagrees
    cases hagrees with
    | some hshows =>
      obtain ⟨hplace, hcontent⟩ := hshows
      obtain ⟨found, hget, hname, hslot⟩ := UnionDefn.exists_member_of_places hmembers hplace
      rw [hm] at hget
      cases hget
      have hmem := UnionDefn.mem_of_places hplace
      rw [hname]
      exact .union hmem (UnionRepresentation.mem_values_of_select? hselect)
        (hreads ("member", .named _) (List.mem_map_of_mem hmem) _ hslot _ _ h)
  | enum h =>
    obtain ⟨_, _, _, hn⟩ := EnumDefn.compile_eq_ok_iff.mp h
    cases hn

theorem PartType.fills {type : PartType} {term : TypeTerm}
    (h : ReadsTerm defines (.ofParts part) type.slot term)
    (hr : type.plain part value = .ok result) : Fills defines type.nullable term result := by
  by_cases hnull : type.nullable = true ∧ value = .null
  · obtain ⟨hn, rfl⟩ := hnull
    rw [PartType.plain, hn, Plain.nullable_null] at hr
    cases hr
    rw [hn]
    exact .null
  · rw [PartType.plain, Plain.nullable_of_not hnull] at hr
    exact .value (h value result hr)

theorem BuiltField.fills {details : FieldDetails} {entry : String × StructField} {field : Field}
    (hb : BuiltField slotOf typed owner details entry field)
    (h : ReadsTerm defines (.ofParts part) field.type.slot entry.2.type)
    (hr : field.type.plain part value = .ok result) :
    Fills defines entry.2.nullable entry.2.type result := by
  rw [← hb.nullable]
  exact PartType.fills h hr

namespace Plain

variable {type : PartType} {term : TypeTerm}

/-- Items that are read one by one. -/
theorem fills_of_list {items done : List Value}
    (h : ReadsTerm defines (.ofParts part) type.slot term)
    (hd : List.Forall₂ (fun a b => type.plain part a = .ok b) items done) :
    ∀ item ∈ done, Fills defines type.nullable term item := by
  intro item hm
  obtain ⟨_, hread⟩ := exists_of_forall₂ hd.flip item hm
  exact PartType.fills h hread

/-- Entries that are read one by one. -/
theorem fills_of_entries {pairs done : List (String × Value)}
    (h : ReadsTerm defines (.ofParts part) type.slot term)
    (hd : List.Forall₂ (Converted (type.plain part)) pairs done) :
    ∀ entry ∈ done, Fills defines type.nullable term entry.2 := by
  intro entry hm
  obtain ⟨_, _, hread⟩ := exists_of_forall₂ hd.flip entry hm
  exact PartType.fills h hread

end Plain

/-- What a struct in typed form has for one of its fields. -/
structure StructDefn.Holds (defn : StructDefn) (defines : String → TypeDefn → Prop)
    (entries : SortedMap Value none) (name : String) (field : StructField) : Prop where
  present : field.isOptional = false ∨ (defn.implicit? name).isSome = true →
    entries.contains name = true
  fills : ∀ value, entries.get? name = some value → Fills defines field.nullable field.type value

/-- What is read for a field is what the struct must hold for it. -/
theorem BuiltField.holds {defn : StructDefn} {details : FieldDetails}
    {entry : String × StructField} {field : Field} {given : Option Value}
    {entries : SortedMap Value none} (hb : BuiltField slotOf typed owner details entry field)
    (hd : defn.implicit? entry.1 = details.implicit)
    (hreads : ReadsTerm defines (.ofParts part) field.type.slot entry.2.type)
    (hliterals : ReadsTerm defines (.ofLiterals typed) field.type.slot entry.2.type)
    (h : field.Reads part given (entries.get? field.name)) :
    defn.Holds defines entries entry.1 entry.2 := by
  rw [hb.name] at h
  generalize hget : entries.get? entry.1 = found at h
  cases h with
  | present hv =>
    refine ⟨fun _ => by simp [SortedMap.contains, hget], fun value hvalue => ?_⟩
    rw [hget] at hvalue
    cases hvalue
    exact hb.fills hreads hv
  | absent hr ht =>
    cases found with
    | none =>
      have hnone : defn.implicit? entry.1 = none := hd.trans (hb.implicit_eq_none_iff.mp ht.symm)
      have hoptional : entry.2.isOptional = true := by
        simpa [Field.isRequired, ← ht, hb.isOptional] using hr
      refine ⟨fun hmust => ?_, fun value hvalue => by simp [hget] at hvalue⟩
      simp [hnone, hoptional] at hmust
    | some result =>
      refine ⟨fun _ => by simp [SortedMap.contains, hget], fun value hvalue => ?_⟩
      rw [hget] at hvalue
      cases hvalue
      obtain ⟨_, _, -, hs, hl⟩ := hb.exists_json ht.symm
      exact .value (hliterals _ _ ⟨isLiteral_of_scalar? hs, hl⟩)

/-- A map of the names of compiled fields is a struct in typed form, if it holds what it must. -/
theorem StructDefn.hasForm {defn : StructDefn} {fields : List Field}
    {entries : SortedMap Value none} (hw : Plain.Within Field.name fields entries)
    (hc : ∀ name ∈ defn.fields.keys, ∃ field ∈ fields, field.name = name)
    (hh : ∀ field ∈ fields, ∃ entry, defn.fields.get? field.name = some entry ∧
      defn.Holds defines entries field.name entry) :
    HasForm defines (.struct defn) (.map entries) := by
  have hholds : ∀ name entry, defn.fields.get? name = some entry →
      defn.Holds defines entries name entry := by
    intro name entry hg
    have hm : name ∈ defn.fields.keys := List.mem_map_of_mem (Table.get?_eq_some_iff.mp hg)
    obtain ⟨field, hf, rfl⟩ := hc name hm
    obtain ⟨other, ho, hh⟩ := hh field hf
    rw [hg] at ho
    cases ho
    exact hh
  refine .struct (fun name hm => ?_) (fun name field hg => (hholds name field hg).present)
    fun name field value hg => (hholds name field hg).fills value
  obtain ⟨field, hf, rfl⟩ := hw name hm
  obtain ⟨entry, hg, -⟩ := hh field hf
  exact Table.contains_iff.mpr (List.mem_map_of_mem (Table.get?_eq_some_iff.mp hg))

/-- What is read by a compiled definition has its typed form, if what is read for its parts and
what its implicit values are read as have theirs. -/
theorem Built.hasForm {node : Node} (hb : Built slotOf typed owner defn node)
    (hreads : ReadsParts defines slotOf owner (.ofParts part) defn)
    (hliterals : ReadsParts defines slotOf owner (.ofLiterals typed) defn)
    (h : node.plain .toTyped part value = .ok result) : HasForm defines defn result := by
  have hbuilt := hb
  have hw := hb.wellFormed
  cases hb with
  | map hk hr hs =>
    obtain ⟨entries, done, rfl, rfl, hd⟩ := Plain.map_eq_ok_iff.mp h
    have hfills := Plain.fills_of_entries (hreads _ (List.mem_singleton_self _) _ hs) hd
    exact .map fun key value hg => hfills _ (SortedMap.get?_eq_some_iff.mp hg)
  | pairs hk hr hs =>
    obtain ⟨pairs, done, rfl, rfl, hn, hd⟩ := Plain.readPairs_eq_ok_iff.mp h
    rw [Plain.Converted.keys hd] at hn
    have hfills := Plain.fills_of_entries (hreads _ (List.mem_singleton_self _) _ hs) hd
    exact .map fun key value hg => hfills _ ((SortedMap.get?_ofList hn).mp hg)
  | list hr hs =>
    obtain ⟨items, done, rfl, rfl, hd⟩ := Plain.list_eq_ok_iff.mp h
    exact .list (Plain.fills_of_list (hreads _ (List.mem_singleton_self _) _ hs) hd)
  | structMap hr hd hf hk =>
    rename_i defn details fields
    have hnames := BuiltField.names hf
    obtain ⟨given, rfl⟩ := Plain.exists_map_of_readStruct h
    rw [Node.plain, StructMap.values_ofFields (hnames ▸ Table.nodup _)] at h
    obtain ⟨entries, rfl, hread⟩ := Plain.readStruct_eq_ok (hnames ▸ Table.nodup _) hk h
    refine StructDefn.hasForm hread.names (fun name hm => ?_) fun field hm => ?_
    · rw [Table.keys, ← hnames] at hm
      exact List.mem_map.mp hm
    · obtain ⟨entry, he, hb⟩ := exists_mem_of_forall₂ hf.flip field hm
      have hpart : (entry.1, entry.2.type) ∈ (TypeDefn.struct defn).parts :=
        List.mem_map_of_mem he
      rw [hb.name]
      refine ⟨entry.2, Table.get?_eq_some_iff.mpr he, hb.holds ?_ (hreads _ hpart _ hb.slot)
        (hliterals _ hpart _ hb.slot) (hread.fields field hm)⟩
      rw [StructDefn.implicit?, hr]
  | structTuple hr ho hn hf =>
    rename_i defn order names fields
    obtain ⟨items, entries, rfl, rfl, hread⟩ := Plain.readTuple_eq_ok hw.1 h
    refine StructDefn.hasForm hread.names (fun name hm => ?_) fun field hm => ?_
    · have hname := (StructDefn.tupleOrder_eq_ok_iff.mp hn).2.mem_iff.mpr hm
      obtain ⟨field, hfield, _, _, hb⟩ := exists_mem_of_forall₂ hf name hname
      exact ⟨field, hfield, hb.name⟩
    · obtain ⟨name, entry, hg, hb⟩ := exists_of_forall₂ hf.flip field hm
      obtain ⟨item, value, hv, hget⟩ := exists_of_forall₂ hread.items field hm
      have hpart : (name, entry.type) ∈ (TypeDefn.struct defn).parts :=
        List.mem_map_of_mem (Table.get?_eq_some_iff.mp hg)
      have hfield : field.Reads part (some item) (entries.get? field.name) := hget ▸ .present hv
      rw [hb.name]
      refine ⟨entry, hg, hb.holds ?_ (hreads _ hpart _ hb.slot) (hliterals _ hpart _ hb.slot)
        hfield⟩
      rw [StructDefn.implicit?, hr]
  | union hs hn hm =>
    obtain ⟨place, content, member, converted, hselect, hmember, hc, rfl⟩ :=
      Node.readPlainUnion_eq_ok_iff.mp h
    exact hbuilt.hasForm_union hreads hselect hmember hc
  | enum he =>
    obtain ⟨members, -, -, rfl⟩ := EnumDefn.compile_eq_ok_iff.mp he
    obtain ⟨name, hm, rfl⟩ := (Node.readPlainEnum_eq_ok_iff hw).mp h
    exact hbuilt.hasForm_enum hm
  | _ =>
    obtain ⟨ha, rfl⟩ := Node.plain_kind_eq_ok_iff.mp h
    exact hbuilt.hasForm_kind ha

end Built

end LinkedSchema
