import LinkedSchema.Proofs.Compile.Parts
import LinkedSchema.Proofs.Meaning.Reordering
import LinkedSchema.Proofs.Plain.Children
import LinkedSchema.Proofs.Plain.Permuting
import LinkedSchema.Proofs.RoundTrip.Scalars

namespace LinkedSchema

/-- A part has slots on both sides that convert alike. Scalars are taken apart into scalars only,
and implicit values are not met in them. -/
structure PartAgrees (slotOf slotOf' : String → Option Slot) (typed typed' : Reading)
    (p p' : PartOutcome) (owner : String) (value : Value) (part : String × TypeTerm) : Prop where
  converts : ∀ slot slot', slotOf (part.2.nameIn owner part.1) = some slot →
    slotOf' (part.2.nameIn owner part.1) = some slot' → ∀ inner,
      ((Kind.of value).isScalar = true → (Kind.of inner).isScalar = true) →
        p slot inner = p' slot' inner
  reads : (Kind.of value).isScalar = false → ∀ slot slot',
    slotOf (part.2.nameIn owner part.1) = some slot →
      slotOf' (part.2.nameIn owner part.1) = some slot' → ∀ literal result result',
        (Kind.of literal).isScalar = true → typed slot literal result →
          typed' slot' literal result' → result = result'

variable {slotOf slotOf' : String → Option Slot} {typed typed' : Reading} {p p' : PartOutcome}
  {owner : String} {value : Value} {direction : Direction}

/-- Nothing but a list or a map is taken apart by a list, a map or a struct. -/
theorem Node.plain_of_isScalar (node : Node) (hc : node.IsCollection)
    (hv : (Kind.of value).isScalar = true) :
    node.plain direction p value = .error .nonconforming := by
  cases node with
  | list | map | pairs | structMap | structTuple =>
    cases direction <;> cases value <;> first | rfl | cases hv
  | _ => exact hc.elim

section Fields

variable {details : FieldDetails} {entry : String × StructField} {field field' : Field}

theorem BuiltImplicit.eq {slot slot' : Slot} {json : Option (Json Empty)}
    {implicit implicit' : Option Value} (h : BuiltImplicit typed slot json implicit)
    (h' : BuiltImplicit typed' slot' json implicit')
    (hr : ∀ literal result result', (Kind.of literal).isScalar = true →
      typed slot literal result → typed' slot' literal result' → result = result') :
    implicit = implicit' := by
  cases h with
  | none =>
    cases h'
    rfl
  | some hs ht =>
    cases h' with
    | some hs' ht' =>
      rw [hs] at hs'
      cases hs'
      rw [hr _ _ _ (isLiteral_of_scalar? hs).scalar ht ht']

/-- A field demands the same on both sides. -/
theorem BuiltField.rule_eq (h : BuiltField slotOf typed owner details entry field)
    (h' : BuiltField slotOf' typed' owner details entry field')
    (ha : PartAgrees slotOf slotOf' typed typed' p p' owner value (entry.1, entry.2.type))
    (hv : (Kind.of value).isScalar = false) : field.rule p = field'.rule p' := by
  have hconvert : p field.type.slot = p' field'.type.slot := funext fun inner =>
    ha.converts _ _ h.slot h'.slot inner (by simp [hv])
  have himplicit := h.implicit.eq h'.implicit (ha.reads hv _ _ h.slot h'.slot)
  simp only [Field.rule, PartType.plain, h.name, h'.name, h.key, h'.key, h.isOptional,
    h'.isOptional, h.nullable, h'.nullable, hconvert, himplicit]

end Fields

section Structs

variable {fields others : Table StructField} {built built' : List Field}

theorem StructDefn.plain_map_eq {details otherDetails : Table FieldDetails}
    (h : fields.entries.Perm others.entries) (hd : details.entries.Perm otherDetails.entries)
    (hf : List.Forall₂ (fun entry => BuiltField slotOf typed owner
      ((details.get? entry.1).getD {}) entry) fields.entries built)
    (hf' : List.Forall₂ (fun entry => BuiltField slotOf' typed' owner
      ((otherDetails.get? entry.1).getD {}) entry) others.entries built')
    (hk : (built.map Field.key).Nodup)
    (ha : ∀ entry ∈ fields.entries,
      PartAgrees slotOf slotOf' typed typed' p p' owner value (entry.1, entry.2.type)) :
    (Node.structMap (.ofFields built)).plain direction p value =
      (Node.structMap (.ofFields built')).plain direction p' value := by
  cases hv : (Kind.of value).isScalar with
  | true => rw [Node.plain_of_isScalar (.structMap _) trivial hv,
      Node.plain_of_isScalar (.structMap _) trivial hv]
  | false =>
    have hrules : (built.map (Field.rule p)).Perm (built'.map (Field.rule p')) := by
      refine perm_of_forall₂ h hf hf' fun entry he field field' hb hb' => ?_
      rw [← Table.get?_eq_of_perm hd] at hb'
      exact hb.rule_eq hb' (ha entry he) hv
    have hnames : (built.map Field.name).Nodup := BuiltField.names hf ▸ fields.nodup
    have hnames' : (built'.map Field.name).Nodup := BuiltField.names hf' ▸ others.nodup
    have hn : ((built.map (Field.rule p)).map Plain.FieldRule.name).Nodup := by
      rw [List.map_map]
      exact hnames
    have hk : ((built.map (Field.rule p)).map Plain.FieldRule.key).Nodup := by
      rw [List.map_map]
      exact hk
    cases direction with
    | toTyped =>
      rw [Node.plain, Node.plain, StructMap.values_ofFields hnames,
        StructMap.values_ofFields hnames']
      refine Plain.readStruct_eq_of_perm hrules hn hk (fun rule hm => ?_) value
      obtain ⟨field, -, rfl⟩ := List.mem_map.mp hm
      exact field.exists_filling p
    | toRepresentation =>
      rw [Node.plain, Node.plain, StructMap.values_ofFields hnames,
        StructMap.values_ofFields hnames']
      exact Plain.writeStruct_eq_of_perm hrules hn value

theorem StructDefn.plain_tuple_eq {names : List String} (h : fields.entries.Perm others.entries)
    (hf : List.Forall₂ (fun name field => ∃ part, fields.get? name = some part ∧
      BuiltField slotOf typed owner {} (name, part) field) names built)
    (hf' : List.Forall₂ (fun name field => ∃ part, others.get? name = some part ∧
      BuiltField slotOf' typed' owner {} (name, part) field) names built')
    (ha : ∀ entry ∈ fields.entries,
      PartAgrees slotOf slotOf' typed typed' p p' owner value (entry.1, entry.2.type)) :
    (Node.structTuple built).plain direction p value =
      (Node.structTuple built').plain direction p' value := by
  cases hv : (Kind.of value).isScalar with
  | true => rw [Node.plain_of_isScalar (.structTuple _) trivial hv,
      Node.plain_of_isScalar (.structTuple _) trivial hv]
  | false =>
    have hrules : built.map (Field.rule p) = built'.map (Field.rule p') := by
      refine map_eq_of_forall₂ (forall₂_comp hf.flip hf') fun field field' hboth => ?_
      obtain ⟨name, ⟨part, hg, hb⟩, part', hg', hb'⟩ := hboth
      rw [← Table.get?_eq_of_perm h, hg] at hg'
      cases hg'
      exact hb.rule_eq hb' (ha _ (Table.get?_eq_some_iff.mp hg)) hv
    cases direction with
    | toTyped => rw [Node.plain, Node.plain, hrules]
    | toRepresentation => rw [Node.plain, Node.plain, hrules]

end Structs

section Tuples

open Compilation

variable {fields others : Table StructField} (h : fields.entries.Perm others.entries)

include h

/-- A tuple that lists its order is compiled like one that declares its fields in that order. -/
theorem StructDefn.compile_tuple_eq
    (hrequired : ∀ entry ∈ fields.entries, entry.2.isOptional = false) (source : Source)
    (add : DefnCompiler) (name : String) :
    compile source add name ⟨fields, .tuple (some others.keys)⟩ =
      compile source add name ⟨others, .tuple none⟩ := by
  have hnone : fields.entries.find? (fun entry => entry.2.isOptional) = none :=
    List.find?_eq_none.mpr fun entry he => by simp [hrequired entry he]
  have hnone' : others.entries.find? (fun entry => entry.2.isOptional) = none :=
    List.find?_eq_none.mpr fun entry he => by simp [hrequired entry (h.mem_iff.mpr he)]
  have horder : tupleOrder name fields (some others.keys) = .ok others.keys :=
    tupleOrder_eq_ok_iff.mpr ⟨rfl, (h.map Prod.fst).symm⟩
  have hfield : compileTupleField source add name fields =
      compileTupleField source add name others := by
    funext part
    simp only [compileTupleField, Table.get?_eq_of_perm h]
  simp only [compile, compileTuple, hnone, hnone', horder, hfield]
  rfl

/-- A field that may be absent is refused in either order. -/
theorem StructDefn.gives_compile_tuple_iff {source : Source} {add : DefnCompiler} {name : String}
    {before after : Registry} {node : Node} :
    Gives (compile source add name ⟨fields, .tuple (some others.keys)⟩) before node after ↔
      Gives (compile source add name ⟨others, .tuple none⟩) before node after := by
  by_cases hrequired : ∀ entry ∈ fields.entries, entry.2.isOptional = false
  · rw [compile_tuple_eq h hrequired]
  · refine iff_of_false (fun hg => hrequired (gives_compileTuple.mp hg).1) fun hg => hrequired ?_
    exact fun entry he => (gives_compileTuple.mp hg).1 entry (h.mem_iff.mp he)

end Tuples

section Unions

variable {defn other : UnionDefn} {strategy strategy' : Strategy} {members members' : List Member}
  (hr : defn.representation.Reordered other.representation)
  (hs : UnionDefn.strategy defn.members defn.representation = .ok strategy)
  (hs' : UnionDefn.strategy other.members other.representation = .ok strategy')
  (hb : List.Forall₂ (fun name member => member.name = name ∧ slotOf name = some member.slot)
    defn.members members)
  (hb' : List.Forall₂ (fun name member => member.name = name ∧ slotOf' name = some member.slot)
    other.members members')
  (ha : ∀ name ∈ defn.members,
    PartAgrees slotOf slotOf' typed typed' p p' owner value ("member", .named name))

include hr hs hs' hb hb' ha

theorem UnionDefn.readPlainUnion_eq :
    Node.readPlainUnion members strategy p value =
      Node.readPlainUnion members' strategy' p' value := by
  have hsame := hr.selects_same (builtStrategy_of_eq_ok hs) (builtStrategy_of_eq_ok hs') value
  simp only [Node.readPlainUnion]
  generalize hselected : strategy.select? value = placed, strategy'.select? value = placed' at hsame
  cases hsame with
  | none => rfl
  | some hplaces =>
    rename_i placed placed'
    obtain ⟨place, content⟩ := placed
    obtain ⟨place', _⟩ := placed'
    obtain ⟨name, hplace, hplace', rfl⟩ := hplaces
    obtain ⟨member, hget, hname, hslot⟩ := exists_member_of_places hb hplace
    obtain ⟨member', hget', hname', hslot'⟩ := exists_member_of_places hb' hplace'
    have hpart := (ha name (mem_of_places hplace)).converts _ _ hslot hslot' content
      (Strategy.isScalar_of_select? hselected)
    simp only [hget, hget', hname, hname', Plain.tag, hpart]

theorem UnionDefn.writePlainUnion_eq (hm : defn.members.Perm other.members) :
    Node.writePlainUnion members strategy p value =
      Node.writePlainUnion members' strategy' p' value := by
  simp only [Node.writePlainUnion]
  cases hu : Plain.untag? value with
  | none => rfl
  | some entry =>
    obtain ⟨name, content⟩ := entry
    have hv : (Kind.of value).isScalar = false := by
      rw [Node.untag?_eq_some_iff.mp hu]
      rfl
    simp only [findIdx?_members hb, findIdx?_members hb']
    cases hplace : defn.members.idxOf? name with
    | none =>
      have hplace' : other.members.idxOf? name = none := by
        rw [List.idxOf?_eq_none_iff, ← hm.mem_iff]
        exact List.idxOf?_eq_none_iff.mp hplace
      rw [hplace']
    | some place =>
      have hmem : name ∈ other.members := hm.mem_iff.mp (mem_of_places hplace)
      obtain ⟨place', hplace'⟩ := Option.ne_none_iff_exists'.mp
        (mt List.idxOf?_eq_none_iff.mp (not_not.mpr hmem))
      obtain ⟨member, hget, -, hslot⟩ := exists_member_of_places hb hplace
      obtain ⟨member', hget', -, hslot'⟩ := exists_member_of_places hb' hplace'
      have hpart := (ha name (mem_of_places hplace)).converts _ _ hslot hslot' content
        (by simp [hv])
      have hwrap : ∀ shown, strategy.wrap? place shown = strategy'.wrap? place' shown := by
        intro shown
        rw [wrap?_agrees (builtStrategy_of_eq_ok hs) hplace,
          wrap?_agrees (builtStrategy_of_eq_ok hs') hplace',
          hr.wrap?_eq (builtStrategy_of_eq_ok hs)]
      simp only [hplace', hget, hget', hpart, hwrap]

end Unions

/-- Enums with the same members and literals convert alike. -/
theorem EnumDefn.plain_eq {defn other : EnumDefn} (hm : defn.members.Perm other.members)
    (hr : defn.representation.Reordered other.representation) {node node' : Node}
    (h : EnumDefn.compile owner defn = .ok node) (h' : EnumDefn.compile owner other = .ok node') :
    node.plain direction p value = node'.plain direction p' value := by
  have happart := wellFormed_compile h
  obtain ⟨members, hv, -, rfl⟩ := compile_eq_ok_iff.mp h
  obtain ⟨members', hv', -, rfl⟩ := compile_eq_ok_iff.mp h'
  have hperm := perm_of_forall₂ (f := id) (g := id) hm (literal?_of_values hv)
    (literal?_of_values hv') fun name _ member member' hmember hmember' => by
      obtain ⟨rfl, hl⟩ := hmember
      obtain ⟨hname, hl'⟩ := hmember'
      rw [← hr.literal?_eq, hl] at hl'
      exact Prod.ext hname.symm (Option.some.inj hl')
  rw [List.map_id, List.map_id] at hperm
  cases direction with
  | toTyped => exact Node.readPlainEnum_eq_of_perm hperm happart value
  | toRepresentation => exact Node.writePlainEnum_eq_of_perm hperm happart value

section Collections

variable {term : TypeTerm} {slot slot' : Slot}

/-- Unless the value is a scalar, the items of a list or the values of a map convert alike. -/
theorem PartAgrees.plain_eq
    (ha : PartAgrees slotOf slotOf' typed typed' p p' owner value ("valueType", term))
    (hs : slotOf (term.nameIn owner "valueType") = some slot)
    (hs' : slotOf' (term.nameIn owner "valueType") = some slot')
    (hv : (Kind.of value).isScalar = false) (nullable : Bool) :
    PartType.plain ⟨slot, nullable⟩ p = PartType.plain ⟨slot', nullable⟩ p' := by
  have hconvert : p slot = p' slot' := funext fun inner =>
    ha.converts slot slot' hs hs' inner (by simp [hv])
  simp only [PartType.plain, hconvert]

end Collections

section Definitions

variable {node node' : Node}

theorem MapDefn.plain_eq {defn : MapDefn TypeTerm}
    (hb : Built slotOf typed owner (.map defn) node)
    (hb' : Built slotOf' typed' owner (.map defn) node')
    (ha : PartAgrees slotOf slotOf' typed typed' p p' owner value ("valueType", defn.valueType)) :
    node.plain direction p value = node'.plain direction p' value := by
  cases hb with
  | map _ hr hs =>
    cases hb' with
    | map _ _ hs' =>
      cases hv : (Kind.of value).isScalar with
      | true => rw [Node.plain_of_isScalar (.map _) trivial hv,
          Node.plain_of_isScalar (.map _) trivial hv]
      | false => simp only [Node.plain, ha.plain_eq hs hs' hv]
    | pairs _ hr' _ =>
      rw [hr] at hr'
      cases hr'
  | pairs _ hr hs =>
    cases hb' with
    | map _ hr' _ =>
      rw [hr] at hr'
      cases hr'
    | pairs _ _ hs' =>
      cases hv : (Kind.of value).isScalar with
      | true => rw [Node.plain_of_isScalar (.pairs _) trivial hv,
          Node.plain_of_isScalar (.pairs _) trivial hv]
      | false => cases direction <;> simp only [Node.plain, ha.plain_eq hs hs' hv]

theorem ListDefn.plain_eq {defn : ListDefn TypeTerm}
    (hb : Built slotOf typed owner (.list defn) node)
    (hb' : Built slotOf' typed' owner (.list defn) node')
    (ha : PartAgrees slotOf slotOf' typed typed' p p' owner value ("valueType", defn.valueType)) :
    node.plain direction p value = node'.plain direction p' value := by
  cases hb with
  | list _ hs =>
    cases hb' with
    | list _ hs' =>
      cases hv : (Kind.of value).isScalar with
      | true => rw [Node.plain_of_isScalar (.list _) trivial hv,
          Node.plain_of_isScalar (.list _) trivial hv]
      | false => simp only [Node.plain, ha.plain_eq hs hs' hv]

theorem StructDefn.plain_eq {defn other : StructDefn}
    (h : defn.fields.entries.Perm other.fields.entries)
    (hr : StructRepresentation.Reordered defn.fields other.fields defn.representation
      other.representation)
    (hb : Built slotOf typed owner (.struct defn) node)
    (hb' : Built slotOf' typed' owner (.struct other) node')
    (ha : ∀ part ∈ (TypeDefn.struct defn).parts,
      PartAgrees slotOf slotOf' typed typed' p p' owner value part) :
    node.plain direction p value = node'.plain direction p' value := by
  have hentries : ∀ entry ∈ defn.fields.entries,
      PartAgrees slotOf slotOf' typed typed' p p' owner value (entry.1, entry.2.type) :=
    fun entry he => ha _ (List.mem_map.mpr ⟨entry, he, rfl⟩)
  cases hb with
  | structMap he _ hf hk =>
    cases hb' with
    | structMap he' _ hf' _ =>
      rw [he, he'] at hr
      cases hr with
      | map hd => exact plain_map_eq h hd hf hf' hk hentries
    | structTuple he' =>
      rw [he, he'] at hr
      cases hr
  | structTuple he _ hn hf =>
    cases hb' with
    | structMap he' =>
      rw [he, he'] at hr
      cases hr
    | structTuple he' _ hn' hf' =>
      rw [he, he'] at hr
      cases hr with
      | tuple ho =>
        rw [eq_of_tupleOrder hn, ho, ← eq_of_tupleOrder hn'] at hf
        exact plain_tuple_eq h hf hf' hentries

theorem UnionDefn.plain_eq {defn other : UnionDefn} (hm : defn.members.Perm other.members)
    (hr : defn.representation.Reordered other.representation)
    (hb : Built slotOf typed owner (.union defn) node)
    (hb' : Built slotOf' typed' owner (.union other) node')
    (ha : ∀ part ∈ (TypeDefn.union defn).parts,
      PartAgrees slotOf slotOf' typed typed' p p' owner value part) :
    node.plain direction p value = node'.plain direction p' value := by
  have hmembers : ∀ name ∈ defn.members,
      PartAgrees slotOf slotOf' typed typed' p p' owner value ("member", .named name) :=
    fun name hname => ha _ (List.mem_map.mpr ⟨name, hname, rfl⟩)
  cases hb with
  | union hs _ hb =>
    cases hb' with
    | union hs' _ hb' =>
      cases direction with
      | toTyped => exact readPlainUnion_eq hr hs hs' hb hb' hmembers
      | toRepresentation => exact writePlainUnion_eq hr hs hs' hb hb' hmembers hm

/-- Of structs only those that are represented as maps or tuples are built. -/
theorem Built.representation_reordered {defn : StructDefn}
    (hb : Built slotOf typed owner (.struct defn) node) :
    StructRepresentation.Reordered defn.fields defn.fields defn.representation
      defn.representation := by
  cases hb with
  | structMap he =>
    rw [he]
    exact .map (.refl _)
  | structTuple he =>
    rw [he]
    exact .tuple rfl

/-- What reordered definitions are compiled to converts alike. -/
theorem Built.plain_eq {defn other : TypeDefn} (h : defn.Reordered other)
    (hb : Built slotOf typed owner defn node) (hb' : Built slotOf' typed' owner other node')
    (ha : ∀ part ∈ defn.parts, PartAgrees slotOf slotOf' typed typed' p p' owner value part) :
    node.plain direction p value = node'.plain direction p' value := by
  cases h with
  | struct hf hr => exact StructDefn.plain_eq hf hr hb hb' ha
  | union hm hr => exact UnionDefn.plain_eq hm hr hb hb' ha
  | enum hm hr =>
    cases hb with
    | enum he =>
      cases hb' with
      | enum he' => exact EnumDefn.plain_eq hm hr he he'
  | refl =>
    cases defn with
    | struct defn => exact StructDefn.plain_eq (.refl _) hb.representation_reordered hb hb' ha
    | union defn => exact UnionDefn.plain_eq (.refl _) (.refl _) hb hb' ha
    | map defn => exact MapDefn.plain_eq hb hb' (ha _ (List.mem_singleton_self _))
    | list defn => exact ListDefn.plain_eq hb hb' (ha _ (List.mem_singleton_self _))
    | enum defn =>
      cases hb with
      | enum he =>
        cases hb' with
        | enum he' => exact EnumDefn.plain_eq (.refl _) (.refl _) he he'
    | copy fromType => cases hb
    | _ =>
      cases hb
      cases hb'
      rfl

end Definitions

end LinkedSchema
