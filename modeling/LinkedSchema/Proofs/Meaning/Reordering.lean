import LinkedSchema.Proofs.Compile.Moves
import LinkedSchema.Proofs.Meaning.Definitions
import LinkedSchema.Proofs.RoundTrip.Selecting

namespace LinkedSchema

theorem Table.get?_eq_of_perm {α : Type} {t u : Table α} (h : t.entries.Perm u.entries)
    (key : String) : t.get? key = u.get? key := by
  refine Option.ext fun value => ?_
  rw [get?_eq_some_iff, get?_eq_some_iff, h.mem_iff]

namespace UnionDefn

variable {members : List String} {entries : List (String × String)} {α : Type}
  {form : String → α → Prop}

/-- No member is selected by two entries of a table. -/
theorem nodup_selected {items : List (α × Nat)} {count : Nat}
    (hr : List.Forall₂ (Resolves form members) entries items) (ha : SelectsApart items count) :
    (entries.map Prod.snd).Nodup := by
  have hplaces : (entries.map Prod.snd).map (members.idxOf? ·) =
      (items.map Prod.snd).map some := by
    rw [List.map_map, List.map_map]
    exact map_eq_of_forall₂ hr fun _ _ h => h.2
  refine List.Nodup.of_map (members.idxOf? ·) ?_
  rw [hplaces]
  exact ha.places.map fun _ _ => Option.some.inj

/-- Entries of which the beginnings start the same list name the same member. -/
theorem selected_unique [DecidableEq α] {form : String → List α → Prop}
    (hform : ∀ text a b, form text a → form text b → a = b) {items : List (List α × Nat)}
    (hr : List.Forall₂ (Resolves form members) entries items) (hs : StartsApart items)
    {entry other : String × String} (he : entry ∈ entries) (ho : other ∈ entries)
    {beginning beginning' rest rest' : List α} (hb : form entry.1 beginning)
    (hb' : form other.1 beginning') (heq : beginning ++ rest = beginning' ++ rest') :
    entry.2 = other.2 ∧ rest = rest' := by
  obtain ⟨item, hi, hitem, hplace⟩ := exists_mem_of_forall₂ hr entry he
  obtain ⟨item', hi', hitem', hplace'⟩ := exists_mem_of_forall₂ hr other ho
  obtain ⟨start, place⟩ := item
  obtain ⟨start', place'⟩ := item'
  cases hform _ _ _ hb hitem
  cases hform _ _ _ hb' hitem'
  have hfound := hs.findSome?_after? hi rest id
  rw [heq, hs.findSome?_after? hi' rest' id] at hfound
  cases hfound
  exact ⟨eq_of_idxOf? hplace hplace', rfl⟩

end UnionDefn

namespace UnionRepresentation

/-- Both tell the members apart in the same way, by tables with the same entries. -/
inductive Reordered : UnionRepresentation → UnionRepresentation → Prop where
  | kinded {table other : Table String} (h : table.entries.Perm other.entries) :
      Reordered (.kinded table) (.kinded other)
  | keyed {table other : Table String} (h : table.entries.Perm other.entries) :
      Reordered (.keyed table) (.keyed other)
  | envelope {discriminantKey contentKey : String} {table other : Table String}
      (h : table.entries.Perm other.entries) :
      Reordered (.envelope discriminantKey contentKey table)
        (.envelope discriminantKey contentKey other)
  | inlined {discriminantKey : String} {table other : Table String}
      (h : table.entries.Perm other.entries) :
      Reordered (.inlined discriminantKey table) (.inlined discriminantKey other)
  | stringPrefix {table other : Table String} (h : table.entries.Perm other.entries) :
      Reordered (.stringPrefix table) (.stringPrefix other)
  | bytesPrefix {table other : Table String} (h : table.entries.Perm other.entries) :
      Reordered (.bytesPrefix table) (.bytesPrefix other)

theorem Reordered.refl (representation : UnionRepresentation) :
    representation.Reordered representation := by
  cases representation with
  | kinded => exact .kinded (.refl _)
  | keyed => exact .keyed (.refl _)
  | envelope => exact .envelope (.refl _)
  | inlined => exact .inlined (.refl _)
  | stringPrefix => exact .stringPrefix (.refl _)
  | bytesPrefix => exact .bytesPrefix (.refl _)

theorem discriminant?_eq_of_perm {table other : Table String}
    (h : table.entries.Perm other.entries) (hn : (table.entries.map Prod.snd).Nodup)
    (member : String) : discriminant? table member = discriminant? other member := by
  rw [discriminant?, discriminant?, find?_eq_of_perm_of_nodup h hn]

variable {representation other : UnionRepresentation} {members : List String} {built : Strategy}

section Prefixes

variable {table others : Table String} (h : table.entries.Perm others.entries)

include h

/-- The prefixes of a compiled table start no string in two ways. -/
theorem select?_stringPrefix_eq_of_perm
    (hb : UnionDefn.BuiltStrategy members (.stringPrefix table) built) (value : Value) :
    (stringPrefix table).select? value = (stringPrefix others).select? value := by
  cases hb with
  | stringPrefix hr ha hs =>
    rename_i items
    cases value with
    | string s =>
      refine findSome?_eq_of_perm h fun entry he other ho shown shown' hshown hshown' => ?_
      obtain ⟨rest, hrest, rfl⟩ := Option.map_eq_some_iff.mp hshown
      obtain ⟨rest', hrest', rfl⟩ := Option.map_eq_some_iff.mp hshown'
      have hstarts := (after?_eq_some_iff.mp hrest).symm.trans (after?_eq_some_iff.mp hrest')
      have hr' : List.Forall₂ (UnionDefn.Resolves (fun text chars => text.toList = chars) members)
          table.entries (beginnings items) := by
        refine List.forall₂_map_right_iff.mpr (hr.imp fun entry item hitem => ?_)
        exact ⟨congrArg String.toList hitem.1, hitem.2⟩
      obtain ⟨hm, rfl⟩ := UnionDefn.selected_unique (by rintro text a b rfl rfl; rfl) hr' hs he ho
        rfl rfl hstarts
      rw [hm]
    | _ => rfl

/-- The prefixes of a compiled table start no bytes in two ways. -/
theorem select?_bytesPrefix_eq_of_perm
    (hb : UnionDefn.BuiltStrategy members (.bytesPrefix table) built) (value : Value) :
    (bytesPrefix table).select? value = (bytesPrefix others).select? value := by
  cases hb with
  | bytesPrefix hr ha hs =>
    cases value with
    | bytes bytes =>
      refine findSome?_eq_of_perm h fun entry he other ho shown shown' hshown hshown' => ?_
      split at hshown
      · split at hshown'
        · rename_i hhex _ _ hhex'
          obtain ⟨rest, hrest, rfl⟩ := Option.map_eq_some_iff.mp hshown
          obtain ⟨rest', hrest', rfl⟩ := Option.map_eq_some_iff.mp hshown'
          have hstarts := (after?_eq_some_iff.mp hrest).symm.trans (after?_eq_some_iff.mp hrest')
          obtain ⟨hm, rfl⟩ := UnionDefn.selected_unique
            (fun text a b ha hb => Except.ok.inj (ha.symm.trans hb)) hr hs he ho hhex hhex' hstarts
          rw [hm]
        · cases hshown'
      · cases hshown
    | _ => rfl

end Prefixes

/-- What has been compiled selects unambiguously, so the first match is the only one. -/
theorem Reordered.select?_eq (h : representation.Reordered other)
    (hb : UnionDefn.BuiltStrategy members representation built) (value : Value) :
    representation.select? value = other.select? value := by
  cases h with
  | kinded h => simp only [select?, Table.get?_eq_of_perm h]
  | keyed h => cases value <;> simp only [select?, Table.get?_eq_of_perm h]
  | envelope h => cases value <;> simp only [select?, Table.get?_eq_of_perm h]
  | inlined h => cases value <;> simp only [select?, Table.get?_eq_of_perm h]
  | stringPrefix h => exact select?_stringPrefix_eq_of_perm h hb value
  | bytesPrefix h => exact select?_bytesPrefix_eq_of_perm h hb value

/-- What reordered representations are compiled to selects the same member, at places of its own in
the two lists of members. -/
theorem Reordered.selects_same (h : representation.Reordered other)
    (hb : UnionDefn.BuiltStrategy members representation built) {members' : List String}
    {built' : Strategy} (hb' : UnionDefn.BuiltStrategy members' other built') (value : Value) :
    Option.Rel (fun placed placed' => ∃ name, UnionDefn.Places members placed.1 name ∧
        UnionDefn.Places members' placed'.1 name ∧ placed.2 = placed'.2)
      (built.select? value) (built'.select? value) := by
  have hshown := UnionDefn.select?_agrees hb value
  have hshown' := UnionDefn.select?_agrees hb' value
  rw [← h.select?_eq hb] at hshown'
  generalize built.select? value = placed, representation.select? value = named at hshown hshown' ⊢
  cases hshown with
  | none =>
    generalize built'.select? value = placed' at hshown' ⊢
    cases hshown'
    exact .none
  | some hplace =>
    generalize built'.select? value = placed' at hshown' ⊢
    cases hshown' with
    | some hplace' => exact .some ⟨_, hplace.1, hplace'.1, hplace.2.trans hplace'.2.symm⟩

theorem Reordered.wrap?_eq (h : representation.Reordered other)
    (hb : UnionDefn.BuiltStrategy members representation built) (member : String) (value : Value) :
    representation.wrap? member value = other.wrap? member value := by
  cases h with
  | kinded h =>
    cases hb with
    | kinded hr ha =>
      simp only [wrap?, discriminant?_eq_of_perm h (UnionDefn.nodup_selected hr ha)]
  | keyed h =>
    cases hb with
    | keyed hr ha =>
      simp only [wrap?, discriminant?_eq_of_perm h (UnionDefn.nodup_selected hr ha)]
  | envelope h =>
    cases hb with
    | envelope _ hr ha =>
      simp only [wrap?, discriminant?_eq_of_perm h (UnionDefn.nodup_selected hr ha)]
  | inlined h =>
    cases hb with
    | inlined hr ha =>
      simp only [wrap?, discriminant?_eq_of_perm h (UnionDefn.nodup_selected hr ha)]
  | stringPrefix h =>
    cases hb with
    | stringPrefix hr ha _ =>
      simp only [wrap?, discriminant?_eq_of_perm h (UnionDefn.nodup_selected hr ha)]
  | bytesPrefix h =>
    cases hb with
    | bytesPrefix hr ha _ =>
      simp only [wrap?, discriminant?_eq_of_perm h (UnionDefn.nodup_selected hr ha)]

end UnionRepresentation

namespace EnumRepresentation

/-- Both represent the members in the same way, by tables with the same entries. -/
inductive Reordered : EnumRepresentation → EnumRepresentation → Prop where
  | string {table other : Table String} (h : table.entries.Perm other.entries) :
      Reordered (.string table) (.string other)
  | int {table other : Table Int64} (h : table.entries.Perm other.entries) :
      Reordered (.int table) (.int other)

theorem Reordered.refl (representation : EnumRepresentation) :
    representation.Reordered representation := by
  cases representation with
  | string => exact .string (.refl _)
  | int => exact .int (.refl _)

theorem Reordered.literal?_eq {representation other : EnumRepresentation}
    (h : representation.Reordered other) (member : String) :
    representation.literal? member = other.literal? member := by
  cases h with
  | string h => simp only [literal?, Table.get?_eq_of_perm h]
  | int h => simp only [literal?, Table.get?_eq_of_perm h]

end EnumRepresentation

/-- The fields of both structs are represented in the same way. The items of tuples have the same
order, whether that is listed or the order of the fields. -/
inductive StructRepresentation.Reordered (fields others : Table StructField) :
    StructRepresentation → StructRepresentation → Prop where
  | map {details otherDetails : Table FieldDetails}
      (h : details.entries.Perm otherDetails.entries) :
      Reordered fields others (.map details) (.map otherDetails)
  | tuple {order otherOrder : Option (List String)}
      (h : order.getD fields.keys = otherOrder.getD others.keys) :
      Reordered fields others (.tuple order) (.tuple otherOrder)

namespace TypeDefn

/-- Definitions that are the same up to an order that has no meaning. -/
inductive Reordered : TypeDefn → TypeDefn → Prop where
  | refl (defn : TypeDefn) : Reordered defn defn
  | struct {defn other : StructDefn} (hf : defn.fields.entries.Perm other.fields.entries)
      (hr : StructRepresentation.Reordered defn.fields other.fields defn.representation
        other.representation) : Reordered (.struct defn) (.struct other)
  | union {defn other : UnionDefn} (hm : defn.members.Perm other.members)
      (hr : defn.representation.Reordered other.representation) :
      Reordered (.union defn) (.union other)
  | enum {defn other : EnumDefn} (hm : defn.members.Perm other.members)
      (hr : defn.representation.Reordered other.representation) :
      Reordered (.enum defn) (.enum other)

variable {defn other : TypeDefn}

/-- Reordered definitions have the same parts. -/
theorem Reordered.parts (h : defn.Reordered other) : defn.parts.Perm other.parts := by
  cases h with
  | refl => exact .refl _
  | struct hf _ => exact hf.map _
  | union hm _ => exact hm.map _
  | enum => exact .refl _

theorem Reordered.inlines (h : defn.Reordered other) (owner : String) :
    (defn.inlines owner).Perm (other.inlines owner) :=
  h.parts.flatMap fun _ _ => .refl _

theorem Reordered.copy_iff (h : defn.Reordered other) (fromType : String) :
    defn = .copy fromType ↔ other = .copy fromType := by
  cases h with
  | refl => exact .rfl
  | _ => simp

end TypeDefn

namespace Source

/-- Sources with the same transforms that declare the same types in another order, and each type up
to an order that has no meaning. -/
structure Reordered (first second : Source) : Prop where
  custom : first.custom = second.custom
  names : first.schema.types.keys.Perm second.schema.types.keys
  types : ∀ name defn other, first.schema.types.get? name = some defn →
    second.schema.types.get? name = some other → defn.Reordered other

namespace Reordered

variable {first second : Source} {name target : String} {defn : TypeDefn}

theorem get? (h : first.Reordered second) (hd : first.schema.types.get? name = some defn) :
    ∃ other, second.schema.types.get? name = some other ∧ defn.Reordered other := by
  have hm : name ∈ second.schema.types.keys :=
    h.names.mem_iff.mp (Table.get?_isSome_iff.mp (by rw [hd]; rfl))
  obtain ⟨other, ho⟩ := Option.isSome_iff_exists.mp (Table.get?_isSome_iff.mpr hm)
  exact ⟨other, ho, h.types name defn other hd ho⟩

theorem definition? (h : first.Reordered second) (hd : first.definition? name = some defn) :
    ∃ other, second.definition? name = some other ∧ defn.Reordered other := by
  rcases definition?_eq_some_iff.mp hd with hd | ⟨hnone, hd⟩
  · obtain ⟨other, ho, hr⟩ := h.get? hd
    exact ⟨other, definition?_eq_some_iff.mpr (.inl ho), hr⟩
  · have hnone' : second.schema.types.get? name = none := by
      refine Option.eq_none_iff_forall_not_mem.mpr fun other ho => ?_
      have hm : name ∈ first.schema.types.keys :=
        h.names.mem_iff.mpr (Table.get?_isSome_iff.mp (by rw [ho]; rfl))
      rw [← Table.get?_isSome_iff, hnone] at hm
      cases hm
    exact ⟨defn, definition?_eq_some_iff.mpr (.inr ⟨hnone', hd⟩), .refl defn⟩

theorem mem_inlines (h : first.Reordered second) (hm : (name, defn) ∈ first.inlines) :
    (name, defn) ∈ second.inlines := by
  obtain ⟨entry, he, hm⟩ := List.mem_flatMap.mp hm
  obtain ⟨other, ho, hr⟩ := h.get? (Table.get?_eq_some_iff.mpr he)
  refine List.mem_flatMap.mpr ⟨(entry.1, other), Table.get?_eq_some_iff.mp ho, ?_⟩
  rw [← h.custom]
  split at hm
  · simp at hm
  · rename_i hc
    rw [if_neg hc]
    exact (hr.inlines entry.1).mem_iff.mp hm

theorem origin (h : first.Reordered second) (ho : first.Origin name defn) :
    ∃ other, second.Origin name other ∧ defn.Reordered other := by
  cases ho with
  | declared hd =>
    obtain ⟨other, ho, hr⟩ := h.definition? hd
    exact ⟨other, .declared ho, hr⟩
  | inline hm => exact ⟨defn, .inline (h.mem_inlines hm), .refl defn⟩

theorem leads (h : first.Reordered second) (hl : first.Leads name target) :
    second.Leads name target := by
  induction hl with
  | refl => exact .refl _
  | copy hc hd _ ih =>
    obtain ⟨other, ho, hr⟩ := h.definition? hd
    rw [(hr.copy_iff _).mp rfl] at ho
    exact .copy (h.custom ▸ hc) ho ih

theorem isRoot (h : first.Reordered second) (hr : first.IsRoot name) : second.IsRoot name := by
  cases hr with
  | custom hc => exact .custom (h.custom ▸ hc)
  | defined hc ho hcopy =>
    obtain ⟨other, ho, hr⟩ := h.origin ho
    exact .defined (h.custom ▸ hc) ho fun fromType he => hcopy fromType ((hr.copy_iff _).mpr he)

end Reordered

end Source

end LinkedSchema
