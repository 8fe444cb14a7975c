import LinkedSchema.Proofs.Meaning.Selecting
import LinkedSchema.Proofs.Plain.Parts

namespace LinkedSchema

variable {rel : {α : Type} → Except Stop α → Except Stop α → Prop} {slotOf : String → Option Slot}
  {typed : Reading} {owner : String} {direction : Direction} {p : PartOutcome} {q : TermOutcome}
  {value : Value}

/-- The slot of a part converts as the part does. -/
def Converts (rel : {α : Type} → Except Stop α → Except Stop α → Prop)
    (slotOf : String → Option Slot) (owner : String) (direction : Direction) (p : PartOutcome)
    (q : TermOutcome) (part : String × TypeTerm) : Prop :=
  ∀ slot, slotOf (part.2.nameIn owner part.1) = some slot →
    ∀ value, rel (p slot value) (q direction part.2 value)

/-- Implicit values of a part are read by it. -/
def Reads (rel : {α : Type} → Except Stop α → Except Stop α → Prop)
    (slotOf : String → Option Slot) (typed : Reading) (owner : String) (q : TermOutcome)
    (part : String × TypeTerm) : Prop :=
  ∀ slot, slotOf (part.2.nameIn owner part.1) = some slot →
    ∀ literal value, typed slot literal value → rel (.ok value) (q .toTyped part.2 literal)

theorem BuiltField.related (hrel : Congruence rel) {details : FieldDetails}
    {entry : String × StructField} {field : Field}
    (h : BuiltField slotOf typed owner details entry field)
    (hp : Converts rel slotOf owner direction p q (entry.1, entry.2.type))
    (ht : Reads rel slotOf typed owner q (entry.1, entry.2.type)) :
    Plain.FieldRule.Related rel value (field.rule p)
      (entry.2.rule entry.1 details direction q) := by
  refine ⟨h.name, h.key, h.isOptional, ?_, ?_⟩
  · have hi := h.implicit
    show Option.Rel _ (field.implicit.map Except.ok) (details.implicit.map _)
    generalize field.implicit = implicit, details.implicit = json at hi
    cases hi with
    | none => exact .none
    | some hs hv =>
      refine .some ?_
      simp only [hs]
      exact ht _ h.slot _ _ hv
  · intro part _
    show rel (Plain.nullable field.type.nullable (p field.type.slot) part) _
    rw [h.nullable]
    exact Plain.rel_nullable hrel (hp _ h.slot part)

namespace StructDefn

theorem eq_of_tupleOrder {name : String} {fields : Table StructField} {order : Option (List String)}
    {names : List String} (h : tupleOrder name fields order = .ok names) :
    names = order.getD fields.keys := by
  unfold tupleOrder at h
  split at h
  · cases h
    rfl
  · split at h
    · cases h
      rfl
    · cases h

variable {defn : StructDefn} {details : Table FieldDetails} {fields : List Field}

theorem related_mapRules (hrel : Congruence rel)
    (hf : List.Forall₂ (fun entry => BuiltField slotOf typed owner
      ((details.get? entry.1).getD {}) entry) defn.fields.entries fields)
    (hp : ∀ part ∈ (TypeDefn.struct defn).parts, Converts rel slotOf owner direction p q part)
    (ht : ∀ part ∈ (TypeDefn.struct defn).parts, Reads rel slotOf typed owner q part) :
    List.Forall₂ (Plain.FieldRule.Related rel value) (fields.map (Field.rule p))
      (defn.mapRules details direction q) := by
  rw [mapRules, List.forall₂_map_left_iff, List.forall₂_map_right_iff]
  have hparts : ∀ entry ∈ defn.fields.entries,
      (entry.1, entry.2.type) ∈ (TypeDefn.struct defn).parts :=
    fun entry hm => List.mem_map.mpr ⟨entry, hm, rfl⟩
  refine ((List.forall₂_and_left _ _).mpr ⟨hparts, hf⟩).flip.imp ?_
  rintro field entry ⟨hm, hb⟩
  exact hb.related hrel (hp _ hm) (ht _ hm)

theorem related_tupleRules (hrel : Congruence rel) {order : Option (List String)}
    {names : List String} (hn : tupleOrder owner defn.fields order = .ok names)
    (hf : List.Forall₂ (fun name field => ∃ part, defn.fields.get? name = some part ∧
      BuiltField slotOf typed owner {} (name, part) field) names fields)
    (hp : ∀ part ∈ (TypeDefn.struct defn).parts, Converts rel slotOf owner direction p q part)
    (ht : ∀ part ∈ (TypeDefn.struct defn).parts, Reads rel slotOf typed owner q part) :
    List.Forall₂ (Plain.FieldRule.Related rel value) (fields.map (Field.rule p))
      (defn.tupleRules order direction q) := by
  rw [tupleRules, ← eq_of_tupleOrder hn]
  clear hn
  induction hf with
  | nil => exact .nil
  | cons hfirst _ ih =>
    obtain ⟨part, hg, hb⟩ := hfirst
    have hm : (_, part.type) ∈ (TypeDefn.struct defn).parts :=
      List.mem_map.mpr ⟨_, Table.get?_eq_some_iff.mp hg, rfl⟩
    rw [List.filterMap_cons_some (by rw [hg]; rfl)]
    exact .cons (hb.related hrel (hp _ hm) (ht _ hm)) ih

end StructDefn

namespace UnionDefn

variable {defn : UnionDefn} {strategy : Strategy} {members : List Member}

theorem mem_of_places {names : List String} {name : String} {place : Nat}
    (h : Places names place name) : name ∈ names := by
  obtain ⟨hlt, he, -⟩ := List.idxOf?_eq_some_iff.mp h
  have he : names[place] = name := by simpa using he
  exact he ▸ List.getElem_mem hlt

theorem exists_member_of_places {name : String} {place : Nat}
    (hm : List.Forall₂ (fun name member => member.name = name ∧ slotOf name = some member.slot)
      defn.members members) (hp : Places defn.members place name) :
    ∃ member, members[place]? = some member ∧ member.name = name ∧
      slotOf name = some member.slot := by
  obtain ⟨hlt, he, -⟩ := List.idxOf?_eq_some_iff.mp hp
  have he : defn.members[place] = name := by simpa using he
  have hlt' : place < members.length := hm.length_eq ▸ hlt
  obtain ⟨hname, hslot⟩ := (List.forall₂_iff_get.mp hm).2 place hlt hlt'
  simp only [List.get_eq_getElem, he] at hname hslot
  exact ⟨_, List.getElem?_eq_getElem hlt', hname, hslot⟩

theorem findIdx?_members (hm : List.Forall₂ (fun name member =>
    member.name = name ∧ slotOf name = some member.slot) defn.members members) (name : String) :
    members.findIdx? (fun member => member.name = name) = defn.members.idxOf? name := by
  have hnames : defn.members.map id = members.map Member.name :=
    map_eq_of_forall₂ hm fun _ _ h => h.1.symm
  rw [List.map_id] at hnames
  rw [hnames, List.idxOf?, List.findIdx?_map]
  congr 1

theorem related_read (hrel : Congruence rel)
    (hs : UnionDefn.strategy defn.members defn.representation = .ok strategy)
    (hm : List.Forall₂ (fun name member => member.name = name ∧ slotOf name = some member.slot)
      defn.members members)
    (hp : ∀ part ∈ (TypeDefn.union defn).parts, Converts rel slotOf owner .toTyped p q part) :
    rel (Node.readPlainUnion members strategy p value) (defn.interpret .toTyped q value) := by
  have hselect := select?_agrees (builtStrategy_of_eq_ok hs) value
  simp only [Node.readPlainUnion, interpret]
  generalize strategy.select? value = placed, defn.representation.select? value = named at hselect
  cases hselect with
  | none => exact hrel.refl _
  | some hshows =>
    rename_i placed named
    obtain ⟨place, content⟩ := placed
    obtain ⟨hplace, rfl⟩ := hshows
    obtain ⟨member, hget, hname, hslot⟩ := exists_member_of_places hm hplace
    have hpart : ("member", .named named.1) ∈ (TypeDefn.union defn).parts :=
      List.mem_map.mpr ⟨named.1, mem_of_places hplace, rfl⟩
    simp only [hget, hname]
    exact Plain.rel_tag hrel (hp _ hpart _ hslot _)

theorem related_write (hrel : Congruence rel)
    (hs : UnionDefn.strategy defn.members defn.representation = .ok strategy)
    (hm : List.Forall₂ (fun name member => member.name = name ∧ slotOf name = some member.slot)
      defn.members members)
    (hp : ∀ part ∈ (TypeDefn.union defn).parts,
      Converts rel slotOf owner .toRepresentation p q part) :
    rel (Node.writePlainUnion members strategy p value)
      (defn.interpret .toRepresentation q value) := by
  simp only [Node.writePlainUnion, interpret]
  cases Plain.untag? value with
  | none => exact hrel.refl _
  | some entry =>
    obtain ⟨name, content⟩ := entry
    simp only [findIdx?_members hm]
    cases hplace : defn.members.idxOf? name with
    | none =>
      rw [if_neg (List.idxOf?_eq_none_iff.mp hplace)]
      exact hrel.refl _
    | some place =>
      obtain ⟨member, hget, hname, hslot⟩ := exists_member_of_places hm hplace
      have hmem : name ∈ defn.members := mem_of_places hplace
      have hpart : ("member", .named name) ∈ (TypeDefn.union defn).parts :=
        List.mem_map.mpr ⟨name, hmem, rfl⟩
      rw [if_pos hmem]
      simp only [hget, wrap?_agrees (builtStrategy_of_eq_ok hs) hplace]
      exact hrel.bind (hp _ hpart _ hslot content) fun _ => hrel.refl _

end UnionDefn

namespace EnumDefn

variable {defn : EnumDefn} {members : List (String × Value)}

/-- The members with what represents them. -/
theorem literal?_of_values (h : defn.values = .ok members) :
    List.Forall₂ (fun name member => member.1 = name ∧
      defn.representation.literal? name = some member.2) defn.members members := by
  simp only [values] at h
  split at h
  · cases h
  split at h
  · rename_i table hr
    obtain ⟨_, _, h⟩ := Outcome.bind_eq_ok.mp h
    cases h
    rw [List.forall₂_map_right_iff, List.forall₂_same]
    intro name _
    rw [hr]
    exact ⟨rfl, rfl⟩
  · rename_i table hr
    obtain ⟨_, _, h⟩ := Outcome.bind_eq_ok.mp h
    refine (Outcome.mapM_eq_ok.mp h).imp fun name member hn => ?_
    rw [hr]
    split at hn
    · rename_i n hg
      cases hn
      exact ⟨rfl, by simp [EnumRepresentation.literal?, hg]⟩
    · cases hn

theorem interpret_toTyped (h : defn.values = .ok members) (value : Value) :
    defn.interpret .toTyped value = Node.readPlainEnum members value := by
  have hf := literal?_of_values h
  clear h
  simp only [interpret, Node.readPlainEnum]
  generalize defn.members = names at hf
  induction hf with
  | nil => rfl
  | cons hfirst _ ih =>
    rename_i name member _ _ _
    obtain ⟨rfl, hl⟩ := hfirst
    by_cases hs : member.2.same value = true
    · rw [List.find?_cons_of_pos (by simp [hl, hs]),
        List.find?_cons_of_pos (by simpa using hs)]
    · rw [List.find?_cons_of_neg (by simp [hl, hs]),
        List.find?_cons_of_neg (by simpa using hs)]
      exact ih

theorem interpret_toRepresentation (h : defn.values = .ok members) (value : Value) :
    defn.interpret .toRepresentation value = Node.writePlainEnum members value := by
  cases value with
  | string name =>
    have hf := literal?_of_values h
    clear h
    simp only [interpret, Node.writePlainEnum]
    generalize defn.members = names at hf
    induction hf with
    | nil => rfl
    | cons hfirst _ ih =>
      rename_i first member _ _ _
      obtain ⟨rfl, hl⟩ := hfirst
      by_cases hk : member.1 = name
      · subst hk
        rw [if_pos (List.mem_cons_self ..), hl, List.find?_cons_of_pos (by simp)]
      · rw [List.find?_cons_of_neg (by simpa using hk), ← ih]
        simp only [List.mem_cons, Ne.symm hk, false_or]
  | _ => rfl

theorem interpret_eq_plain (h : defn.values = .ok members) (direction : Direction)
    (part : PartOutcome) (value : Value) :
    defn.interpret direction value = (Node.enum members).plain direction part value := by
  cases direction with
  | toTyped => exact interpret_toTyped h value
  | toRepresentation => exact interpret_toRepresentation h value

end EnumDefn

/-- A definition converts as what it is compiled to, if its parts do and its implicit values are
read by them. -/
theorem Built.related (hrel : Congruence rel) {defn : TypeDefn} {node : Node}
    (hb : Built slotOf typed owner defn node)
    (hp : ∀ part ∈ defn.parts, Converts rel slotOf owner direction p q part)
    (ht : ∀ part ∈ defn.parts, Reads rel slotOf typed owner q part) (value : Value) :
    rel (node.plain direction p value) (defn.interpret direction q value) := by
  cases hb with
  | null => exact hrel.refl _
  | bool => exact hrel.refl _
  | string => exact hrel.refl _
  | bytes => exact hrel.refl _
  | int => exact hrel.refl _
  | float => exact hrel.refl _
  | link => exact hrel.refl _
  | map hk hr hs =>
    rename_i defn slot
    simp only [TypeDefn.interpret, MapDefn.interpret, hr, Node.plain]
    refine Plain.rel_map hrel (Plain.RelBelow.nullable hrel fun part _ => ?_)
    exact hp _ (List.mem_singleton_self _) slot hs part
  | pairs hk hr hs =>
    rename_i defn slot
    have hpart : Plain.RelBelow rel value (p slot) (q direction defn.valueType) :=
      fun part _ => hp _ (List.mem_singleton_self _) slot hs part
    cases direction with
    | toTyped =>
      simp only [TypeDefn.interpret, MapDefn.interpret, hr, Node.plain]
      exact Plain.rel_readPairs hrel (hpart.nullable hrel)
    | toRepresentation =>
      simp only [TypeDefn.interpret, MapDefn.interpret, hr, Node.plain]
      exact Plain.rel_writePairs hrel (hpart.nullable hrel)
  | list hr hs =>
    rename_i defn slot
    simp only [TypeDefn.interpret, ListDefn.interpret, hr, Node.plain]
    refine Plain.rel_list hrel (Plain.RelBelow.nullable hrel fun part _ => ?_)
    exact hp _ (List.mem_singleton_self _) slot hs part
  | structMap hr hd hf hk =>
    rename_i defn details fields
    have hrules : List.Forall₂ (Plain.FieldRule.Related rel value) (fields.map (Field.rule p))
        (defn.mapRules details direction q) := StructDefn.related_mapRules hrel hf hp ht
    have hvalues := StructMap.values_ofFields (BuiltField.names hf ▸ Table.nodup _)
    simp only [TypeDefn.interpret, StructDefn.interpret, hr]
    cases direction with
    | toTyped =>
      rw [Node.plain, hvalues]
      exact Plain.rel_readStruct hrel hrules
    | toRepresentation =>
      rw [Node.plain, hvalues]
      exact Plain.rel_writeStruct hrel hrules
  | structTuple hr ho hn hf =>
    rename_i defn order names fields
    have hrules : List.Forall₂ (Plain.FieldRule.Related rel value) (fields.map (Field.rule p))
        (defn.tupleRules order direction q) := StructDefn.related_tupleRules hrel hn hf hp ht
    simp only [TypeDefn.interpret, StructDefn.interpret, hr]
    cases direction with
    | toTyped => exact Plain.rel_readTuple hrel hrules
    | toRepresentation => exact Plain.rel_writeTuple hrel hrules
  | union hs hn hm =>
    cases direction with
    | toTyped => exact UnionDefn.related_read hrel hs hm hp
    | toRepresentation => exact UnionDefn.related_write hrel hs hm hp
  | enum h =>
    obtain ⟨members, hv, -, rfl⟩ := EnumDefn.compile_eq_ok_iff.mp h
    rw [TypeDefn.interpret, EnumDefn.interpret_eq_plain hv direction p]
    exact hrel.refl _

end LinkedSchema
