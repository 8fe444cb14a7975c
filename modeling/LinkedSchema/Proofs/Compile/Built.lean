import LinkedSchema.Proofs.Compile.Names
import LinkedSchema.Proofs.Plain.StructLayout
import Mathlib.Data.List.Nodup
import Mathlib.Data.List.Perm.Subperm

namespace LinkedSchema

open Compilation

/-- How an implicit value is read by the type in a slot. -/
abbrev Reading := Slot → Value → Value → Prop

variable {slotOf others : String → Option Slot} {typed reads : Reading} {owner : String}

/-- The typed form of the implicit value of a field, if there is one. -/
inductive BuiltImplicit (typed : Reading) (slot : Slot) : Option (Json Empty) → Option Value → Prop
    where
  | none : BuiltImplicit typed slot none none
  | some {json : Json Empty} {literal value : Value} (hs : scalar? json = some literal)
      (ht : typed slot literal value) : BuiltImplicit typed slot (some json) (some value)

theorem BuiltImplicit.imp {slot : Slot} {json : Option (Json Empty)} {value : Option Value}
    (h : BuiltImplicit typed slot json value)
    (ht : ∀ slot literal value, typed slot literal value → reads slot literal value) :
    BuiltImplicit reads slot json value := by
  cases h with
  | none => exact .none
  | some hl hv => exact .some hl (ht _ _ _ hv)

/-- What a field of a struct is compiled to. -/
structure BuiltField (slotOf : String → Option Slot) (typed : Reading) (owner : String)
    (details : FieldDetails) (entry : String × StructField) (field : Field) : Prop where
  name : field.name = entry.1
  key : field.key = details.rename.getD entry.1
  slot : slotOf (entry.2.type.nameIn owner entry.1) = some field.type.slot
  nullable : field.type.nullable = entry.2.nullable
  isOptional : field.isOptional = entry.2.isOptional
  implicit : BuiltImplicit typed field.type.slot details.implicit field.implicit

/-- What a declared implicit value is read as. -/
theorem BuiltField.exists_value {details : FieldDetails} {entry : String × StructField}
    {field : Field} {json : Json Empty} (h : BuiltField slotOf typed owner details entry field)
    (hi : details.implicit = some json) :
    ∃ literal value, scalar? json = some literal ∧ field.implicit = some value ∧
      typed field.type.slot literal value := by
  have himplicit := h.implicit
  rw [hi] at himplicit
  generalize field.implicit = implicit at himplicit
  cases himplicit with
  | some hs ht => exact ⟨_, _, hs, rfl, ht⟩

/-- What an implicit value was read from. -/
theorem BuiltField.exists_json {details : FieldDetails} {entry : String × StructField}
    {field : Field} {value : Value} (h : BuiltField slotOf typed owner details entry field)
    (hi : field.implicit = some value) :
    ∃ json literal, details.implicit = some json ∧ scalar? json = some literal ∧
      typed field.type.slot literal value := by
  have himplicit := h.implicit
  rw [hi] at himplicit
  generalize details.implicit = json at himplicit
  cases himplicit with
  | some hs ht => exact ⟨_, _, rfl, hs, ht⟩

theorem BuiltField.implicit_eq_none_iff {details : FieldDetails} {entry : String × StructField}
    {field : Field} (h : BuiltField slotOf typed owner details entry field) :
    field.implicit = none ↔ details.implicit = none := by
  have himplicit := h.implicit
  generalize field.implicit = implicit, details.implicit = json at himplicit
  cases himplicit <;> simp

/-- What a definition is compiled to. -/
inductive Built (slotOf : String → Option Slot) (typed : Reading) (owner : String) :
    TypeDefn → Node → Prop where
  | null : Built slotOf typed owner .null (.kind .null)
  | bool : Built slotOf typed owner .bool (.kind .bool)
  | string : Built slotOf typed owner .string (.kind .string)
  | bytes : Built slotOf typed owner .bytes (.kind .bytes)
  | int : Built slotOf typed owner .int (.kind .int)
  | float : Built slotOf typed owner .float (.kind .float)
  | link {defn : LinkDefn} : Built slotOf typed owner (.link defn) (.kind .link)
  | map {defn : MapDefn TypeTerm} {slot : Slot} (hk : defn.keyType = "String")
      (hr : defn.representation = .map)
      (hs : slotOf (defn.valueType.nameIn owner "valueType") = some slot) :
      Built slotOf typed owner (.map defn) (.map ⟨slot, defn.valueNullable⟩)
  | pairs {defn : MapDefn TypeTerm} {slot : Slot} (hk : defn.keyType = "String")
      (hr : defn.representation = .listPairs)
      (hs : slotOf (defn.valueType.nameIn owner "valueType") = some slot) :
      Built slotOf typed owner (.map defn) (.pairs ⟨slot, defn.valueNullable⟩)
  | list {defn : ListDefn TypeTerm} {slot : Slot} (hr : defn.representation = .list)
      (hs : slotOf (defn.valueType.nameIn owner "valueType") = some slot) :
      Built slotOf typed owner (.list defn) (.list ⟨slot, defn.valueNullable⟩)
  | structMap {defn : StructDefn} {details : Table FieldDetails} {fields : List Field}
      (hr : defn.representation = .map details)
      (hd : ∀ name ∈ details.keys, defn.fields.contains name = true)
      (hf : List.Forall₂ (fun entry => BuiltField slotOf typed owner
        ((details.get? entry.1).getD {}) entry) defn.fields.entries fields)
      (hk : (fields.map Field.key).Nodup) :
      Built slotOf typed owner (.struct defn) (.structMap (.ofFields fields))
  | structTuple {defn : StructDefn} {order : Option (List String)} {names : List String}
      {fields : List Field} (hr : defn.representation = .tuple order)
      (ho : ∀ entry ∈ defn.fields.entries, entry.2.isOptional = false)
      (hn : StructDefn.tupleOrder owner defn.fields order = .ok names)
      (hf : List.Forall₂ (fun name field => ∃ part, defn.fields.get? name = some part ∧
        BuiltField slotOf typed owner {} (name, part) field) names fields) :
      Built slotOf typed owner (.struct defn) (.structTuple fields)
  | union {defn : UnionDefn} {strategy : Strategy} {members : List Member}
      (hs : UnionDefn.strategy defn.members defn.representation = .ok strategy)
      (hn : defn.members.Nodup)
      (hm : List.Forall₂ (fun name member => member.name = name ∧ slotOf name = some member.slot)
        defn.members members) :
      Built slotOf typed owner (.union defn) (.union members strategy)
  | enum {defn : EnumDefn} {node : Node} (h : EnumDefn.compile owner defn = .ok node) :
      Built slotOf typed owner (.enum defn) node

theorem BuiltField.imp {details : FieldDetails} {entry : String × StructField} {field : Field}
    (h : BuiltField slotOf typed owner details entry field)
    (hs : ∀ name slot, slotOf name = some slot → others name = some slot)
    (ht : ∀ slot literal value, typed slot literal value → reads slot literal value) :
    BuiltField others reads owner details entry field :=
  { h with
    slot := hs _ _ h.slot
    implicit := h.implicit.imp ht }

/-- More names and more readings leave what was built as it is. -/
theorem Built.imp {defn : TypeDefn} {node : Node} (h : Built slotOf typed owner defn node)
    (hs : ∀ name slot, slotOf name = some slot → others name = some slot)
    (ht : ∀ slot literal value, typed slot literal value → reads slot literal value) :
    Built others reads owner defn node := by
  cases h with
  | null => exact .null
  | bool => exact .bool
  | string => exact .string
  | bytes => exact .bytes
  | int => exact .int
  | float => exact .float
  | link => exact .link
  | map hk hr hslot => exact .map hk hr (hs _ _ hslot)
  | pairs hk hr hslot => exact .pairs hk hr (hs _ _ hslot)
  | list hr hslot => exact .list hr (hs _ _ hslot)
  | structMap hr hd hf hk => exact .structMap hr hd (hf.imp fun _ _ h => h.imp hs ht) hk
  | structTuple hr ho hn hf =>
    exact .structTuple hr ho hn (hf.imp fun _ _ ⟨part, hp, h⟩ => ⟨part, hp, h.imp hs ht⟩)
  | union hst hn hm => exact .union hst hn (hm.imp fun _ _ ⟨hname, h⟩ => ⟨hname, hs _ _ h⟩)
  | enum h => exact .enum h

namespace UnionDefn

variable {members : List String} {table : Table String} {resolved : List (String × Nat)}

/-- The same place is that of the same member. -/
theorem eq_of_idxOf? {member other : String} {place : Nat}
    (h : members.idxOf? member = some place) (ho : members.idxOf? other = some place) :
    member = other := by
  obtain ⟨_, hm, -⟩ := List.idxOf?_eq_some_iff.mp h
  obtain ⟨_, hm', -⟩ := List.idxOf?_eq_some_iff.mp ho
  exact hm.symm.trans hm'

/-- An entry of a table with the place of its member, its text being put in another form. -/
def Resolves {α : Type} (form : String → α → Prop) (members : List String)
    (entry : String × String) (resolved : α × Nat) : Prop :=
  form entry.1 resolved.1 ∧ members.idxOf? entry.2 = some resolved.2

theorem resolve_step_eq_ok {before after : List (String × Nat)} {entry : String × String}
    (h : resolve.step members before entry = .ok after) :
    ∃ place, members.idxOf? entry.2 = some place ∧ place ∉ before.map Prod.snd ∧
      after = before ++ [(entry.1, place)] := by
  unfold resolve.step at h
  simp only at h
  split at h
  · rename_i place hp
    split at h
    · cases h
    · rename_i hn
      cases h
      refine ⟨place, hp, fun hm => hn ?_, rfl⟩
      obtain ⟨other, ho, rfl⟩ := List.mem_map.mp hm
      exact List.any_eq_true.mpr ⟨other, ho, by simp⟩
  · cases h

theorem resolve_eq_ok (h : resolve members table = .ok resolved) :
    List.Forall₂ (Resolves Eq members) table.entries resolved ∧ (resolved.map Prod.snd).Nodup := by
  suffices ∀ (rest done : List (String × String)) (before after : List (String × Nat)),
      List.Forall₂ (Resolves Eq members) done before → (before.map Prod.snd).Nodup →
        rest.foldlM (resolve.step members) before = .ok after →
          List.Forall₂ (Resolves Eq members) (done ++ rest) after ∧ (after.map Prod.snd).Nodup from
    this table.entries [] [] resolved .nil .nil h
  intro rest
  induction rest with
  | nil =>
    intro done before after hd hn h
    cases h
    exact ⟨by simpa using hd, hn⟩
  | cons entry rest ih =>
    intro done before after hd hn h
    rw [List.foldlM_cons] at h
    obtain ⟨next, hs, h⟩ := Outcome.bind_eq_ok.mp h
    obtain ⟨place, hp, hnew, rfl⟩ := resolve_step_eq_ok hs
    have hd' : List.Forall₂ (Resolves Eq members) (done ++ [entry])
        (before ++ [(entry.1, place)]) :=
      List.rel_append hd (.cons ⟨rfl, hp⟩ .nil)
    have hn' : ((before ++ [(entry.1, place)]).map Prod.snd).Nodup := by
      rw [List.map_append]
      exact nodup_append_singleton hn hnew
    simpa using ih (done ++ [entry]) _ after hd' hn' h

theorem resolve_keys (h : List.Forall₂ (Resolves Eq members) table.entries resolved) :
    resolved.map Prod.fst = table.keys :=
  (map_eq_of_forall₂ h fun _ _ h => h.1).symm

theorem selectsApart_resolve (h : resolve members table = .ok resolved) :
    SelectsApart resolved members.length := by
  obtain ⟨hr, hn⟩ := resolve_eq_ok h
  refine ⟨?_, hn, fun entry hm => ?_⟩
  · rw [resolve_keys hr]
    exact table.nodup
  · obtain ⟨i, hi, rfl⟩ := List.mem_iff_getElem.mp hm
    have hlen : i < table.entries.length := by rwa [hr.length_eq]
    have hp := ((List.forall₂_iff_get.mp hr).2 i hlen hi).2
    obtain ⟨hlt, -⟩ := List.idxOf?_eq_some_iff.mp hp
    exact hlt

/-- Discriminants may be put in another form that tells them apart. -/
theorem selectsApart_of_places {α β : Type} {table : List (α × Nat)} {others : List (β × Nat)}
    {count : Nat} (h : SelectsApart table count)
    (hs : table.map Prod.snd = others.map Prod.snd) (hd : (others.map Prod.fst).Nodup) :
    SelectsApart others count := by
  refine ⟨hd, hs ▸ h.places, fun entry hm => ?_⟩
  have hp : entry.2 ∈ table.map Prod.snd := hs ▸ List.mem_map_of_mem hm
  obtain ⟨other, ho, he⟩ := List.mem_map.mp hp
  exact he ▸ h.bound other ho

theorem kindOf_eq_ok_iff {name : String} {kind : Kind} :
    kindOf name = .ok kind ↔ kind.name = name := by
  unfold kindOf
  constructor
  · intro h
    split at h
    · rename_i hk
      cases h
      unfold Kind.ofName? at hk
      simpa using List.find?_some hk
    · cases h
  · intro he
    subst he
    rw [Kind.ofName?_name]
    rfl

theorem checkBeginnings_eq_ok_iff {α : Type} [DecidableEq α] {table : List (List α × Nat)} :
    checkBeginnings table = .ok () ↔ StartsApart table := by
  induction table with
  | nil => exact iff_of_true rfl .nil
  | cons entry rest ih =>
    have hany : (rest.any fun other =>
        entry.1.isPrefixOf other.1 || other.1.isPrefixOf entry.1) = false ↔
          ∀ other ∈ rest, ¬entry.1 <+: other.1 ∧ ¬other.1 <+: entry.1 := by
      simp [List.any_eq_false, ← List.isPrefixOf_iff_prefix]
    rw [StartsApart, List.pairwise_cons, ← hany, ← StartsApart, ← ih, checkBeginnings]
    split
    · rename_i h
      simp [h]
    · rename_i h
      simp [h]

theorem nodup_of_startsApart {α : Type} {table : List (List α × Nat)} (h : StartsApart table) :
    (table.map Prod.fst).Nodup := by
  refine List.pairwise_map.mpr (h.imp ?_)
  intro a b hab he
  rw [he] at hab
  exact hab.1 (List.prefix_refl b.1)

/-- What a representation is compiled to: its table with places in the list of members. -/
inductive BuiltStrategy (members : List String) : UnionRepresentation → Strategy → Prop where
  | kinded {table : Table String} {items : List (Kind × Nat)}
      (h : List.Forall₂ (Resolves (fun text kind => kind.name = text) members) table.entries items)
      (ha : SelectsApart items members.length) :
      BuiltStrategy members (.kinded table) (.kinded items)
  | keyed {table : Table String} {items : List (String × Nat)}
      (h : List.Forall₂ (Resolves Eq members) table.entries items)
      (ha : SelectsApart items members.length) :
      BuiltStrategy members (.keyed table) (.keyed items)
  | envelope {discriminantKey contentKey : String} {table : Table String}
      {items : List (String × Nat)} (hne : discriminantKey ≠ contentKey)
      (h : List.Forall₂ (Resolves Eq members) table.entries items)
      (ha : SelectsApart items members.length) :
      BuiltStrategy members (.envelope discriminantKey contentKey table)
        (.envelope discriminantKey contentKey items)
  | inlined {discriminantKey : String} {table : Table String} {items : List (String × Nat)}
      (h : List.Forall₂ (Resolves Eq members) table.entries items)
      (ha : SelectsApart items members.length) :
      BuiltStrategy members (.inlined discriminantKey table) (.inlined discriminantKey items)
  | stringPrefix {table : Table String} {items : List (String × Nat)}
      (h : List.Forall₂ (Resolves Eq members) table.entries items)
      (ha : SelectsApart items members.length) (hs : StartsApart (beginnings items)) :
      BuiltStrategy members (.stringPrefix table) (.stringPrefix items)
  | bytesPrefix {table : Table String} {items : List (List UInt8 × Nat)}
      (h : List.Forall₂ (Resolves (fun text bytes => Encoding.readHex text = .ok bytes) members)
        table.entries items)
      (ha : SelectsApart items members.length) (hs : StartsApart items) :
      BuiltStrategy members (.bytesPrefix table) (.bytesPrefix items)

/-- Texts are put in another form one by one. -/
theorem resolves_form {α : Type} {form : String → α → Prop} (convert : String → Except UnionFlaw α)
    (hform : ∀ text a, convert text = .ok a ↔ form text a) {items : List (α × Nat)}
    (hr : List.Forall₂ (Resolves Eq members) table.entries resolved)
    (h : List.Forall₂ (fun a b => (do return (← convert a.1, a.2)) = Except.ok b) resolved items) :
    List.Forall₂ (Resolves form members) table.entries items ∧
      resolved.map Prod.snd = items.map Prod.snd := by
  have hf : List.Forall₂ (fun a b => convert a.1 = .ok b.1 ∧ a.2 = b.2) resolved items := by
    refine h.imp fun a b hab => ?_
    obtain ⟨value, hv, hab⟩ := Outcome.bind_eq_ok.mp hab
    cases hab
    exact ⟨hv, rfl⟩
  refine ⟨?_, map_eq_of_forall₂ hf fun _ _ h => h.2⟩
  clear h
  generalize table.entries = entries at hr ⊢
  induction hr generalizing items with
  | nil =>
    cases hf
    exact .nil
  | cons hfirst _ ih =>
    cases hf with
    | cons hab hf =>
      refine .cons ⟨?_, ?_⟩ (ih hf)
      · rw [← hform, hfirst.1]
        exact hab.1
      · rw [hfirst.2, hab.2]

theorem builtStrategy_of_eq_ok {representation : UnionRepresentation} {built : Strategy}
    (h : strategy members representation = .ok built) :
    BuiltStrategy members representation built := by
  cases representation with
  | kinded table =>
    obtain ⟨resolved, hr, h⟩ := Outcome.bind_eq_ok.mp h
    obtain ⟨kinds, hk, h⟩ := Outcome.bind_eq_ok.mp h
    cases h
    have hs := selectsApart_resolve hr
    obtain ⟨hf, hplaces⟩ := resolves_form kindOf (fun _ _ => kindOf_eq_ok_iff)
      (resolve_eq_ok hr).1 ((Outcome.mapM_eq_ok.mp hk).imp fun _ _ hab => hab)
    refine .kinded hf (selectsApart_of_places hs hplaces (List.Nodup.of_map Kind.name ?_))
    have hnames : table.entries.map Prod.fst = kinds.map (Kind.name ∘ Prod.fst) :=
      map_eq_of_forall₂ hf fun _ _ h => h.1.symm
    rw [List.map_map, ← hnames]
    exact table.nodup
  | keyed table =>
    obtain ⟨resolved, hr, h⟩ := Outcome.bind_eq_ok.mp h
    cases h
    exact .keyed (resolve_eq_ok hr).1 (selectsApart_resolve hr)
  | envelope discriminantKey contentKey table =>
    simp only [strategy] at h
    split at h
    · cases h
    · split at h
      · cases h
      · rename_i hne
        obtain ⟨resolved, hr, h⟩ := Outcome.bind_eq_ok.mp h
        cases h
        exact .envelope hne (resolve_eq_ok hr).1 (selectsApart_resolve hr)
  | inlined discriminantKey table =>
    simp only [strategy] at h
    split at h
    · cases h
    · obtain ⟨resolved, hr, h⟩ := Outcome.bind_eq_ok.mp h
      cases h
      exact .inlined (resolve_eq_ok hr).1 (selectsApart_resolve hr)
  | stringPrefix table =>
    obtain ⟨resolved, hr, h⟩ := Outcome.bind_eq_ok.mp h
    obtain ⟨_, hb, h⟩ := Outcome.bind_eq_ok.mp h
    cases h
    exact .stringPrefix (resolve_eq_ok hr).1 (selectsApart_resolve hr)
      (checkBeginnings_eq_ok_iff.mp hb)
  | bytesPrefix table =>
    obtain ⟨resolved, hr, h⟩ := Outcome.bind_eq_ok.mp h
    obtain ⟨texts, ht, h⟩ := Outcome.bind_eq_ok.mp h
    obtain ⟨_, hb, h⟩ := Outcome.bind_eq_ok.mp h
    cases h
    have ha := checkBeginnings_eq_ok_iff.mp hb
    obtain ⟨hf, hplaces⟩ := resolves_form bytesOf (fun _ _ => Outcome.mapError_eq_ok)
      (resolve_eq_ok hr).1 ((Outcome.mapM_eq_ok.mp ht).imp fun _ _ hab => hab)
    exact .bytesPrefix hf
      (selectsApart_of_places (selectsApart_resolve hr) hplaces (nodup_of_startsApart ha)) ha

theorem wellFormed_strategy {representation : UnionRepresentation} {built : Strategy}
    (h : strategy members representation = .ok built) : built.WellFormed members.length := by
  cases builtStrategy_of_eq_ok h with
  | kinded _ ha => exact ha
  | keyed _ ha => exact ha
  | envelope hne _ ha => exact ⟨hne, ha⟩
  | inlined _ ha => exact ha
  | stringPrefix _ ha hs => exact ⟨ha, hs⟩
  | bytesPrefix _ ha hs => exact ⟨ha, hs⟩

end UnionDefn

namespace EnumDefn

theorem checkValues_eq_ok_iff {before : List Value} {members : List (String × Value)} :
    checkValues before members = .ok () ↔
      (∀ value ∈ before, ∀ member ∈ members, value.same member.2 = false) ∧
        members.Pairwise fun a b => a.2.same b.2 = false := by
  induction members generalizing before with
  | nil => exact iff_of_true rfl ⟨by simp, .nil⟩
  | cons member rest ih =>
    have hany : before.any (·.same member.2) = false ↔
        ∀ value ∈ before, value.same member.2 = false := by
      simp [List.any_eq_false]
    rw [checkValues]
    split
    · rename_i h
      simp only [Outcome.throw_eq, reduceCtorEq, false_iff]
      intro hall
      rw [hany.mpr fun value hv => hall.1 value hv member (List.mem_cons_self ..)] at h
      cases h
    · rename_i h
      have hbefore := hany.mp (by simpa using h)
      rw [ih, List.pairwise_cons]
      constructor
      · intro hrest
        obtain ⟨hfirst, hrest⟩ := hrest
        refine ⟨fun value hv other ho => ?_, fun other ho => hfirst _ (by simp) other ho, hrest⟩
        rcases List.mem_cons.mp ho with rfl | ho
        · exact hbefore value hv
        · exact hfirst value (List.mem_append_left _ hv) other ho
      · intro hall
        obtain ⟨hfirst, hmember, hrest⟩ := hall
        refine ⟨fun value hv other ho => ?_, hrest⟩
        rcases List.mem_append.mp hv with hv | hv
        · exact hfirst value hv other (List.mem_cons_of_mem _ ho)
        · rw [List.mem_singleton.mp hv]
          exact hmember other ho

theorem values_eq_ok {defn : EnumDefn} {members : List (String × Value)}
    (h : defn.values = .ok members) :
    defn.members.Nodup ∧ members.map Prod.fst = defn.members ∧
      ∀ member ∈ members, (∃ s, member.2 = .string s) ∨ ∃ n, member.2 = .int n := by
  simp only [values] at h
  split at h
  · cases h
  rename_i hn
  refine ⟨not_not.mp hn, ?_⟩
  split at h
  · obtain ⟨_, _, h⟩ := Outcome.bind_eq_ok.mp h
    cases h
    exact ⟨by simp [Function.comp_def], by simp⟩
  · obtain ⟨_, _, h⟩ := Outcome.bind_eq_ok.mp h
    have hf := Outcome.mapM_eq_ok.mp h
    constructor
    · rw [← List.map_id defn.members]
      refine (map_eq_of_forall₂ hf fun a b hab => ?_).symm
      split at hab
      · cases hab
        rfl
      · cases hab
    · intro member hm
      obtain ⟨name, _, hab⟩ := (Outcome.mem_of_mapM_eq_ok h member).mp hm
      split at hab
      · cases hab
        exact .inr ⟨_, rfl⟩
      · cases hab

theorem compile_eq_ok_iff {name : String} {defn : EnumDefn} {node : Node} :
    compile name defn = .ok node ↔ ∃ members, defn.values = .ok members ∧
      checkValues [] members = .ok () ∧ node = .enum members := by
  simp only [compile, Outcome.bind_eq_ok, Outcome.mapError_eq_ok, Outcome.pure_eq, Except.ok.injEq]
  constructor
  · intro h
    obtain ⟨members, hv, _, hc, rfl⟩ := h
    exact ⟨members, hv, hc, rfl⟩
  · intro h
    obtain ⟨members, hv, hc, rfl⟩ := h
    exact ⟨members, hv, (), hc, rfl⟩

theorem wellFormed_compile {name : String} {defn : EnumDefn} {node : Node}
    (h : compile name defn = .ok node) : node.WellFormed := by
  obtain ⟨members, hv, hc, rfl⟩ := compile_eq_ok_iff.mp h
  obtain ⟨hn, hnames, hscalars⟩ := values_eq_ok hv
  exact ⟨by rwa [hnames], (checkValues_eq_ok_iff.mp hc).2, hscalars⟩

end EnumDefn

theorem BuiltField.names {details : String × StructField → FieldDetails}
    {entries : List (String × StructField)} {fields : List Field}
    (h : List.Forall₂ (fun entry => BuiltField slotOf typed owner (details entry) entry) entries
      fields) : fields.map Field.name = entries.map Prod.fst :=
  (map_eq_of_forall₂ h fun _ _ h => h.name.symm).symm

/-- Fields are listed in an order of their own, or as they are declared. -/
theorem StructDefn.tupleOrder_eq_ok_iff {name : String} {fields : Table StructField}
    {order : Option (List String)} {names : List String} :
    tupleOrder name fields order = .ok names ↔
      order.getD fields.keys = names ∧ names.Perm fields.keys := by
  have hkeys : fields.keys.length = fields.size := List.length_map ..
  unfold tupleOrder
  split
  · simp only [Outcome.pure_eq, Except.ok.injEq, Option.getD_none]
    exact ⟨fun h => ⟨h, h ▸ .refl _⟩, And.left⟩
  · rename_i order
    simp only [Option.getD_some]
    split
    · rename_i ho
      obtain ⟨hlength, hn, hall⟩ := ho
      have hsub : order ⊆ fields.keys := fun key hm =>
        Table.contains_iff.mp (List.all_eq_true.mp hall key hm)
      have hperm : order.Perm fields.keys :=
        (List.subperm_of_subset hn hsub).perm_of_length_le (by omega)
      simp only [Outcome.pure_eq, Except.ok.injEq]
      exact ⟨fun h => ⟨h, h ▸ hperm⟩, And.left⟩
    · rename_i ho
      simp only [Outcome.throw_eq, reduceCtorEq, false_iff]
      rintro ⟨rfl, hperm⟩
      refine ho ⟨by rw [hperm.length_eq, hkeys], hperm.nodup_iff.mpr fields.nodup, ?_⟩
      exact List.all_eq_true.mpr fun key hm => Table.contains_iff.mpr (hperm.mem_iff.mp hm)

/-- The parts of what was built have slots. -/
theorem Built.exists_slot {defn : TypeDefn} {node : Node} (hb : Built slotOf typed owner defn node)
    {part : String × TypeTerm} (hp : part ∈ defn.parts) :
    ∃ slot, slotOf (part.2.nameIn owner part.1) = some slot := by
  cases hb with
  | map hk hr hs =>
    rw [List.mem_singleton.mp hp]
    exact ⟨_, hs⟩
  | pairs hk hr hs =>
    rw [List.mem_singleton.mp hp]
    exact ⟨_, hs⟩
  | list hr hs =>
    rw [List.mem_singleton.mp hp]
    exact ⟨_, hs⟩
  | structMap hr hd hf hk =>
    obtain ⟨entry, hm, rfl⟩ := List.mem_map.mp hp
    obtain ⟨field, hb⟩ := exists_of_forall₂ hf entry hm
    exact ⟨_, hb.slot⟩
  | structTuple hr ho hn hf =>
    obtain ⟨entry, hm, rfl⟩ := List.mem_map.mp hp
    have hname : entry.1 ∈ _ :=
      (StructDefn.tupleOrder_eq_ok_iff.mp hn).2.mem_iff.mpr (List.mem_map_of_mem hm)
    obtain ⟨field, part, hg, hb⟩ := exists_of_forall₂ hf entry.1 hname
    rw [Table.get?_eq_some_iff.mpr hm] at hg
    cases hg
    exact ⟨_, hb.slot⟩
  | union hst hn hm =>
    obtain ⟨name, hname, rfl⟩ := List.mem_map.mp hp
    obtain ⟨member, -, hs⟩ := exists_of_forall₂ hm name hname
    exact ⟨_, hs⟩
  | _ => cases hp

/-- A compiled struct that is represented as a map comes from such a definition. -/
theorem Built.exists_struct {defn : TypeDefn} {layout : StructMap}
    (h : Built slotOf typed owner defn (.structMap layout)) :
    ∃ inner details, defn = .struct inner ∧ inner.representation = .map details := by
  cases h with
  | structMap hr => exact ⟨_, _, rfl, hr⟩
  | enum h =>
    obtain ⟨_, _, _, he⟩ := EnumDefn.compile_eq_ok_iff.mp h
    cases he

/-- Each field of the definition is compiled to a field of the struct. -/
theorem Built.exists_field {defn : StructDefn} {details : Table FieldDetails} {node : Node}
    {entry : String × StructField} (h : Built slotOf typed owner (.struct defn) node)
    (hr : defn.representation = .map details) (hm : entry ∈ defn.fields.entries) :
    ∃ layout field, node = .structMap layout ∧ field ∈ layout.fields.values ∧
      BuiltField slotOf typed owner ((details.get? entry.1).getD {}) entry field := by
  cases h with
  | structTuple hr' => simp [hr] at hr'
  | structMap hr' _ hfields _ =>
    rw [hr] at hr'
    cases hr'
    obtain ⟨field, hf, hb⟩ := exists_mem_of_forall₂ hfields entry hm
    refine ⟨_, field, rfl, ?_, hb⟩
    rwa [StructMap.values_ofFields (by rw [BuiltField.names hfields]; exact Table.nodup _)]

/-- What is built refers to the slots of its parts. -/
theorem Built.exists_part {defn : TypeDefn} {node : Node} (hb : Built slotOf typed owner defn node)
    {slot : Slot} (hs : slot ∈ node.slots) :
    ∃ part ∈ defn.parts, slotOf (part.2.nameIn owner part.1) = some slot := by
  cases hb with
  | map hk hr hslot =>
    rw [List.mem_singleton.mp hs]
    exact ⟨_, List.mem_singleton_self _, hslot⟩
  | pairs hk hr hslot =>
    rw [List.mem_singleton.mp hs]
    exact ⟨_, List.mem_singleton_self _, hslot⟩
  | list hr hslot =>
    rw [List.mem_singleton.mp hs]
    exact ⟨_, List.mem_singleton_self _, hslot⟩
  | structMap hr hd hf hk =>
    have hnames := BuiltField.names hf
    rw [Node.slots, StructMap.values_ofFields (by rw [hnames]; exact Table.nodup _)] at hs
    obtain ⟨field, hm, rfl⟩ := List.mem_map.mp hs
    obtain ⟨entry, he, hb⟩ := exists_mem_of_forall₂ hf.flip field hm
    exact ⟨_, List.mem_map_of_mem he, hb.slot⟩
  | structTuple hr ho hn hf =>
    obtain ⟨field, hm, rfl⟩ := List.mem_map.mp hs
    obtain ⟨name, part, hg, hb⟩ := exists_of_forall₂ hf.flip field hm
    exact ⟨_, List.mem_map_of_mem (Table.get?_eq_some_iff.mp hg), hb.slot⟩
  | union hst hn hm =>
    obtain ⟨member, hmember, rfl⟩ := List.mem_map.mp hs
    obtain ⟨name, hname, -, hslot⟩ := exists_mem_of_forall₂ hm.flip member hmember
    exact ⟨_, List.mem_map_of_mem hname, hslot⟩
  | enum h =>
    obtain ⟨_, _, _, rfl⟩ := EnumDefn.compile_eq_ok_iff.mp h
    cases hs
  | _ => cases hs

/-- What is built is well-formed. -/
theorem Built.wellFormed {defn : TypeDefn} {node : Node} (h : Built slotOf typed owner defn node) :
    node.WellFormed := by
  cases h with
  | map => trivial
  | pairs => trivial
  | list => trivial
  | structMap hr hd hf hk =>
    refine StructMap.wellFormed_ofFields ?_ hk
    rw [BuiltField.names hf]
    exact Table.nodup _
  | structTuple hr ho hn hf =>
    rename_i names fields
    have hnames : names.map id = fields.map Field.name :=
      map_eq_of_forall₂ hf fun _ _ ⟨_, _, h⟩ => h.name.symm
    refine ⟨?_, fun field hm => ?_⟩
    · rw [← hnames, List.map_id]
      exact (StructDefn.tupleOrder_eq_ok_iff.mp hn).2.nodup_iff.mpr (Table.nodup _)
    · obtain ⟨name, part, -, h⟩ := exists_of_forall₂ hf.flip field hm
      exact h.implicit_eq_none_iff.mpr rfl
  | union hs hn hm =>
    rename_i defn strategy members
    have hnames : defn.members.map id = members.map Member.name :=
      map_eq_of_forall₂ hm fun _ _ h => h.1.symm
    refine ⟨by rwa [← hnames, List.map_id], ?_⟩
    rw [← hm.length_eq]
    exact UnionDefn.wellFormed_strategy hs
  | enum h => exact EnumDefn.wellFormed_compile h
  | _ => rfl

theorem Built.untransformed {defn : TypeDefn} {node : Node}
    (h : Built slotOf typed owner defn node) : node.Untransformed := by
  cases h with
  | enum h =>
    obtain ⟨_, _, _, rfl⟩ := EnumDefn.compile_eq_ok_iff.mp h
    trivial
  | _ => trivial

end LinkedSchema
