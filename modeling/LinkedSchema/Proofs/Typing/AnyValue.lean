import LinkedSchema.Proofs.Compile.Filled
import LinkedSchema.Proofs.Meaning.Definitions
import LinkedSchema.Proofs.Numbers.Finite
import LinkedSchema.Proofs.Order.Reachable

namespace LinkedSchema

theorem forall₂_eq_map_iff {α β : Type} {property : α → Prop} {form : α → β} {as : List α}
    {bs : List β} :
    List.Forall₂ (fun a b => property a ∧ b = form a) as bs ↔
      (∀ a ∈ as, property a) ∧ bs = as.map form := by
  rw [List.forall₂_and_left]
  refine and_congr_right fun _ => ?_
  rw [← List.forall₂_eq_eq_eq, List.forall₂_map_right_iff]
  exact ⟨List.Forall₂.flip, List.Forall₂.flip⟩

/-- The implicit type of the values of a kind. -/
def Kind.typeName : Kind → String
  | null => "Null"
  | bool => "Bool"
  | int => "Int"
  | float => "Float"
  | string => "String"
  | bytes => "Bytes"
  | link => "Link"
  | list => "AnyList"
  | map => "AnyMap"

namespace Value

mutual

/-- The parts of a value in their typed forms. -/
def content : Value → Value
  | list items => list (contentItems items)
  | map entries => map (contentEntries entries)
  | value => value

def contentItems : List Value → List Value
  | [] => []
  | item :: items =>
    (if item = null then null
      else map (SortedMap.singleton (Kind.of item).typeName item.content)) :: contentItems items

def contentEntries {bound : Option String} : SortedMap Value bound → SortedMap Value bound
  | .nil => .nil
  | .cons key value above rest =>
    .cons key (if value = null then null
      else map (SortedMap.singleton (Kind.of value).typeName value.content)) above
      (contentEntries rest)

end

/-- A value under the name of the type of its kind. -/
def tagged (value : Value) : Value :=
  map (SortedMap.singleton (Kind.of value).typeName value.content)

/-- A part of a value under the name of its type; null needs none. -/
def taggedPart (value : Value) : Value :=
  if value = null then null else value.tagged

theorem contentItems_eq (items : List Value) : contentItems items = items.map taggedPart := by
  induction items with
  | nil => rfl
  | cons item items ih => rw [contentItems, ih, List.map_cons, taggedPart, tagged]

theorem toList_contentEntries {bound : Option String} (entries : SortedMap Value bound) :
    (contentEntries entries).toList =
      entries.toList.map fun entry => (entry.1, entry.2.taggedPart) := by
  induction entries with
  | nil => rfl
  | cons key value above rest ih =>
    rw [contentEntries, SortedMap.toList, ih, SortedMap.toList, List.map_cons, taggedPart, tagged]

end Value

/-- Conversions under the implicit types, by their names. -/
structure Universal (convert : Direction → String → Value → Outcome) : Prop where
  scalar : ∀ direction (kind : Kind) value, kind.isScalar = true →
    convert direction kind.typeName value = kind.interpret value
  list : ∀ direction value, convert direction "AnyList" value =
    Plain.list (Plain.nullable true (convert direction "Any")) value
  map : ∀ direction value, convert direction "AnyMap" value =
    Plain.map (Plain.nullable true (convert direction "Any")) value
  read : ∀ value, convert .toTyped "Any" value =
    if (Kind.of value).admits value then
      Plain.tag (Kind.of value).typeName (convert .toTyped (Kind.of value).typeName) value
    else throw .nonconforming
  write : ∀ (kind : Kind) value,
    convert .toRepresentation "Any" (.map (SortedMap.singleton kind.typeName value)) = do
      let shown ← convert .toRepresentation kind.typeName value
      if kind.admits shown then return shown else throw .nonconforming

namespace Universal

variable {convert : Direction → String → Value → Outcome} {value typed : Value}

/-- What a type reads: values of finite numbers, in the given typed form. -/
def ReadsAs (form : Value → Value) (read : Value → Outcome) (value : Value) : Prop :=
  ∀ typed, read value = .ok typed ↔ value.Finite ∧ typed = form value

theorem ReadsAs.part (h : ReadsAs Value.tagged (convert .toTyped "Any") value) :
    ReadsAs Value.taggedPart (Plain.nullable true (convert .toTyped "Any")) value := by
  intro typed
  by_cases hn : value = .null
  · subst hn
    have hf : Value.null.Finite :=
      Value.finite_of_admits (show Kind.null.isScalar = true from rfl) rfl
    rw [Plain.nullable_null, Except.ok.injEq, eq_comm]
    exact (and_iff_right hf).symm
  · rw [Plain.nullable_of_not (fun h => hn h.2), h typed, Value.taggedPart, if_neg hn]

theorem ReadsAs.list {form : Value → Value} {read : Value → Outcome} {items : List Value}
    (h : ∀ item ∈ items, ReadsAs form read item) :
    ReadsAs (fun _ => .list (items.map form)) (Plain.list read) (.list items) := by
  intro typed
  rw [Plain.list_eq_ok_iff, Value.finite_list_iff]
  constructor
  · rintro ⟨_, others, ⟨⟩, rfl, hf⟩
    have hf := forall₂_eq_map_iff.mp
      (forall₂_imp_of_mem hf fun item hm other => (h item hm other).mp)
    exact ⟨hf.1, congrArg Value.list hf.2⟩
  · rintro ⟨hf, rfl⟩
    refine ⟨items, _, rfl, rfl, forall₂_imp_of_mem (forall₂_eq_map_iff.mpr ⟨hf, rfl⟩) ?_⟩
    exact fun item hm other => (h item hm other).mpr

theorem ReadsAs.map {form : Value → Value} {read : Value → Outcome}
    {entries formed : SortedMap Value none}
    (h : ∀ entry ∈ entries.toList, ReadsAs form read entry.2)
    (hf : formed.toList = entries.toList.map fun entry => (entry.1, form entry.2)) :
    ReadsAs (fun _ => .map formed) (Plain.map read) (.map entries) := by
  have hentry : ∀ entry ∈ entries.toList, ∀ other, Plain.Converted read entry other ↔
      entry.2.Finite ∧ other = (entry.1, form entry.2) := by
    intro entry hm other
    rw [Plain.Converted, h entry hm, Prod.ext_iff, eq_comm (a := entry.1)]
    exact and_left_comm
  have hfinite : (Value.map entries).Finite ↔ ∀ entry ∈ entries.toList, entry.2.Finite :=
    ⟨fun h entry hm => Value.finite_map_iff.mp h _ _ (SortedMap.get?_eq_some_iff.mpr hm),
      Value.finite_map_of_mem⟩
  intro typed
  rw [Plain.map_eq_ok_iff, hfinite]
  constructor
  · rintro ⟨_, others, ⟨⟩, rfl, hc⟩
    have hc := forall₂_eq_map_iff.mp
      (forall₂_imp_of_mem hc fun entry hm other => (hentry entry hm other).mp)
    refine ⟨hc.1, congrArg Value.map (SortedMap.toList_injective ?_)⟩
    rw [hc.2, hf]
  · rintro ⟨hc, rfl⟩
    refine ⟨entries, formed, rfl, rfl, ?_⟩
    rw [hf]
    exact forall₂_imp_of_mem (forall₂_eq_map_iff.mpr ⟨hc, rfl⟩) fun entry hm other =>
      (hentry entry hm other).mpr

/-- A value of its kind is read by the type of the kind if its parts are. -/
theorem readsAs_content (h : Universal convert) (ha : (Kind.of value).admits value = true)
    (hp : ∀ part : Value, part.weight < value.weight →
      ReadsAs Value.tagged (convert .toTyped "Any") part) :
    ReadsAs Value.content (convert .toTyped (Kind.of value).typeName) value := by
  intro typed
  have hscalar : (Kind.of value).isScalar = true → value.content = value →
      (convert .toTyped (Kind.of value).typeName value = .ok typed ↔
        value.Finite ∧ typed = value.content) := by
    intro hk hc
    rw [h.scalar _ _ _ hk, Kind.interpret, if_pos ha, hc, Outcome.pure_eq, Except.ok.injEq,
      and_iff_right (Value.finite_of_admits hk ha), eq_comm]
  cases value with
  | list items =>
    have hitems := ReadsAs.list fun item hm => (hp item (Value.weight_lt_of_mem hm)).part
    rw [Value.content, Value.contentItems_eq]
    exact (iff_of_eq (congrArg (· = .ok typed) (h.list _ _))).trans (hitems typed)
  | map entries =>
    have hentries := ReadsAs.map
      (fun entry hm => (hp entry.2 (Value.weight_lt_of_mem_toList hm)).part)
      (Value.toList_contentEntries entries)
    exact (iff_of_eq (congrArg (· = .ok typed) (h.map _ _))).trans (hentries typed)
  | _ => exact hscalar rfl rfl

/-- `Any` reads the values whose numbers are finite, and tags them. -/
theorem readsAs_tagged (h : Universal convert) (value : Value) :
    ReadsAs Value.tagged (convert .toTyped "Any") value := by
  induction hn : value.weight using Nat.strongRecOn generalizing value with
  | ind weight ih =>
    subst hn
    intro typed
    rw [h.read]
    split
    · rename_i ha
      have hc := h.readsAs_content ha fun part hlt => ih part.weight hlt part rfl
      rw [Plain.tag, Outcome.bind_eq_ok]
      constructor
      · rintro ⟨content, hread, ⟨⟩⟩
        obtain ⟨hf, rfl⟩ := (hc content).mp hread
        exact ⟨hf, rfl⟩
      · rintro ⟨hf, rfl⟩
        exact ⟨value.content, (hc _).mpr ⟨hf, rfl⟩, rfl⟩
    · rename_i ha
      have hf : ¬value.Finite := fun hf => ha (Value.finite_iff.mp hf value (.self value))
      exact iff_of_false (by simp) fun h => hf h.1

theorem taggedPart_ne_null {value : Value} (hn : value ≠ .null) : value.taggedPart ≠ .null := by
  rw [Value.taggedPart, if_neg hn]
  exact nofun

/-- The content of a tagged value is written back if its parts are. -/
theorem writes_content (h : Universal convert) (ha : (Kind.of value).admits value = true)
    (hp : ∀ part : Value, part.weight < value.weight → part.Finite →
      convert .toRepresentation "Any" part.tagged = .ok part) (hf : value.Finite) :
    convert .toRepresentation (Kind.of value).typeName value.content = .ok value := by
  have hpart : ∀ part : Value, part.weight < value.weight → part.Finite →
      Plain.nullable true (convert .toRepresentation "Any") part.taggedPart = .ok part := by
    intro part hlt hf
    by_cases hn : part = .null
    · subst hn
      rfl
    · rw [Plain.nullable_of_not fun h => taggedPart_ne_null hn h.2, Value.taggedPart, if_neg hn]
      exact hp part hlt hf
  have hscalar : (Kind.of value).isScalar = true → value.content = value →
      convert .toRepresentation (Kind.of value).typeName value.content = .ok value := by
    intro hk hc
    rw [h.scalar _ _ _ hk, hc, Kind.interpret, if_pos ha]
    rfl
  cases value with
  | list items =>
    refine (h.list _ _).trans (Plain.list_eq_ok_iff.mpr ⟨_, items, rfl, rfl, ?_⟩)
    rw [Value.contentItems_eq, List.forall₂_map_left_iff, List.forall₂_same]
    intro item hm
    exact hpart item (Value.weight_lt_of_mem hm) (Value.finite_list_iff.mp hf item hm)
  | map entries =>
    refine (h.map _ _).trans (Plain.map_eq_ok_iff.mpr ⟨_, entries, rfl, rfl, ?_⟩)
    rw [Value.toList_contentEntries, List.forall₂_map_left_iff, List.forall₂_same]
    intro entry hm
    have hentry := Value.finite_map_iff.mp hf _ _ (SortedMap.get?_eq_some_iff.mpr hm)
    exact ⟨rfl, hpart entry.2 (Value.weight_lt_of_mem_toList hm) hentry⟩
  | _ => exact hscalar rfl rfl

/-- A tagged value is written without its tags. -/
theorem writes_tagged (h : Universal convert) (value : Value) (hf : value.Finite) :
    convert .toRepresentation "Any" value.tagged = .ok value := by
  induction hn : value.weight using Nat.strongRecOn generalizing value with
  | ind weight ih =>
    subst hn
    have ha : (Kind.of value).admits value = true := Value.finite_iff.mp hf value (.self value)
    have hc := h.writes_content ha (fun part hlt hf => ih part.weight hlt part hf rfl) hf
    rw [Value.tagged, h.write, hc, Outcome.ok_bind, if_pos ha]
    rfl

end Universal

namespace Registry

variable {registry : Registry} {name : String} {defn : TypeDefn} {direction : Direction}
  {value : Value}

/-- Conversion by the type of a name. -/
def outcomeOf (registry : Registry) (direction : Direction) (name : String) (value : Value) :
    Outcome :=
  match registry.slot? name with
  | some slot => registry.outcome direction slot value
  | none => throw .nonconforming

theorem outcomeOf_eq {slot : Slot} (h : registry.slot? name = some slot) (direction : Direction)
    (value : Value) :
    registry.outcomeOf direction name value = registry.outcome direction slot value := by
  rw [outcomeOf, h]

/-- A type that refers to others by their names converts values as its definition does. -/
theorem Holds.outcomeOf_eq_interpret (h : registry.Holds name defn) (hw : registry.WellFormed)
    (hp : ∀ part ∈ defn.parts, part.2.inline? = none) (direction : Direction) (value : Value) :
    registry.outcomeOf direction name value =
      defn.interpret direction
        (fun direction term => registry.outcomeOf direction (term.nameIn name "")) value := by
  obtain ⟨slot, node, hs, hn, hb⟩ := h
  have hnamed : ∀ part ∈ defn.parts, part.2.nameIn name part.1 = part.2.nameIn name "" := by
    intro part hm
    rw [TypeTerm.eq_named_of_inline? (hp part hm) name ""]
    rfl
  rw [outcomeOf_eq hs, hw.outcome_eq_plain hn]
  refine hb.related Congruence.eq (fun part hm slot hs value => ?_)
    (fun part hm slot hs literal value ht => ?_) value
  · rw [hnamed part hm] at hs
    exact (outcomeOf_eq hs direction value).symm
  · rw [hnamed part hm] at hs
    exact ht.symm.trans (outcomeOf_eq hs .toTyped literal).symm

/-- The implicit types refer to each other by their names. -/
theorem inline?_eq_none_of_implicit (h : implicitType? name = some defn) :
    ∀ part ∈ defn.parts, part.2.inline? = none := by
  intro part hm
  obtain ⟨other, -, he⟩ := List.mem_map.mp (Source.mem_map_named_of_implicitType? h part hm)
  rw [← he]
  rfl

/-- The type of the scalars of a kind takes these and nothing else. -/
theorem implicitType?_scalar {kind : Kind} (hk : kind.isScalar = true) :
    ∃ defn, implicitType? kind.typeName = some defn ∧
      ∀ direction part value, defn.interpret direction part value = kind.interpret value := by
  cases kind with
  | list => cases hk
  | map => cases hk
  | _ => exact ⟨_, rfl, fun _ _ _ => rfl⟩

/-- The table of `Any` leads from kinds to the types of their values, and back. -/
theorem any_table (kind : Kind) : ∃ defn : UnionDefn, implicitType? "Any" = some (.union defn) ∧
    ∃ table, defn.representation = .kinded table ∧ table.get? kind.name = some kind.typeName ∧
      UnionRepresentation.discriminant? table kind.typeName = some kind.name ∧
        kind.typeName ∈ defn.members :=
  ⟨_, rfl, _, rfl, by cases kind <;> rfl, by cases kind <;> rfl, by cases kind <;> decide⟩

/-- The names of the types that a value of any kind is converted by. -/
def universalNames : List String :=
  "Any" :: Kind.all.map Kind.typeName

theorem universal_of_holds (hw : registry.WellFormed)
    (h : ∀ name ∈ universalNames, ∀ defn, implicitType? name = some defn →
      registry.Holds name defn) : Universal registry.outcomeOf := by
  have hinterpret : ∀ name ∈ universalNames, ∀ defn, implicitType? name = some defn →
      ∀ direction value, registry.outcomeOf direction name value = defn.interpret direction
        (fun direction term => registry.outcomeOf direction (term.nameIn name "")) value :=
    fun name hm defn hd =>
      (h name hm defn hd).outcomeOf_eq_interpret hw (inline?_eq_none_of_implicit hd)
  have hkind : ∀ kind : Kind, kind.typeName ∈ universalNames := fun kind =>
    List.mem_cons_of_mem _ (List.mem_map_of_mem kind.mem_all)
  have hany : "Any" ∈ universalNames := List.mem_cons_self ..
  constructor
  · intro direction kind value hk
    obtain ⟨defn, hd, hi⟩ := implicitType?_scalar hk
    rw [hinterpret _ (hkind kind) _ hd, hi]
  · exact hinterpret _ (hkind .list) _ rfl
  · exact hinterpret _ (hkind .map) _ rfl
  · intro value
    obtain ⟨defn, hd, table, hr, hg, -, -⟩ := any_table (Kind.of value)
    rw [hinterpret _ hany _ hd, TypeDefn.interpret, UnionDefn.interpret, hr,
      UnionRepresentation.select?, hg]
    by_cases ha : (Kind.of value).admits value = true
    · rw [if_pos ha, if_pos ha]
      rfl
    · rw [if_neg ha, if_neg ha]
  · intro kind value
    obtain ⟨defn, hd, table, hr, -, hg, hm⟩ := any_table kind
    rw [hinterpret _ hany _ hd, TypeDefn.interpret, UnionDefn.interpret]
    simp only [Plain.untag?, SortedMap.toList_singleton, if_pos hm, hr]
    refine Congruence.eq.bind rfl fun shown => ?_
    have hshows : (some kind.name = some (Kind.of shown).name ∧
        (Kind.of shown).admits shown = true) ↔ kind.admits shown = true := by
      rw [Option.some.injEq, Kind.name_inj, eq_comm, ← Kind.admits_iff]
    rw [UnionRepresentation.wrap?, hg]
    by_cases ha : kind.admits shown = true
    · rw [if_pos (hshows.mpr ha), if_pos ha]
    · rw [if_neg (mt hshows.mp ha), if_neg ha]

end Registry

/-- The types that take values of every kind, with the values that they are meant for. -/
inductive UniversalType : String → (Value → Prop) → Prop where
  | any : UniversalType "Any" fun _ => True
  | map : UniversalType "AnyMap" fun value => Kind.of value = .map
  | list : UniversalType "AnyList" fun value => Kind.of value = .list

theorem UniversalType.mem_implicit {name : String} {meant : Value → Prop}
    (h : UniversalType name meant) : name ∈ implicitTypeNames := by
  cases h <;> decide

/-- Each of the types reads its values into one form and writes them back from it. -/
theorem Universal.exists_form {convert : Direction → String → Value → Outcome}
    (h : Universal convert) {name : String} {meant : Value → Prop} (ht : UniversalType name meant)
    {value : Value} (hv : meant value) :
    ∃ form : Value → Value, Universal.ReadsAs form (convert .toTyped name) value ∧
      (value.Finite → convert .toRepresentation name (form value) = .ok value) := by
  have hcontent : (Kind.of value).isScalar = false →
      Universal.ReadsAs Value.content (convert .toTyped (Kind.of value).typeName) value ∧
        (value.Finite →
          convert .toRepresentation (Kind.of value).typeName value.content = .ok value) := by
    intro hk
    have ha : (Kind.of value).admits value = true := by
      rw [Kind.admits_of_iff]
      rintro x rfl
      cases hk
    exact ⟨h.readsAs_content ha fun part _ => h.readsAs_tagged part,
      h.writes_content ha fun part _ => h.writes_tagged part⟩
  cases ht with
  | any => exact ⟨Value.tagged, h.readsAs_tagged value, h.writes_tagged value⟩
  | map =>
    have hkind : Kind.of value = .map := hv
    rw [hkind] at hcontent
    exact ⟨Value.content, hcontent rfl⟩
  | list =>
    have hkind : Kind.of value = .list := hv
    rw [hkind] at hcontent
    exact ⟨Value.content, hcontent rfl⟩

open Compilation

/-- A schema that does not declare implicit types anew. -/
def Schema.KeepsImplicit (schema : Schema) : Prop :=
  ∀ name ∈ implicitTypeNames, schema.types.get? name = none

/-- No call gives an implicit type another definition. -/
def KeepImplicit (calls : List Call) : Prop :=
  ∀ name ∈ implicitTypeNames, ∀ defn, (name, defn) ∉ givenDefinitions calls

variable {schema : Schema} {calls : List Call} {after : Registry} {name : String} {defn : TypeDefn}

/-- The name of a definition in the place of a reference is not that of an implicit type. -/
theorem anonymousName_not_mem_implicit (owner part : String) :
    anonymousName owner part ∉ implicitTypeNames := by
  have hspace : ∀ name ∈ implicitTypeNames, ' ' ∉ name.toList := by decide
  exact fun hm => hspace _ hm (by simp [anonymousName])

theorem Schema.KeepsImplicit.definition?_eq (hs : schema.KeepsImplicit)
    (hn : name ∈ implicitTypeNames) :
    Source.definition? ⟨schema, ∅⟩ name = implicitType? name := by
  rw [Source.definition?, hs name hn]
  rfl

/-- An implicit type is compiled from its own definition only. -/
theorem Schema.KeepsImplicit.implicitType?_of_entered (hs : schema.KeepsImplicit)
    (hc : KeepImplicit calls) (hn : name ∈ implicitTypeNames)
    (h : (Source.inForce ⟨schema, ∅⟩ calls).Entered after name defn) :
    implicitType? name = some defn := by
  cases h with
  | declared hd =>
    rcases Source.definition?_inForce hd with hg | hd
    · exact absurd hg (hc name hn defn)
    · rwa [← hs.definition?_eq hn]
  | inline _ _ _ _ hi =>
    rw [TypeTerm.nameIn_of_inline? hi] at hn
    exact absurd hn (anonymousName_not_mem_implicit _ _)

/-- A registered implicit type holds what its definition is compiled to, and so do the types that
it refers to. -/
theorem Schema.KeepsImplicit.holds (hs : schema.KeepsImplicit) (hc : KeepImplicit calls)
    (h : Gives (calls.forM (Source.perform ⟨schema, ∅⟩)) ∅ () after)
    (hn : name ∈ implicitTypeNames) (hslot : (after.slot? name).isSome = true)
    (hd : implicitType? name = some defn) :
    after.Holds name defn ∧
      ∀ part ∈ defn.parts, (after.slot? (part.2.nameIn name part.1)).isSome = true := by
  cases (provides_of_calls h).complete.names name hslot with
  | custom hcustom =>
    rw [Source.custom_inForce] at hcustom
    cases hcustom
  | defined _ hentered hh hp =>
    rw [hs.implicitType?_of_entered hc hn hentered, Option.some.injEq] at hd
    subst hd
    exact ⟨hh, hp⟩
  | copy hcopies =>
    have hentered : (Source.inForce ⟨schema, ∅⟩ calls).Entered after name (.copy _) :=
      .declared hcopies.declared
    exact (Source.not_copy_of_implicitType?
      (hs.implicitType?_of_entered hc hn hentered)).elim

/-- One of the types that take values of every kind brings all types along that it converts by. -/
theorem Schema.KeepsImplicit.universal (hs : schema.KeepsImplicit) (hc : KeepImplicit calls)
    (h : Gives (calls.forM (Source.perform ⟨schema, ∅⟩)) ∅ () after) {meant : Value → Prop}
    (ht : UniversalType name meant) (hslot : (after.slot? name).isSome = true) :
    Universal after.outcomeOf := by
  have hany : (after.slot? "Any").isSome = true := by
    cases ht with
    | any => exact hslot
    | map => exact (hs.holds hc h (by decide) hslot rfl).2 _ (List.mem_singleton_self _)
    | list => exact (hs.holds hc h (by decide) hslot rfl).2 _ (List.mem_singleton_self _)
  obtain ⟨-, hparts⟩ := hs.holds hc h (by decide) hany rfl
  refine Registry.universal_of_holds (wellFormed_of_calls h) fun other hm defn hd => ?_
  have hregistered : (after.slot? other).isSome = true := by
    rcases List.mem_cons.mp hm with rfl | hm
    · exact hany
    · obtain ⟨kind, -, rfl⟩ := List.mem_map.mp hm
      exact hparts ("member", .named kind.typeName) (by cases kind <;> decide)
  have himplicit : other ∈ implicitTypeNames := mem_implicitTypeNames hd
  exact (hs.holds hc h himplicit hregistered hd).1

/-- A converter reads the values that it is meant for exactly if all their numbers are finite, and
writes back what it has read. -/
structure Transformer.TakesFinite (transformer : Transformer) (meant : Value → Prop) : Prop where
  reads : ∀ value, meant value →
    ((∃ typed, (transformer.toTyped value).result value = .ok typed) ↔ value.Finite)
  restores : ∀ value, meant value → ∀ typed,
    (transformer.toTyped value).result value = .ok typed →
      ∃ back, (transformer.toRepresentation typed).result typed = .ok back ∧
        back = value ∧ back.same value = true

theorem Schema.KeepsImplicit.takesFinite (hs : schema.KeepsImplicit) (hc : KeepImplicit calls)
    (h : Gives (calls.forM (Source.perform ⟨schema, ∅⟩)) ∅ () after) {meant : Value → Prop}
    (hu : UniversalType name meant) {transformer : Transformer}
    (ht : after.transformer? name = some transformer) : transformer.TakesFinite meant := by
  obtain ⟨slot, hslot, rfl⟩ := Registry.transformer?_eq_some_iff.mp ht
  have huniversal := hs.universal hc h hu (Option.isSome_of_eq_some hslot)
  have houtcome : ∀ direction value, (after.convert direction slot value).result value =
      after.outcomeOf direction name value :=
    fun direction value => (Registry.outcomeOf_eq hslot direction value).symm
  refine ⟨fun value hv => ?_, fun value hv typed hread => ?_⟩
  · obtain ⟨form, hreads, -⟩ := huniversal.exists_form hu hv
    constructor
    · rintro ⟨typed, hread⟩
      rw [Transformer.toTyped, houtcome] at hread
      exact ((hreads typed).mp hread).1
    · intro hf
      refine ⟨form value, ?_⟩
      rw [Transformer.toTyped, houtcome]
      exact (hreads _).mpr ⟨hf, rfl⟩
  · obtain ⟨form, hreads, hwrites⟩ := huniversal.exists_form hu hv
    have hsound := sound_of_calls h
    obtain ⟨most, hmost⟩ := hsound.wellFormed.outcome_eq_ok_iff.mp hread
    rw [Transformer.toTyped, houtcome] at hread
    obtain ⟨hf, rfl⟩ := (hreads typed).mp hread
    refine ⟨value, ?_, rfl, hsound.same_self_of_read hmost⟩
    rw [Transformer.toRepresentation, houtcome]
    exact hwrites hf

/-- What is met from an implicit type is the same in every schema that keeps these types. -/
theorem Schema.KeepsImplicit.agreesFrom (hs : schema.KeepsImplicit)
    (hn : name ∈ implicitTypeNames) : Source.AgreesFrom ⟨∅, ∅⟩ ⟨schema, ∅⟩ name := by
  refine ⟨rfl, fun other hm _ => ?_⟩
  have hclosed : ∀ entry ∈ implicitTypeNames.map fun name => (name, TypeTerm.named name),
      ∀ defn ∈ Source.denoted? ⟨∅, ∅⟩ entry.2, ∀ part ∈ defn.parts,
        (part.2.nameIn entry.1 part.1, part.2) ∈
          implicitTypeNames.map fun name => (name, TypeTerm.named name) := by
    decide +kernel
  have hmet : (other, TypeTerm.named other) ∈
      implicitTypeNames.map fun name => (name, TypeTerm.named name) :=
    hm.mem_of_closed (List.mem_map.mpr ⟨name, hn, rfl⟩) fun entry he _ => hclosed entry he
  obtain ⟨found, hfound, he⟩ := List.mem_map.mp hmet
  cases he
  have hempty : Schema.KeepsImplicit ∅ := fun _ _ => rfl
  rw [hs.definition?_eq hfound, hempty.definition?_eq hfound]

theorem Schema.KeepsImplicit.exists_create (hs : schema.KeepsImplicit)
    (hn : name ∈ implicitTypeNames) :
    ∃ transformer, Source.create ⟨schema, ∅⟩ name = .ok transformer := by
  have hempty : ∀ name ∈ implicitTypeNames,
      (Source.create ⟨∅, ∅⟩ name).toOption.isSome = true := by
    decide +kernel
  have hsome := hempty name hn
  rw [Source.create, (hs.agreesFrom hn).after_addType_eq, ← Source.create] at hsome
  cases hc : Source.create ⟨schema, ∅⟩ name with
  | error error =>
    rw [hc] at hsome
    cases hsome
  | ok transformer => exact ⟨transformer, rfl⟩

/-- `Any` takes all values of finite numbers, `AnyMap` the maps and `AnyList` the lists among them,
in every schema that has these types as they are and whatever else was compiled; nothing is lost. -/
theorem takesFinite_of_universalType (hs : schema.KeepsImplicit) {meant : Value → Prop}
    (hu : UniversalType name meant) :
    (∃ transformer, Source.create ⟨schema, ∅⟩ name = .ok transformer ∧
        transformer.TakesFinite meant) ∧
      ∀ calls after, KeepImplicit calls →
        Gives (calls.forM (Source.perform ⟨schema, ∅⟩)) ∅ () after →
          ∀ transformer, after.transformer? name = some transformer →
            transformer.TakesFinite meant := by
  refine ⟨?_, fun calls after hc h transformer ht => hs.takesFinite hc h hu ht⟩
  obtain ⟨transformer, hcreate⟩ := hs.exists_create hu.mem_implicit
  obtain ⟨-, registry, slot, hrun, hslot, rfl⟩ := Source.create_eq_ok_iff.mp hcreate
  have hcalls : Gives ([Call.type name].forM (Source.perform ⟨schema, ∅⟩)) ∅ () registry := by
    exact gives_bind.mpr ⟨(), registry, hrun, gives_pure.mpr ⟨rfl, rfl⟩⟩
  have hkeep : KeepImplicit [Call.type name] := by nofun
  exact ⟨_, hcreate, hs.takesFinite hkeep hcalls hu
    (Registry.transformer?_eq_some_iff.mpr ⟨slot, hslot, rfl⟩)⟩

/-- Boxes hold anything and have labels of any form, and boxes may be given names. -/
def boxSchema : Schema where
  types := Table.ofList [
    ("Box", .struct { fields := Table.ofList [
      ("content", { type := .named "Any", nullable := true }),
      ("labels", { type := .named "AnyMap" })] }),
    ("Boxes", .map ⟨"String", .named "Box", false, .map⟩)]

def boxRegistry : Registry :=
  (Registry.after ∅ ([Call.all].forM (Source.perform ⟨boxSchema, ∅⟩))).2

/-- The converter of `Any` that boxes brought along takes the same values as one of its own. -/
theorem takesFinite_of_universalType_box : boxSchema.KeepsImplicit ∧
    (∃ transformer, Source.create ⟨boxSchema, ∅⟩ "Any" = .ok transformer ∧
      transformer.TakesFinite fun _ => True) ∧
    ∃ transformer, boxRegistry.transformer? "Any" = some transformer ∧
      transformer.TakesFinite fun _ => True := by
  have hs : boxSchema.KeepsImplicit := by
    unfold Schema.KeepsImplicit
    decide +kernel
  have hok : (Registry.after ∅ ([Call.all].forM (Source.perform ⟨boxSchema, ∅⟩))).1 = .ok () := by
    decide +kernel
  have h : Gives ([Call.all].forM (Source.perform ⟨boxSchema, ∅⟩)) ∅ () boxRegistry := by
    unfold boxRegistry
    exact gives_of_after hok
  have hslot : boxRegistry.slot? "Any" = some 1 := by decide +kernel
  have ht := Registry.transformer?_eq_some_iff.mpr ⟨1, hslot, rfl⟩
  have hkeep : KeepImplicit [Call.all] := by nofun
  obtain ⟨hcreate, hcalls⟩ := takesFinite_of_universalType hs .any
  exact ⟨hs, hcreate, _, ht, hcalls [Call.all] boxRegistry hkeep h _ ht⟩

end LinkedSchema
