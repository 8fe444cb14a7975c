import LinkedSchema.Proofs.Compile.Provenance
import LinkedSchema.Proofs.Implicit.Insertion
import LinkedSchema.Proofs.RoundTrip.Scalars

namespace LinkedSchema

namespace Registry

variable {registry : Registry} {slot : Slot} {layout : StructMap} {field : Field}
  {literal typed : Value}

/-- A struct is read alike with the literal under the key and without the key, and is written alike
with the typed value, or an equal one, under the name and without the name. -/
structure Omissible (registry : Registry) (slot : Slot) (name key : String)
    (literal typed : Value) : Prop where
  read : ∀ given : SortedMap Value none, given.get? key = none →
    registry.outcome .toTyped slot (.map given) =
      registry.outcome .toTyped slot (.map (given.insert key literal))
  write : ∀ (shown : SortedMap Value none) (value : Value), shown.get? name = none →
    typed.same value = true → registry.outcome .toRepresentation slot (.map shown) =
      registry.outcome .toRepresentation slot (.map (shown.insert name value))

theorem WellFormed.omissible (hw : registry.WellFormed)
    (hn : registry.node? slot = some (.structMap layout)) (hm : field ∈ layout.fields.values)
    (hi : field.implicit = some typed)
    (hl : field.type.plain (registry.outcome .toTyped) literal = .ok typed) :
    registry.Omissible slot field.name field.key literal typed := by
  have hlayout : layout.WellFormed := hw slot _ hn
  refine ⟨fun given hg => ?_, fun shown value hg he => ?_⟩
  · rw [hw.outcome_eq_plain hn, hw.outcome_eq_plain hn]
    exact Plain.readStruct_insert hlayout.names hlayout.keys hm hi hl hg
  · rw [hw.outcome_eq_plain hn, hw.outcome_eq_plain hn]
    exact Plain.writeStruct_insert hlayout.names hm hi he hg

end Registry

/-- What a union leaves of a scalar equals itself if the scalar does. -/
theorem Strategy.same_self_of_scalar {strategy : Strategy} {value content : Value} {place : Nat}
    (h : strategy.select? value = some (place, content)) (hv : (Kind.of value).isScalar = true)
    (hs : value.same value = true) : content.same content = true := by
  cases selects_of_select? h with
  | kinded => exact hs
  | stringPrefix => simp [Value.same]
  | bytesPrefix => simp [Value.same]
  | _ => cases hv

namespace Source

variable {source : Source} {calls : List Call} {after : Registry} {owner name : String}
  {defn : StructDefn} {details : Table FieldDetails} {slot : Slot} {layout : StructMap}

/-- The values that transforms make equal themselves: there is no NaN in them. -/
def MakesNoNaN (source : Source) : Prop :=
  ∀ name transform f value typed, source.custom.get? name = some transform →
    transform.toTyped = some f → f value = .ok (some typed) → typed.same typed = true

theorem MakesNoNaN.same_self_of_convert (hf : source.MakesNoNaN) {transform : CustomTransform}
    {value typed : Value} (hc : source.custom.get? name = some transform)
    (hs : value.same value = true)
    (h : (transform.convert name .toTyped value).result value = .ok typed) :
    typed.same typed = true := by
  unfold CustomTransform.convert at h
  split at h
  · cases h
    exact hs
  · rename_i f hfunction
    split at h
    · rename_i converted hconverted
      cases h
      exact hf name transform f value _ hc hfunction hconverted
    · cases h
    · cases h

open Compilation

/-- A scalar without a NaN is read as a value without one. -/
theorem MakesNoNaN.same_self_of_scalar (hf : source.MakesNoNaN)
    (h : Gives (calls.forM source.perform) ∅ () after) {most : Nat} {value typed : Value}
    (hv : (Kind.of value).isScalar = true) (hs : value.same value = true)
    (hr : after.outcomeUpTo .toTyped most slot value = .ok typed) :
    typed.same typed = true := by
  induction most generalizing slot value typed with
  | zero => cases hr
  | succ most ih =>
    obtain ⟨less, node, he, hn, hr⟩ := (wellFormed_of_calls h).exists_of_outcomeUpTo hr
    cases he
    obtain ⟨owner, hc⟩ := compiledFrom_of_calls h hn
    cases hc with
    | custom hc =>
      rw [custom_inForce] at hc
      exact hf.same_self_of_convert hc hs hr
    | defined _ _ hb =>
      cases Node.readsScalar hb.wellFormed hb.untransformed hv hr with
      | kind hk ha => exact Value.same_self_of_admits hk ha
      | enum _ => simp [Value.same]
      | union hselect _ hc hk =>
        exact Value.same_singleton_iff.mpr
          ⟨rfl, ih hk (Strategy.same_self_of_scalar hselect hv hs) hc⟩

end Source

open Compilation

variable {source : Source} {calls : List Call} {after : Registry}

/-- A field with a declared implicit value may be left out or given, in every struct that was
compiled: its name leads along copies to the definition that it was compiled from. What the field is
given as is the literal in the representation, and in the typed form what the type of the field
reads from the literal, unless that has a NaN in it, as only a transform can make one. -/
theorem omissible_of_calls (h : Gives (calls.forM source.perform) ∅ () after) {name : String}
    {transformer : Transformer} (ht : after.transformer? name = some transformer)
    {layout : StructMap} (hn : after.node? transformer.slot = some (.structMap layout)) :
    ∃ owner defn details,
      Relation.ReflTransGen ((source.inForce calls).Copies after) name owner ∧
      (source.inForce calls).definition? owner = some (.struct defn) ∧
      defn.representation = .map details ∧
      Built after.slot? after.Types owner (.struct defn) (.structMap layout) ∧
      ∀ field part detail json, defn.fields.get? field = some part →
        details.get? field = some detail → detail.implicit = some json →
          ∃ literal typed slot, scalar? json = some literal ∧
            after.slot? (part.type.nameIn owner field) = some slot ∧
            after.outcome .toTyped slot literal = .ok typed ∧
            (source.MakesNoNaN → literal.same literal = true → typed.same typed = true) ∧
            after.Omissible transformer.slot field (detail.rename.getD field) literal typed := by
  obtain ⟨slot, hs, rfl⟩ := Registry.transformer?_eq_some_iff.mp ht
  have hw := wellFormed_of_calls h
  obtain ⟨owner, node, hl, -, hnode, hc⟩ := exists_leads_of_calls h hs
  cases hn.symm.trans hnode
  cases hc with
  | defined _ hd hb =>
    obtain ⟨defn, details, rfl, hr⟩ := hb.exists_struct
    refine ⟨owner, defn, details, hl, hd.origin.struct, hr, hb,
      fun field part detail json hf hdetail hi => ?_⟩
    obtain ⟨_, compiled, he, hcompiled, hfield⟩ :=
      hb.exists_field hr (Table.get?_eq_some_iff.mp hf)
    cases he
    simp only [hdetail, Option.getD_some] at hfield
    obtain ⟨literal, typed, hliteral, hvalue, htyped⟩ := hfield.exists_value hi
    have hscalar := isLiteral_of_scalar? hliteral
    have hplain : compiled.type.plain (after.outcome .toTyped) literal = .ok typed :=
      (Plain.nullable_of_not fun hnull => hscalar.ne_null hnull.2).trans htyped
    refine ⟨literal, typed, compiled.type.slot, hliteral, hfield.slot, htyped, ?_, ?_⟩
    · intro hnan hsame
      obtain ⟨most, hread⟩ := hw.outcome_eq_ok_iff.mp htyped
      exact hnan.same_self_of_scalar h hscalar.scalar hsame hread
    · rw [← hfield.key, ← show compiled.name = field from hfield.name]
      exact hw.omissible hn hcompiled hvalue hplain

/-- Parcels have a size that need not be given, and a weight. -/
def parcel : StructDefn where
  fields := Table.ofList [("size", ⟨.named "Size", false, false⟩),
    ("weight", ⟨.named "Weight", false, false⟩)]
  representation := .map (Table.ofList [("size", ⟨some "s", some (.int 0)⟩)])

/-- A package is a parcel, which is not declared; a transform reads weights. -/
def parcelSource : Source where
  schema := { types := Table.ofList [
    ("Size", .enum ⟨["Small", "Large"], .int (Table.ofList [("Small", 0), ("Large", 1)])⟩),
    ("Weight", .int), ("Package", .copy "Parcel")] }
  custom := Table.ofList [("Weight", {
    toTyped := some fun value =>
      match value with
      | .int n => .ok (some (.list [.int n, .string "g"]))
      | _ => .ok none })]

def parcelCalls : List Call :=
  [.defn "Parcel" (.struct parcel), .type "Package"]

def parcelRegistry : Registry :=
  (Registry.after ∅ (parcelCalls.forM parcelSource.perform)).2

/-- A package is small if nothing is said about its size. -/
theorem omissible_of_calls_parcel :
    Gives (parcelCalls.forM parcelSource.perform) ∅ () parcelRegistry ∧
      ∃ transformer, parcelRegistry.transformer? "Package" = some transformer ∧
        parcelRegistry.Omissible transformer.slot "size" "s" (.int 0) (.string "Small") := by
  have hok : (Registry.after ∅ (parcelCalls.forM parcelSource.perform)).1 = .ok () := by
    decide +kernel
  have h : Gives (parcelCalls.forM parcelSource.perform) ∅ () parcelRegistry := Prod.ext hok rfl
  have hslot : parcelRegistry.slot? "Package" = some 0 := by decide +kernel
  have ht := Registry.transformer?_eq_some_iff.mpr ⟨0, hslot, rfl⟩
  have hn : parcelRegistry.node? 0 = some (.structMap (.ofFields
      [⟨"size", "s", ⟨1, false⟩, false, some (.string "Small")⟩,
        ⟨"weight", "weight", ⟨2, false⟩, false, none⟩])) := rfl
  obtain ⟨owner, defn, details, -, hd, hr, -, homits⟩ := omissible_of_calls h ht hn
  obtain ⟨rfl, rfl⟩ : owner = "Parcel" ∧ defn = parcel := by
    rcases Source.definition?_inForce hd with hd | hd
    · simpa [givenDefinitions, parcelCalls] using hd
    -- Only the definition that is given by hand is that of a struct.
    · have hdeclared : ∀ entry ∈ parcelSource.schema.types.entries, entry.2.keyword ≠ "struct" := by
        decide +kernel
      rcases Source.definition?_eq_some_iff.mp hd with hd | ⟨-, hd⟩
      · exact absurd rfl (hdeclared _ (Table.get?_eq_some_iff.mp hd))
      · unfold implicitType? at hd
        split at hd <;> cases hd
  cases hr
  obtain ⟨literal, typed, slot, hliteral, hsize, htyped, -, homissible⟩ :=
    homits "size" ⟨.named "Size", false, false⟩ ⟨some "s", some (.int 0)⟩ (.int 0) rfl rfl rfl
  have hslot' : parcelRegistry.slot? "Size" = some 1 := by decide +kernel
  have hsmall : parcelRegistry.outcome .toTyped 1 (.int 0) = .ok (.string "Small") := by
    decide +kernel
  cases hliteral
  cases hslot'.symm.trans hsize
  cases hsmall.symm.trans htyped
  exact ⟨h, _, ht, homissible⟩

/-- Gauges have a level, which is unknown if it is not given. Whatever stands for a level is read as
a NaN. -/
def gaugeSource : Source where
  schema := { types := Table.ofList [
    ("Level", .string),
    ("Gauge", .struct ⟨Table.ofList [("level", ⟨.named "Level", false, false⟩)],
      .map (Table.ofList [("level", ⟨none, some (.string "unknown")⟩)])⟩)] }
  custom := Table.ofList [("Level", {
    toTyped := some fun _ => .ok (some (.float ⟨0x7ff8000000000000⟩)) })]

def gaugeRegistry : Registry :=
  (Registry.after ∅ (gaugeSource.addType "Gauge")).2

/-- A NaN is not the same as itself, so the level that a gauge is read with when none is given is
written when it is given. -/
theorem exists_written_apart_gauge :
    Gives (gaugeSource.addType "Gauge") ∅ () gaugeRegistry ∧ ∃ gauge level typed,
      gaugeRegistry.transformer? "Gauge" = some gauge ∧
      gaugeRegistry.transformer? "Level" = some level ∧
      (level.toTyped (.string "unknown")).result (.string "unknown") = .ok typed ∧
      (gauge.toTyped (.map ∅)).result (.map ∅) = .ok (.map (SortedMap.singleton "level" typed)) ∧
      (gauge.toRepresentation (.map ∅)).result (.map ∅) = .ok (.map ∅) ∧
      (gauge.toRepresentation (.map (SortedMap.singleton "level" typed))).result
          (.map (SortedMap.singleton "level" typed)) =
        .ok (.map (SortedMap.singleton "level" typed)) := by
  have hok : (Registry.after ∅ (gaugeSource.addType "Gauge")).1 = .ok () := by decide +kernel
  refine ⟨Prod.ext hok rfl, ⟨"Gauge", 0, gaugeRegistry⟩, ⟨"Level", 1, gaugeRegistry⟩,
    .float ⟨0x7ff8000000000000⟩, ?_, ?_, ?_, ?_, ?_, ?_⟩
  · exact Registry.transformer?_eq_some_iff.mpr ⟨0, by decide +kernel, rfl⟩
  · exact Registry.transformer?_eq_some_iff.mpr ⟨1, by decide +kernel, rfl⟩
  all_goals decide +kernel

end LinkedSchema
