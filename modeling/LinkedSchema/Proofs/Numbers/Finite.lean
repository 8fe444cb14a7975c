import LinkedSchema.Proofs.Compile.Provenance
import LinkedSchema.Proofs.RoundTrip.Schema

namespace LinkedSchema

open Compilation

variable {schema : Schema} {calls : List Call} {after : Registry}

/-- What calls without transforms compile takes no transform, and implicit values from scalars. -/
theorem sound_of_calls (h : Gives (calls.forM (Source.perform ⟨schema, ∅⟩)) ∅ () after) :
    after.Sound := by
  refine Registry.sound_of_built (wellFormed_of_calls h) fun slot node hn => ?_
  obtain ⟨owner, hc⟩ := compiledFrom_of_calls h hn
  cases hc with
  | custom hc =>
    rw [Source.custom_inForce] at hc
    cases hc
  | defined _ _ hb => exact ⟨owner, _, hb⟩

/-- No number that is infinite or a NaN is in a value that is converted, or in what it is converted
to. -/
theorem finite_of_convert (h : Gives (calls.forM (Source.perform ⟨schema, ∅⟩)) ∅ () after)
    {name : String} {transformer : Transformer} (ht : after.transformer? name = some transformer)
    {direction : Direction} {value result : Value}
    (hc : (transformer.convert direction value).result value = .ok result) :
    value.Finite ∧ result.Finite := by
  obtain ⟨slot, -, rfl⟩ := Registry.transformer?_eq_some_iff.mp ht
  have hs := sound_of_calls h
  obtain ⟨most, hc⟩ := hs.wellFormed.outcome_eq_ok_iff.mp hc
  exact hs.passesFinite direction most slot value result hc

/-- Probes have a level, whole or not, and an offset that is one half unless it is given. -/
def probeSchema : Schema where
  types := Table.ofList [
    ("Level", .union ⟨["Int", "Float"],
      .kinded (Table.ofList [("int", "Int"), ("float", "Float")])⟩),
    ("Probe", .struct ⟨Table.ofList [("level", ⟨.named "Level", false, false⟩),
      ("offset", ⟨.named "Float", false, false⟩)],
      .map (Table.ofList [("offset", ⟨none, some (.float ⟨0x3fe0000000000000⟩)⟩)])⟩)]

def probeRegistry : Registry :=
  (Registry.after ∅ ([Call.all].forM (Source.perform ⟨probeSchema, ∅⟩))).2

/-- A level and no offset. -/
def probeGiven : Value :=
  .map (.ofList [("level", .float ⟨0x3ff8000000000000⟩)])

def probeTyped : Value :=
  .map (.ofList [("level", .map (.ofList [("Float", .float ⟨0x3ff8000000000000⟩)])),
    ("offset", .float ⟨0x3fe0000000000000⟩)])

/-- The offset is filled in when a probe is read, and left out when it is written. -/
theorem finite_of_convert_probe : ∃ transformer,
    probeRegistry.transformer? "Probe" = some transformer ∧
      (transformer.convert .toTyped probeGiven).result probeGiven = .ok probeTyped ∧
      (transformer.convert .toRepresentation probeTyped).result probeTyped = .ok probeGiven ∧
      (probeGiven.Finite ∧ probeTyped.Finite) ∧ probeTyped.Finite ∧ probeGiven.Finite := by
  have hok : (Registry.after ∅ ([Call.all].forM (Source.perform ⟨probeSchema, ∅⟩))).1 = .ok () := by
    decide +kernel
  have h : Gives ([Call.all].forM (Source.perform ⟨probeSchema, ∅⟩)) ∅ () probeRegistry :=
    Prod.ext hok rfl
  have hslot : probeRegistry.slot? "Probe" = some 3 := by decide +kernel
  have ht := Registry.transformer?_eq_some_iff.mpr ⟨3, hslot, rfl⟩
  have hread : (probeRegistry.convert .toTyped 3 probeGiven).result probeGiven =
      .ok probeTyped := by
    decide +kernel
  have hwrite : (probeRegistry.convert .toRepresentation 3 probeTyped).result probeTyped =
      .ok probeGiven := by
    decide +kernel
  exact ⟨_, ht, hread, hwrite, finite_of_convert h ht hread, finite_of_convert h ht hwrite⟩

end LinkedSchema
