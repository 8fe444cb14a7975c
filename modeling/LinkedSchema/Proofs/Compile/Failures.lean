import LinkedSchema.Proofs.Compile.Safe
import LinkedSchema.Proofs.Plain.Children

namespace LinkedSchema

namespace Child

/-- A child that converts within some steps converts. -/
theorem stop?_outcome_eq_none {registry : Registry} (hw : registry.WellFormed)
    {direction : Direction} {most : Nat} {child : Child}
    (h : child.stop? (registry.outcomeUpTo direction most) = none) :
    child.stop? (registry.outcome direction) = none := by
  cases child with
  | refused => cases h
  | kept => rfl
  | part slot value =>
    obtain ⟨converted, hc⟩ := stop?_eq_none_iff.mp h
    exact stop?_eq_none_iff.mpr ⟨converted, hw.outcome_eq_ok_iff.mpr ⟨most, hc⟩⟩

/-- Only a part of a value fails. -/
theorem exists_part_of_failed {part : PartOutcome} {child : Child} {type reason : String}
    (h : child.stop? part = some (.failed type reason)) :
    ∃ slot value, child = .part slot value ∧ part slot value = .error (.failed type reason) := by
  cases child with
  | refused => cases h
  | kept => cases h
  | part slot value => exact ⟨slot, value, rfl, stop?_eq_some_iff.mp h⟩

end Child

namespace Registry

variable {registry : Registry} {direction : Direction}

/-- The conversion of a value comes to the conversion of another, inside of it or made from it, past
children that all convert. -/
inductive Comes (registry : Registry) (direction : Direction) :
    Slot → Value → Slot → Value → Prop where
  | here (slot : Slot) (value : Value) : Comes registry direction slot value slot value
  | child {slot next last : Slot} {value part argument : Value} {node : Node}
      {before rest : List Child} (hn : registry.node? slot = some node)
      (hc : node.children? direction value = some (before ++ .part next part :: rest))
      (hb : ∀ child ∈ before, child.stop? (registry.outcome direction) = none)
      (h : Comes registry direction next part last argument) :
      Comes registry direction slot value last argument

/-- In the slot is the transform of a type, whose function gives a reason for failing. -/
def FailsAt (registry : Registry) (direction : Direction) (slot : Slot) (argument : Value)
    (type reason : String) : Prop :=
  ∃ transform f, registry.node? slot = some (.custom type transform) ∧
    transform.function? direction = some f ∧ f argument = .error reason

/-- The transform of a type fails if its function does, and on behalf of that type. -/
theorem result_convert_eq_failed_iff {transform : CustomTransform} {name type reason : String}
    {value : Value} :
    (transform.convert name direction value).result value = .error (.failed type reason) ↔
      name = type ∧ ∃ f, transform.function? direction = some f ∧ f value = .error reason := by
  unfold CustomTransform.convert Conversion.result
  cases transform.function? direction with
  | none => simp [Except.map]
  | some f =>
    simp only [Option.some.injEq, exists_eq_left']
    cases f value with
    | error given => simp [Except.map]
    | ok converted? => cases converted? <;> simp [Except.map]

namespace WellFormed

/-- What fails within some steps has come to a transform that fails. -/
theorem exists_comes_of_failed (hw : registry.WellFormed) {most : Nat} {slot : Slot} {value : Value}
    {type reason : String}
    (h : registry.outcomeUpTo direction most slot value = .error (.failed type reason)) :
    ∃ last argument, registry.Comes direction slot value last argument ∧
      registry.FailsAt direction last argument type reason := by
  induction most generalizing slot value with
  | zero => cases h
  | succ most ih =>
    cases hn : registry.node? slot with
    | none =>
      rw [outcomeUpTo_succ_of_none hn] at h
      cases h
    | some node =>
      rw [hw.outcomeUpTo_succ hn] at h
      by_cases hcustom : ∃ name transform, node = .custom name transform
      · obtain ⟨name, transform, rfl⟩ := hcustom
        obtain ⟨rfl, f, hf⟩ := result_convert_eq_failed_iff.mp h
        exact ⟨slot, value, .here slot value, transform, f, hn, hf⟩
      · have hnode := hw slot node hn
        cases hc : node.children? direction value with
        | none =>
          rw [Node.plain_of_children?_eq_none hnode hc] at h
          cases h
        | some children =>
          cases hs : children.findSome? (Child.stop? (registry.outcomeUpTo direction most)) with
          | none =>
            have hne := Node.nonconforming_of_children hnode
              (fun name transform he => hcustom ⟨name, transform, he⟩) hc hs h
            cases hne
          | some stop =>
            rw [Node.plain_of_first hc hs] at h
            cases h
            obtain ⟨before, child, rest, rfl, hstop, hbefore⟩ := List.findSome?_eq_some_iff.mp hs
            obtain ⟨next, part, rfl, hpart⟩ := Child.exists_part_of_failed hstop
            obtain ⟨last, argument, hcomes, hfails⟩ := ih hpart
            refine ⟨last, argument, .child hn hc (fun child hm => ?_) hcomes, hfails⟩
            exact Child.stop?_outcome_eq_none hw (hbefore child hm)

/-- A transform that fails is why nothing is given wherever a conversion comes to it. -/
theorem failed_of_comes (hw : registry.WellFormed) {slot last : Slot} {value argument : Value}
    {type reason : String} (h : registry.Comes direction slot value last argument)
    (hf : registry.FailsAt direction last argument type reason) :
    registry.outcome direction slot value = .error (.failed type reason) := by
  induction h with
  | here slot value =>
    obtain ⟨transform, f, hn, hf⟩ := hf
    rw [hw.outcome_eq_plain hn]
    exact result_convert_eq_failed_iff.mpr ⟨rfl, f, hf⟩
  | child hn hc hb _ ih =>
    rw [hw.outcome_eq_plain hn]
    refine Node.plain_of_first hc (List.findSome?_eq_some_iff.mpr ?_)
    exact ⟨_, _, _, rfl, stop?_eq_some_iff.mpr (ih hf), hb⟩

/-- A conversion fails exactly if it comes to a transform that fails. -/
theorem outcome_eq_failed_iff (hw : registry.WellFormed) {slot : Slot} {value : Value}
    {type reason : String} :
    registry.outcome direction slot value = .error (.failed type reason) ↔
      ∃ last argument, registry.Comes direction slot value last argument ∧
        registry.FailsAt direction last argument type reason := by
  constructor
  · intro h
    exact hw.exists_comes_of_failed h
  · intro h
    obtain ⟨last, argument, hcomes, hfails⟩ := h
    exact hw.failed_of_comes hcomes hfails

end WellFormed

/-- What decides a conversion by a list, a map or a struct. -/
structure DecidedByChildren (registry : Registry) (direction : Direction) (slot : Slot)
    (node : Node) (value : Value) : Prop where
  /-- A value of another kind, or a tuple of another size, is refused before any child is met. -/
  whole : ¬node.TakesApart direction value →
    registry.convert direction slot value = .error .nonconforming
  /-- All other values have children. -/
  apart : node.TakesApart direction value → ∃ children,
    node.children? direction value = some children
  /-- The first child that does not convert decides. -/
  first : ∀ before child rest stop,
    node.children? direction value = some (before ++ child :: rest) →
      (∀ child ∈ before, child.stop? (registry.outcome direction) = none) →
        child.stop? (registry.outcome direction) = some stop →
          registry.convert direction slot value = .error stop
  /-- Missing fields matter only if all children convert. -/
  missing : ∀ children, node.children? direction value = some children →
    (∀ child ∈ children, child.stop? (registry.outcome direction) = none) →
      if node.lacksField direction value then
        registry.convert direction slot value = .error .nonconforming
      else ∃ change, registry.convert direction slot value = .ok change

/-- The stop of a conversion is that of its outcome. -/
theorem convert_eq_error_iff {slot : Slot} {value : Value} {stop : Stop} :
    registry.convert direction slot value = .error stop ↔
      registry.outcome direction slot value = .error stop := by
  simp only [outcome, PartConversion.result, Conversion.result]
  cases registry.convert direction slot value <;> simp [Except.map]

theorem WellFormed.decidedByChildren (hw : registry.WellFormed) {slot : Slot} {node : Node}
    (hn : registry.node? slot = some node) (hc : node.IsCollection) (direction : Direction)
    (value : Value) : registry.DecidedByChildren direction slot node value := by
  have hplain : registry.outcome direction slot value =
      node.plain direction (registry.outcome direction) value := hw.outcome_eq_plain hn
  refine ⟨fun ha => ?_, fun ha => ?_, fun before child rest stop h hb hs => ?_,
    fun children h hs => ?_⟩
  · rw [convert_eq_error_iff, hplain]
    exact Node.plain_of_children?_eq_none (hw slot node hn) ((Node.children?_eq_none_iff hc).mpr ha)
  · refine Option.ne_none_iff_exists'.mp fun hnone => ?_
    exact (Node.children?_eq_none_iff hc).mp hnone ha
  · rw [convert_eq_error_iff, hplain]
    exact Node.plain_of_first h (List.findSome?_eq_some_iff.mpr ⟨before, child, rest, rfl, hs, hb⟩)
  · have hstop := Node.stop?_plain (registry.outcome direction) hc h
    rw [List.findSome?_eq_none_iff.mpr hs, ← hplain] at hstop
    split <;> rename_i hl
    · rw [hl] at hstop
      exact convert_eq_error_iff.mpr (stop?_eq_some_iff.mp hstop)
    · rw [Bool.eq_false_iff.mpr hl] at hstop
      cases hr : registry.convert direction slot value with
      | ok change => exact ⟨change, rfl⟩
      | error stop =>
        rw [convert_eq_error_iff.mp hr] at hstop
        cases hstop

end Registry

open Compilation

variable {source : Source} {calls : List Call} {after : Registry}

/-- A slot with a transform has that of its type. -/
theorem custom_of_calls (h : Gives (calls.forM source.perform) ∅ () after) {slot : Slot}
    {type : String} {transform : CustomTransform}
    (hn : after.node? slot = some (.custom type transform)) :
    source.custom.get? type = some transform := by
  obtain ⟨name, hc⟩ := compiledFrom_of_calls h hn
  cases hc with
  | custom hc => rwa [Source.custom_inForce] at hc
  | defined _ _ hb => exact (hb.untransformed).elim

/-- A conversion fails exactly if it comes to a transform that fails, with the type and the reason
of that transform; nothing else is a failure. In a list, a map or a struct the first child that does
not convert decides. -/
theorem failed_iff_of_calls (h : Gives (calls.forM source.perform) ∅ () after) {name : String}
    {transformer : Transformer} (ht : after.transformer? name = some transformer)
    (direction : Direction) (value : Value) :
    (∀ type reason, transformer.convert direction value = .error (.failed type reason) ↔
      ∃ last argument transform f,
        after.Comes direction transformer.slot value last argument ∧
          after.node? last = some (.custom type transform) ∧
          source.custom.get? type = some transform ∧
          transform.function? direction = some f ∧ f argument = .error reason) ∧
    ((∀ type transform f, source.custom.get? type = some transform →
        transform.function? direction = some f → ∀ argument reason, f argument ≠ .error reason) →
      ∀ stop, transformer.convert direction value = .error stop →
        stop = .nonconforming ∨ stop = .exhausted) ∧
    ∀ slot node part, after.node? slot = some node → node.IsCollection →
      after.DecidedByChildren direction slot node part := by
  obtain ⟨slot, -, rfl⟩ := Registry.transformer?_eq_some_iff.mp ht
  have hw := wellFormed_of_calls h
  have hfailed : ∀ type reason,
      after.convert direction slot value = .error (.failed type reason) ↔
        ∃ last argument transform f,
          after.Comes direction slot value last argument ∧
            after.node? last = some (.custom type transform) ∧
            source.custom.get? type = some transform ∧
            transform.function? direction = some f ∧ f argument = .error reason := by
    intro type reason
    rw [Registry.convert_eq_error_iff, hw.outcome_eq_failed_iff]
    constructor
    · intro hcomes
      obtain ⟨last, argument, hcomes, transform, f, hn, hf⟩ := hcomes
      exact ⟨last, argument, transform, f, hcomes, hn, custom_of_calls h hn, hf⟩
    · intro hcomes
      obtain ⟨last, argument, transform, f, hcomes, hn, -, hf⟩ := hcomes
      exact ⟨last, argument, hcomes, transform, f, hn, hf⟩
  refine ⟨hfailed, fun hnever stop hstop => ?_, fun slot node part hn hc =>
    hw.decidedByChildren hn hc direction part⟩
  cases stop with
  | nonconforming => exact .inl rfl
  | exhausted => exact .inr rfl
  | impossible => exact absurd hstop (hw.convertUpTo_ne_impossible direction _ slot value)
  | failed type reason =>
    obtain ⟨last, argument, transform, f, -, -, hcustom, hf, he⟩ := (hfailed type reason).mp hstop
    exact absurd he (hnever type transform f hcustom hf argument reason)

/-- Shipments go somewhere and hold crates, which are opened when shipments are read. -/
def shipmentSource : Source where
  schema := { types := Table.ofList [
    ("Crate", .string),
    ("Shipment", .struct { fields := Table.ofList [
      ("crates", { type := .list ⟨.named "Crate", false, .list⟩ }),
      ("to", { type := .named "String" })] })] }
  custom := Table.ofList [("Crate", {
    toTyped := some fun value =>
      if value = .string "glass" then .error "broken" else .ok (some value) })]

def shipmentRegistry : Registry :=
  (Registry.after ∅ ([Call.all].forM shipmentSource.perform)).2

/-- It goes nowhere, and has a key too many. -/
def shipmentGiven : Value :=
  .map (.ofList [("crates", .list [.string "cloth", .string "glass", .string "cloth"]),
    ("zone", .null)])

/-- The broken crate comes first, before the unknown key and the missing field. -/
theorem failed_iff_of_calls_shipment : ∃ transformer,
    shipmentRegistry.transformer? "Shipment" = some transformer ∧
      transformer.convert .toTyped shipmentGiven = .error (.failed "Crate" "broken") ∧
      ∃ last argument transform f,
        shipmentRegistry.Comes .toTyped transformer.slot shipmentGiven last argument ∧
          shipmentRegistry.node? last = some (.custom "Crate" transform) ∧
          shipmentSource.custom.get? "Crate" = some transform ∧
          transform.function? .toTyped = some f ∧ f argument = .error "broken" := by
  have hok : (Registry.after ∅ ([Call.all].forM shipmentSource.perform)).1 = .ok () := by
    decide +kernel
  have h : Gives ([Call.all].forM shipmentSource.perform) ∅ () shipmentRegistry :=
    Prod.ext hok rfl
  have hslot : shipmentRegistry.slot? "Shipment" = some 1 := by decide +kernel
  have ht := Registry.transformer?_eq_some_iff.mpr ⟨1, hslot, rfl⟩
  have hfailed : shipmentRegistry.convert .toTyped 1 shipmentGiven =
      .error (.failed "Crate" "broken") := by
    decide +kernel
  obtain ⟨hiff, -, -⟩ := failed_iff_of_calls h ht .toTyped shipmentGiven
  exact ⟨_, ht, hfailed, (hiff "Crate" "broken").mp hfailed⟩

end LinkedSchema
