import LinkedSchema.Proofs.Order.Ready

namespace LinkedSchema.Source

open Compilation

variable {source : Source} {whole after : Registry} {name next owner : String} {defn : TypeDefn}

namespace Faithful

variable (hn : source.NamesApart) (hf : source.Faithful whole)
  (hfull : whole.Full)
  (h : source.Placed whole name)

include hn hf hfull h

theorem compiled_of_placed (hr : source.IsRoot name) :
    ∃ slot node, whole.slot? name = some slot ∧ source.Compiled whole name node := by
  obtain ⟨slot, hs⟩ := hn.slot?_of_placed h hr
  obtain ⟨node, hnode⟩ := hfull.exists_node? (hf.bound _ _ hs)
  exact ⟨slot, node, hs, hf.compiled hr hs hnode⟩

theorem placed_next (hr : source.Refers name next) : source.Placed whole next := by
  refine hf.placed_of_refers hn h hr fun defn slot hroot ho hs => ?_
  obtain ⟨node, hnode⟩ := hfull.exists_node? (hf.bound _ _ hs)
  exact ⟨node, hf.built hn hr.1 hroot ho hs hnode⟩

theorem isValid {transform : CustomTransform} (hc : source.custom.get? name = some transform) :
    transform.isValid = true := by
  obtain ⟨_, _, _, hcompiled⟩ := hf.compiled_of_placed hn hfull h (.custom hc)
  cases hcompiled with
  | built hc' => simp [hc] at hc'
  | custom hc' hv =>
    rw [hc] at hc'
    cases hc'
    exact hv

theorem exists_built (hc : source.custom.get? name = none) (ho : source.Origin name defn)
    (hcopy : ∀ fromType, defn ≠ .copy fromType) :
    ∃ node, Built whole.slot? whole.Types name defn node := by
  obtain ⟨_, node, _, hcompiled⟩ := hf.compiled_of_placed hn hfull h (.defined hc ho hcopy)
  exact ⟨node, hcompiled.built_of_unambiguous hn.unambiguous hc ho⟩

theorem admissible (hc : source.custom.get? name = none) (ho : source.Origin name defn) :
    defn.Admissible := by
  by_cases hcopy : ∃ fromType, defn = .copy fromType
  · obtain ⟨fromType, rfl⟩ := hcopy
    trivial
  · obtain ⟨node, hb⟩ := hf.exists_built hn hfull h hc ho fun fromType he => hcopy ⟨fromType, he⟩
    exact hb.admissible

end Faithful

/-- A registry without empty slots in which no type is circular. -/
structure Whole (source : Source) (registry : Registry) : Prop where
  faithful : source.Faithful registry
  full : ∀ slot, slot < registry.nodes.size → (registry.node? slot).isSome = true
  straight : ∀ name slot, registry.slot? name = some slot → ¬source.Circular name

namespace Whole

variable (hn : source.NamesApart) (hw : source.Whole whole)

include hn hw

/-- An implicit value that could be read once can be read again. -/
theorem types (hf : source.Faithful after) (ha : source.Awaits after owner) {defn : StructDefn}
    {details : Table FieldDetails} {entry : String × StructField} {json : Json Empty}
    {literal value : Value} {slot found : Slot} (hc : source.custom.get? owner = none)
    (ho : source.Origin owner (.struct defn)) (hr : defn.representation = .map details)
    (hm : entry ∈ defn.fields.entries)
    (hi : ((details.get? entry.1).getD {}).implicit = some json) (hs : scalar? json = some literal)
    (hplaced : source.Placed whole owner)
    (hslot : whole.slot? (entry.2.type.nameIn owner entry.1) = some slot)
    (ht : whole.Types slot literal value)
    (hfound : after.slot? (entry.2.type.nameIn owner entry.1) = some found) :
    after.Types found literal value := by
  obtain ⟨target, hl, hroot, htarget⟩ := hw.faithful.root _ _ hslot
  obtain ⟨most, hmost⟩ := hw.faithful.wellFormed.outcome_eq_ok_iff.mp ht
  obtain ⟨path, hread⟩ :=
    hw.faithful.exists_readsLiteral hroot htarget (isLiteral_of_scalar? hs).scalar hmost
  obtain ⟨other, hl', hroot', hother⟩ := hf.root _ _ hfound
  rw [hn.leads_unique hl' hl hroot' hroot] at hother
  refine hf.types_of_readsLiteral hn hread hother fun via hvia place hplace => ?_
  -- An empty slot on the way would belong to a type that waits for the struct: a circular type.
  cases hnode : after.node? place with
  | some node => rfl
  | none =>
    obtain ⟨waiting, hwaiting, hs', hback⟩ := ha place (hf.bound _ _ hplace) hnode
    obtain ⟨_, _, _, hvialit⟩ := hread.of_mem hvia
    cases hf.unique via waiting place hvialit.isRoot hwaiting hplace hs'
    obtain ⟨_, hs'⟩ := hn.slot?_of_placed hplaced (.defined hc ho nofun)
    exact absurd (.intro hc ho hr hm hi hs hl hread hvia hback) (hw.straight _ _ hs')

/-- What has been compiled can be compiled again. -/
theorem compilable : source.Compilable (source.Placed whole) where
  refers h hr := hw.faithful.placed_next hn hw.full h hr
  root h := by
    obtain ⟨target, _, hl, hroot, _⟩ := h
    exact ⟨target, hl, hroot⟩
  valid h hc := hw.faithful.isValid hn hw.full h hc
  admissible h hc ho := hw.faithful.admissible hn hw.full h hc ho
  implicit {owner defn details entry json} h hc ho hr hm hi := by
    obtain ⟨_, hb⟩ := hw.faithful.exists_built hn hw.full h hc ho nofun
    obtain ⟨_, field, -, -, hfield⟩ := hb.exists_field hr hm
    obtain ⟨literal, value, hs, -, ht⟩ := hfield.exists_value hi
    exact ⟨literal, hs, fun after found hf ha hfound =>
      ⟨value, hw.types hn hf ha hc ho hr hm hi hs h hfield.slot ht hfound⟩⟩

end Whole

end LinkedSchema.Source
