import LinkedSchema.Proofs.Order.Finished
import LinkedSchema.Proofs.Order.Progress
import LinkedSchema.Proofs.Order.Reachable

namespace LinkedSchema

namespace Source

open Compilation

/-- No field of a declared type has an implicit value. -/
def NoImplicits (source : Source) : Prop :=
  ∀ entry ∈ source.schema.types.entries, entry.2.implicits = []

/-- A reference is to a type with a transform that has a direction, or to an admissible definition,
which is no copy that comes back to itself. -/
inductive Acceptable (source : Source) (name : String) (term : TypeTerm) : Prop where
  | custom {transform : CustomTransform} (hc : source.custom.get? name = some transform)
      (hv : transform.isValid = true)
  | defined {defn : TypeDefn} (hc : source.custom.get? name = none)
      (hd : source.denoted? term = some defn) (ha : defn.Admissible)
      (hcopy : ∀ next, defn = .copy next → ¬source.Leads next name)

/-- All that is met on the way from a type is acceptable. -/
def WellFormedFrom (source : Source) (root : String) : Prop :=
  ∀ name term, source.Meets root name term → source.Acceptable name term

variable {source : Source} {root name : String} {term : TypeTerm} {defn : TypeDefn}
  {whole registry : Registry}

section Sound

variable (hn : source.NamesApart)

include hn

theorem Meets.means (hm : source.Means root (.named root)) (h : source.Meets root name term) :
    source.Means name term := by
  cases h with
  | root => exact hm
  | part h hc hd hp => exact hn.means_part (h.origin hc hd) hc hp

/-- All that is met on the way from a compiled type is compiled, too. -/
theorem Faithful.placed_of_meets (hf : source.Faithful whole)
    (hfull : whole.Full)
    (hp : source.Placed whole root) (h : source.Meets root name term) :
    source.Placed whole name := by
  induction h with
  | root => exact hp
  | part h hc hd hp ih =>
    exact hf.placed_next hn hfull ih ⟨hc, _, h.origin hc hd, _, hp, rfl⟩

/-- What has been compiled is acceptable. -/
theorem Faithful.acceptable (hf : source.Faithful whole)
    (hfull : whole.Full)
    (hm : source.Means name term) (hp : source.Placed whole name) :
    source.Acceptable name term := by
  cases hc : source.custom.get? name with
  | some transform => exact .custom hc (hf.isValid hn hfull hp hc)
  | none =>
    -- What the reference stands for is also what was compiled, since made-up names are apart.
    obtain ⟨target, _, hl, hroot, -⟩ := id hp
    obtain ⟨defn, hd, ho⟩ : ∃ defn, source.denoted? term = some defn ∧ source.Origin name defn := by
      cases hm with
      | named hm =>
        obtain ⟨defn, hd⟩ := hl.exists_definition? hroot hm hc
        exact ⟨defn, hd, .declared hd⟩
      | inline hi hm => exact ⟨_, denoted?_of_inline? hi, .inline hm⟩
    refine .defined hc hd (hf.admissible hn hfull hp hc ho) ?_
    rintro next rfl
    exact hn.not_leads_back hl hroot hc ho.copy

theorem wellFormedFrom_of_addType (h : Gives (source.addType root) ∅ () registry) :
    source.WellFormedFrom root := by
  obtain ⟨hcompiles, hs⟩ := compiles_addType .empty h
  obtain ⟨slot, hs⟩ := Option.isSome_iff_exists.mp hs
  have hf : source.Faithful registry := Faithful.empty.moves hn hcompiles.moves
  intro name term hmeets
  exact hf.acceptable hn hcompiles.full (hmeets.means hn (hn.means_named rfl h))
    (hf.placed_of_meets hn hcompiles.full (hf.placed hs) hmeets)

end Sound

section Complete

/-- Fields of structs without implicit values have none, whatever they are called. -/
theorem implicit_eq_none {struct : StructDefn} {details : Table FieldDetails}
    (hr : struct.representation = .map details) (h : (TypeDefn.struct struct).implicits = [])
    (field : String) : ((details.get? field).getD {}).implicit = none := by
  obtain ⟨fields, representation⟩ := struct
  cases hr
  cases hg : details.get? field with
  | none => rfl
  | some detail =>
    rw [TypeDefn.implicits, List.filterMap_eq_nil_iff] at h
    exact h detail (List.mem_map_of_mem (Table.get?_eq_some_iff.mp hg))

theorem NoImplicits.implicits_eq_nil (hi : source.NoImplicits)
    (hd : source.definition? name = some defn) : defn.implicits = [] := by
  rcases definition?_eq_some_iff.mp hd with hd | ⟨-, hd⟩
  · exact hi _ (Table.get?_eq_some_iff.mp hd)
  · unfold implicitType? at hd
    split at hd <;> cases hd <;> rfl

variable (hw : source.WellFormedFrom root)

include hw

/-- Chains of copies that are met have an end: every name in them is a new one. -/
theorem WellFormedFrom.exists_target (h : source.Meets root name term) {chain : List String}
    {most : Nat} (hchain : ∀ other ∈ chain, source.Before name other) (hnodup : chain.Nodup)
    (hmost : source.schema.types.size < most + chain.length) :
    ∃ target, source.Leads name target ∧ source.IsRoot target := by
  -- The chain so far has declared names only, each once, so it is not longer than the schema.
  induction most generalizing name term chain with
  | zero =>
    have hle := length_le_of_before hchain hnodup
    omega
  | succ most ih =>
    cases hw name term h with
    | custom hc => exact ⟨name, .refl name, .custom hc⟩
    | @defined defn hc hd _ hback =>
      by_cases hcopy : ∃ next, defn = .copy next
      · obtain ⟨next, rfl⟩ := hcopy
        have hnext := (h.origin hc hd).copy
        have hnew : name ∉ chain := by
          intro hmem
          obtain ⟨-, other, hother, hleads⟩ := hchain name hmem
          rw [hnext] at hother
          cases hother
          exact hback next rfl hleads
        obtain ⟨hchain', hnodup'⟩ := before_next hchain hnodup hnew hc hnext
        have hmeets : source.Meets root next (.named next) :=
          .part h hc hd (List.mem_singleton_self ("fromType", TypeTerm.named next))
        obtain ⟨target, hl, hroot⟩ := ih hmeets hchain' hnodup' (by
          rw [List.length_append, List.length_singleton]
          omega)
        exact ⟨target, .copy hc hnext hl, hroot⟩
      · exact ⟨name, .refl name,
          .defined hc (h.origin hc hd) fun next he => hcopy ⟨next, he⟩⟩

theorem WellFormedFrom.compilable (hn : source.NamesApart) (hi : source.NoImplicits) :
    source.Compilable fun name => ∃ term, source.Meets root name term where
  refers {name next} h hr := by
    obtain ⟨term, hmeets⟩ := h
    obtain ⟨hc, defn, ho, part, hp, rfl⟩ := hr
    cases hw name term hmeets with
    | custom hc' => simp [hc] at hc'
    | defined _ hd _ _ =>
      cases hn.origin_unique ho (hmeets.origin hc hd)
      exact ⟨part.2, .part hmeets hc hd hp⟩
  root h := by
    obtain ⟨term, hmeets⟩ := h
    exact hw.exists_target hmeets (List.forall_mem_nil _) List.nodup_nil (Nat.lt_succ_self _)
  valid {name transform} h hc := by
    obtain ⟨term, hmeets⟩ := h
    cases hw name term hmeets with
    | custom hc' hv =>
      rw [hc] at hc'
      cases hc'
      exact hv
    | defined hc' => simp [hc] at hc'
  admissible {name defn} h hc ho := by
    obtain ⟨term, hmeets⟩ := h
    cases hw name term hmeets with
    | custom hc' => simp [hc] at hc'
    | defined _ hd ha _ =>
      cases hn.origin_unique ho (hmeets.origin hc hd)
      exact ha
  implicit _ _ ho hr _ hj := by
    rw [implicit_eq_none hr (hi.implicits_eq_nil ho.struct)] at hj
    cases hj

theorem WellFormedFrom.exists_addType (hn : source.NamesApart) (hi : source.NoImplicits) :
    ∃ registry, Gives (source.addType root) ∅ () registry := by
  have hmeans : source.Means root (.named root) := by
    refine .named fun defn hm => ?_
    cases hw root _ .root with
    | custom hc => simp [hn.custom _ hm] at hc
    | defined _ hd _ _ =>
      change source.definition? root = _ at hd
      simp [hn.definition?_eq_none hm] at hd
  refine Source.exists_addType hn (hw.compilable hn hi) hmeans ⟨_, .root⟩ .empty ?_
  intro slot hlt _
  exact absurd hlt (Nat.not_lt_zero slot)

end Complete

end Source

open Source

/-- A converter can be made for a type exactly if all that is met on the way from it is well-formed,
where no field has an implicit value and no made-up name clashes with another. -/
theorem exists_create_iff_wellFormedFrom {source : Source} {root : String}
    (hn : source.NamesApart) (hi : source.NoImplicits) (hr : root.isEmpty = false) :
    (∃ transformer, source.create root = .ok transformer) ↔ source.WellFormedFrom root := by
  constructor
  · intro h
    obtain ⟨transformer, h⟩ := h
    obtain ⟨-, registry, _, hadd, -⟩ := create_eq_ok_iff.mp h
    exact wellFormedFrom_of_addType hn hadd
  · intro hw
    obtain ⟨registry, hadd⟩ := hw.exists_addType hn hi
    obtain ⟨slot, hs⟩ := Option.isSome_iff_exists.mp (compiles_addType .empty hadd).2
    exact ⟨_, create_eq_ok_iff.mpr ⟨hr, registry, slot, hadd, hs, rfl⟩⟩

/-- An orchard with rows of trees, which branch into trees, and with a keeper, who is known from
elsewhere. The bed refers to a map that is not keyed by texts. -/
def orchardSource : Source where
  schema := { types := Table.ofList [
    ("Orchard", .struct {
      fields := Table.ofList [
        ("rows", { type := .list ⟨.list ⟨.named "Tree", false, .list⟩, false, .list⟩ }),
        ("keeper", { type := .named "Keeper", nullable := true })]
      representation := .map (Table.ofList [("rows", { rename := some "trees" })]) }),
    ("Tree", .union ⟨["Branch", "Leaf"],
      .kinded (Table.ofList [("list", "Branch"), ("string", "Leaf")])⟩),
    ("Branch", .list ⟨.named "Tree", false, .list⟩),
    ("Leaf", .copy "Label"),
    ("Label", .enum ⟨["Oak", "Elm"], .string (Table.ofList [("Oak", "o")])⟩),
    ("Bed", .list ⟨.named "Weeds", false, .list⟩),
    ("Weeds", .map ⟨"Int", .named "Label", false, .map⟩)] }
  custom := Table.ofList [("Keeper", { toTyped := some fun value => .ok (some value) })]

/-- The orchard is well-formed, though the schema has a type that is not; the bed is not. -/
theorem exists_create_iff_wellFormedFrom_orchard :
    orchardSource.NamesApart ∧ orchardSource.NoImplicits ∧
      orchardSource.WellFormedFrom "Orchard" ∧ ¬orchardSource.WellFormedFrom "Bed" := by
  have hn : orchardSource.NamesApart :=
    ⟨by decide +kernel, by decide +kernel, by decide +kernel, by decide +kernel⟩
  have hi : orchardSource.NoImplicits := by
    unfold NoImplicits
    decide +kernel
  have horchard : (orchardSource.create "Orchard").toOption.isSome = true := by decide +kernel
  have hbed : (orchardSource.create "Bed").toOption.isSome = false := by decide +kernel
  refine ⟨hn, hi, ?_, fun hw => ?_⟩
  · cases hc : orchardSource.create "Orchard" with
    | error error =>
      rw [hc] at horchard
      cases horchard
    | ok transformer =>
      exact (exists_create_iff_wellFormedFrom hn hi (by decide)).mp ⟨transformer, hc⟩
  · obtain ⟨transformer, hc⟩ := (exists_create_iff_wellFormedFrom hn hi (by decide)).mpr hw
    rw [hc] at hbed
    cases hbed

end LinkedSchema
