import LinkedSchema.Proofs.Compile.Provenance
import LinkedSchema.Proofs.Plain.Stops
import Mathlib.Order.WellFoundedSet

namespace LinkedSchema

/-- The places of the members that can be shown by the whole of a representation. -/
def Strategy.wholes : Strategy → List Nat
  | kinded table => table.map Prod.snd
  | stringPrefix table => (table.filter fun entry => entry.1 = "").map Prod.snd
  | bytesPrefix table => (table.filter fun entry => entry.1 = []).map Prod.snd
  | _ => []

/-- The slots to which a type may leave the whole of a representation. -/
def Node.wholes : Node → List Slot
  | union members strategy =>
    strategy.wholes.filterMap fun place => members[place]?.map Member.slot
  | _ => []

theorem Strategy.mem_wholes_of_select? {strategy : Strategy} {value content : Value} {place : Nat}
    (h : strategy.select? value = some (place, content)) (he : content = value) :
    place ∈ strategy.wholes := by
  have hweight : ¬content.weight < value.weight := by
    rw [he]
    exact Nat.lt_irrefl _
  cases selects_of_select? h with
  | kinded _ hs =>
    obtain ⟨entry, hf, rfl⟩ := Option.map_eq_some_iff.mp hs
    exact List.mem_map_of_mem (List.mem_of_find?_eq_some hf)
  | keyed hl hs =>
    rename_i table entries key
    have hm : (key, content) ∈ entries.toList := by simp [hl]
    exact absurd (Value.weight_lt_of_mem_toList hm) hweight
  | envelope _ _ hc =>
    exact absurd (Value.weight_lt_of_mem_toList (SortedMap.get?_eq_some_iff.mp hc)) hweight
  | inlined ht => exact absurd (Value.weight_erase_lt ht) hweight
  | stringPrefix hm ha =>
    rename_i table entry s rest
    injection he with he
    rw [← he, String.toList_ofList, List.self_eq_append_left, String.toList_eq_nil_iff] at ha
    exact List.mem_map_of_mem (List.mem_filter.mpr ⟨hm, decide_eq_true ha⟩)
  | bytesPrefix hm ha =>
    rename_i table entry bytes rest
    injection he with he
    rw [← he, List.self_eq_append_left] at ha
    exact List.mem_map_of_mem (List.mem_filter.mpr ⟨hm, decide_eq_true ha⟩)

theorem Node.mem_wholes_of_passesOn? {node : Node} {direction : Direction} {value : Value}
    {slot : Slot} (h : node.passesOn? direction value = some slot) : slot ∈ node.wholes := by
  unfold passesOn? at h
  split at h
  · split at h
    · rename_i members strategy place content hs
      split at h
      · rename_i he
        exact List.mem_filterMap.mpr ⟨place, Strategy.mem_wholes_of_select? hs he, h⟩
      · cases h
    · cases h
  · cases h

/-- Only reading passes on the whole of a value; a value that is written gives up its tag. -/
theorem Node.passesOn?_toRepresentation (node : Node) (value : Value) :
    node.passesOn? .toRepresentation value = none := by
  cases node <;> rfl

namespace Registry

/-- The slots to which the type in a slot may leave the whole of a representation. -/
def wholes (registry : Registry) (slot : Slot) : List Slot :=
  match registry.node? slot with
  | some node => node.wholes
  | none => []

/-- No type leads back to itself by leaving the whole of a representation. -/
def Acyclic (registry : Registry) : Prop :=
  ∀ slot, ¬Relation.TransGen (fun slot next => next ∈ registry.wholes slot) slot slot

variable {registry : Registry} {direction : Direction} {slot : Slot} {value : Value}

theorem lt_size_of_mem_wholes {next : Slot} (h : next ∈ registry.wholes slot) :
    slot < registry.nodes.size := by
  refine Nat.lt_of_not_le fun hle => ?_
  simp [wholes, node?_eq_none_of_size_le hle] at h

/-- Types lead down to others by leaving the whole, if they never lead back. -/
theorem Acyclic.wellFounded (h : registry.Acyclic) :
    WellFounded fun next slot => next ∈ registry.wholes slot ∧ next < registry.nodes.size := by
  -- There are finitely many types, and a path of them is a strict order.
  have horder : IsStrictOrder Slot
      (Function.swap (Relation.TransGen fun slot next => next ∈ registry.wholes slot)) :=
    { irrefl := h
      trans := fun _ _ _ hab hbc => hbc.trans hab }
  have hfinite : {slot : Slot | slot < registry.nodes.size}.WellFoundedOn
      (Function.swap (Relation.TransGen fun slot next => next ∈ registry.wholes slot)) :=
    (Set.finite_lt_nat registry.nodes.size).wellFoundedOn
  refine Subrelation.wf (fun {next slot} hnext => ?_) (Set.wellFoundedOn_iff.mp hfinite)
  exact ⟨.single hnext.1, hnext.2, lt_size_of_mem_wholes hnext.1⟩

/-- Types that have a rank, which falls where the whole is left to another type, never lead back. -/
theorem acyclic_of_rank (rank : Slot → Nat)
    (h : ∀ slot < registry.nodes.size, ∀ next ∈ registry.wholes slot, rank next < rank slot) :
    registry.Acyclic := by
  intro slot hpath
  have hfalls : ∀ first last, Relation.TransGen (fun slot next => next ∈ registry.wholes slot)
      first last → rank last < rank first := by
    intro first last hpath
    induction hpath with
    | single hm => exact h first (lt_size_of_mem_wholes hm) _ hm
    | tail _ hm ih => exact Nat.lt_trans (h _ (lt_size_of_mem_wholes hm) _ hm) ih
  exact Nat.lt_irrefl _ (hfalls slot slot hpath)

theorem passing_toRepresentation (registry : Registry) (slot : Slot) (value : Value) :
    Passing registry .toRepresentation value slot [] :=
  .stop fun node _ => node.passesOn?_toRepresentation value

/-- What is passed on as a whole comes to a type that takes it apart. -/
theorem Acyclic.exists_passing (h : registry.Acyclic) (direction : Direction) (value : Value)
    (slot : Slot) : ∃ passed, Passing registry direction value slot passed := by
  induction slot using h.wellFounded.induction with
  | _ slot ih =>
    cases hn : registry.node? slot with
    | none => exact ⟨[], .stop fun node hnode => by simp [hn] at hnode⟩
    | some node =>
      cases hp : node.passesOn? direction value with
      | none =>
        refine ⟨[], .stop fun other hother => ?_⟩
        rw [hn] at hother
        cases hother
        exact hp
      | some next =>
        have hnext : next ∈ registry.wholes slot := by
          simp only [wholes, hn]
          exact Node.mem_wholes_of_passesOn? hp
        by_cases hlt : next < registry.nodes.size
        · obtain ⟨passed, hpassed⟩ := ih next ⟨hnext, hlt⟩
          exact ⟨slot :: passed, .pass hn hp hpassed⟩
        · have hempty := node?_eq_none_of_size_le (Nat.le_of_not_lt hlt)
          refine ⟨[slot], .pass hn hp (.stop fun other hother => ?_)⟩
          rw [hempty] at hother
          cases hother

theorem outcome_of_node?_eq_none (h : registry.node? slot = none) :
    registry.outcome direction slot value = .error .nonconforming := by
  rw [outcome, PartConversion.result, convert_of_node?_eq_none h]
  rfl

/-- A conversion that runs out of steps does so in a part, or where it passes on the whole. -/
theorem WellFormed.ends_of_parts (hw : registry.WellFormed) {node : Node}
    (hn : registry.node? slot = some node)
    (hpart : ∀ next (part : Value), part.weight < value.weight →
      StopsWithin (· ≠ .exhausted) (registry.outcome direction next part))
    (hwhole : ∀ next, node.passesOn? direction value = some next →
      StopsWithin (· ≠ .exhausted) (registry.outcome direction next value)) :
    StopsWithin (· ≠ .exhausted) (registry.outcome direction slot value) := by
  rw [hw.outcome_eq_plain hn]
  refine Node.stopsWithin_plain nofun (hw slot node hn) (fun name transform he => ?_)
    fun next part hc => ?_
  · rw [he]
    exact Node.stopsWithin_custom nofun (fun _ _ => nofun) name transform
  · rcases hc.part with hlt | ⟨hnext, rfl⟩
    · exact hpart next part hlt
    · exact hwhole next hnext

/-- A conversion does not run out of steps if what is passed on always comes to a type that takes it
apart. -/
theorem WellFormed.outcome_ne_exhausted (hw : registry.WellFormed)
    (hp : ∀ value slot, ∃ passed, Passing registry direction value slot passed) (slot : Slot)
    (value : Value) : registry.outcome direction slot value ≠ .error .exhausted := by
  suffices StopsWithin (· ≠ .exhausted) (registry.outcome direction slot value) from
    fun he => this .exhausted he rfl
  induction hk : value.weight using Nat.strongRecOn generalizing slot value with
  | ind weight ih =>
    have hpart : ∀ next (part : Value), part.weight < value.weight →
        StopsWithin (· ≠ .exhausted) (registry.outcome direction next part) :=
      fun next part hlt => ih part.weight (hk ▸ hlt) next part rfl
    obtain ⟨passed, hpassed⟩ := hp value slot
    -- The value stays the same until it is taken apart, so this goes along the types that it meets.
    induction hpassed with
    | stop hstop =>
      rename_i slot
      cases hn : registry.node? slot with
      | none =>
        rw [outcome_of_node?_eq_none hn]
        exact .error nofun
      | some node =>
        refine hw.ends_of_parts hn hpart fun next hnext => ?_
        rw [hstop node hn] at hnext
        cases hnext
    | pass hn hpass _ ihpass =>
      refine hw.ends_of_parts hn hpart fun next hnext => ?_
      rw [hpass] at hnext
      cases hnext
      exact ihpass

theorem convertUpTo_eq_convert (h : registry.convert direction slot value ≠ .error .exhausted)
    {more : Nat} (hm : registry.budget value ≤ more) :
    registry.convertUpTo direction more slot value = registry.convert direction slot value := by
  have hle : StopsOrEq .exhausted (registry.convertUpToOr .nonconforming direction _ slot value)
      (registry.convertUpToOr .nonconforming direction more slot value) :=
    convertUpToOr_le .nonconforming hm slot value
  rw [convertUpToOr_nonconforming, convertUpToOr_nonconforming] at hle
  exact (hle.eq_of_ne h).symm

end Registry

/-- The conversion of a value comes to an end: it gives a value, or a reason for giving none, and
gives the same however many more steps are allowed. -/
structure Transformer.Ends (transformer : Transformer) (direction : Direction) (value : Value) :
    Prop where
  ends : transformer.convert direction value ≠ .error .exhausted
  steps : ∀ more, transformer.registry.budget value ≤ more →
    transformer.registry.convertUpTo direction more transformer.slot value =
      transformer.convert direction value

theorem Registry.WellFormed.ends {registry : Registry} (hw : registry.WellFormed)
    {direction : Direction}
    (hp : ∀ value slot, ∃ passed, registry.Passing direction value slot passed) (name : String)
    (slot : Slot) (value : Value) :
    (Transformer.mk name slot registry).Ends direction value := by
  have hends : registry.convert direction slot value ≠ .error .exhausted := by
    intro he
    refine hw.outcome_ne_exhausted hp slot value ?_
    rw [outcome, PartConversion.result, he]
    rfl
  exact ⟨hends, fun more hm => Registry.convertUpTo_eq_convert hends hm⟩

open Compilation

variable {source : Source} {calls : List Call} {after : Registry}

/-- Writing ends for every type and every value. Reading does if no union leads back to itself
through unions that leave the whole of a representation to a member. -/
theorem ends_of_calls (h : Gives (calls.forM source.perform) ∅ () after) {name : String}
    {transformer : Transformer} (ht : after.transformer? name = some transformer) (value : Value) :
    transformer.Ends .toRepresentation value ∧
      (after.Acyclic → transformer.Ends .toTyped value) := by
  obtain ⟨slot, -, rfl⟩ := Registry.transformer?_eq_some_iff.mp ht
  have hw := wellFormed_of_calls h
  refine ⟨hw.ends (fun value slot => ?_) name slot value,
    fun ha => hw.ends (fun value slot => ?_) name slot value⟩
  · exact ⟨[], after.passing_toRepresentation slot value⟩
  · exact ha.exists_passing .toTyped value slot

/-- Nests are texts or lists of nests, known from their kinds. -/
def nestSource : Source where
  schema := { types := Table.ofList [
    ("Nest", .union ⟨["String", "Nests"],
      .kinded (Table.ofList [("string", "String"), ("list", "Nests")])⟩),
    ("Nests", .list ⟨.named "Nest", false, .list⟩)] }
  custom := ∅

def nestRegistry : Registry :=
  (Registry.after ∅ ([Call.all].forM nestSource.perform)).2

/-- Nests lead back to nests, but only through lists. -/
theorem ends_of_calls_nest : ∃ transformer, nestRegistry.transformer? "Nest" = some transformer ∧
    ∀ value, transformer.Ends .toRepresentation value ∧ transformer.Ends .toTyped value := by
  have hok : (Registry.after ∅ ([Call.all].forM nestSource.perform)).1 = .ok () := by decide +kernel
  have h : Gives ([Call.all].forM nestSource.perform) ∅ () nestRegistry := Prod.ext hok rfl
  have hslot : nestRegistry.slot? "Nest" = some 0 := by decide +kernel
  have hacyclic : nestRegistry.Acyclic :=
    Registry.acyclic_of_rank (fun slot => if slot = 0 then 1 else 0) (by decide +kernel)
  have ht := Registry.transformer?_eq_some_iff.mpr ⟨0, hslot, rfl⟩
  refine ⟨_, ht, fun value => ?_⟩
  obtain ⟨hwrite, hread⟩ := ends_of_calls h ht value
  exact ⟨hwrite, hread hacyclic⟩

end LinkedSchema
