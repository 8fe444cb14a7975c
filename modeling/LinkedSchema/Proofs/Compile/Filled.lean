import LinkedSchema.Proofs.Compile.Provenance

namespace LinkedSchema

open Compilation

namespace Source

/-- What a registered name owes its slot to: its transform, or its definition, which refers to
registered types only. The slot holds what that was compiled to; the slot of a copy is that of what
the copies lead to. It need not be the slot of the copied name, since that name may also be made up
for a definition that is compiled on the way. -/
inductive Accounted (source : Source) (registry : Registry) (name : String) : Prop where
  | custom {transform : CustomTransform} {slot : Slot}
      (hc : source.custom.get? name = some transform) (hs : registry.slot? name = some slot)
      (hn : registry.node? slot = some (.custom name transform)) : Accounted source registry name
  | defined {defn : TypeDefn} (hc : source.custom.get? name = none)
      (hd : source.Entered registry name defn) (hh : registry.Holds name defn)
      (hp : ∀ part ∈ defn.parts, (registry.slot? (part.2.nameIn name part.1)).isSome = true) :
      Accounted source registry name
  | copy {next target : String} {slot : Slot} {node : Node} (hc : source.Copies registry name next)
      (hp : (registry.slot? next).isSome = true)
      (hl : Relation.ReflTransGen (source.Copies registry) next target)
      (hs : registry.slot? name = some slot) (ht : registry.slot? target = some slot)
      (hn : registry.node? slot = some node) (hm : source.CompiledFrom registry target node) :
      Accounted source registry name

/-- Nothing is left open: names and compiled types refer to slots that are there and filled, and
what the definition of a name refers to is registered. -/
structure Complete (source : Source) (registry : Registry) : Prop where
  bound : ∀ name slot, registry.slot? name = some slot → slot < registry.nodes.size
  filled : ∀ slot, slot < registry.nodes.size → (registry.node? slot).isSome = true
  parts : ∀ slot node, registry.node? slot = some node → ∀ part ∈ node.slots,
    part < registry.nodes.size ∧ (registry.node? part).isSome = true
  names : ∀ name, (registry.slot? name).isSome = true → source.Accounted registry name

variable {source : Source} {registry : Registry} {name target : String} {node : Node} {slot : Slot}

/-- The slots of the parts of a compiled type are those of names. -/
theorem CompiledFrom.exists_slot? (h : source.CompiledFrom registry name node) :
    ∀ part ∈ node.slots, ∃ name, registry.slot? name = some part := by
  intro part hp
  cases h with
  | custom => cases hp
  | defined _ _ hb =>
    obtain ⟨part, -, hs⟩ := hb.exists_part hp
    exact ⟨_, hs⟩

/-- A name that leads along copies to what its slot was filled with is accounted for. -/
theorem accounted_of_copies (hl : Relation.ReflTransGen (source.Copies registry) name target)
    (hs : registry.slot? name = some slot) (ht : registry.slot? target = some slot)
    (hn : registry.node? slot = some node) (hm : source.CompiledFrom registry target node) :
    source.Accounted registry name := by
  rcases Relation.ReflTransGen.cases_head hl with rfl | ⟨next, hc, hl⟩
  · cases hm with
    | custom hc => exact .custom hc hs hn
    | defined hc hd hb =>
      refine .defined hc hd ⟨slot, node, hs, hn, hb⟩ fun part hp => ?_
      obtain ⟨part, hpart⟩ := hb.exists_slot hp
      exact Option.isSome_of_eq_some hpart
  · refine .copy hc ?_ hl hs ht hn hm
    rcases Relation.ReflTransGen.cases_head hl with rfl | ⟨_, hnext, -⟩
    · exact Option.isSome_of_eq_some ht
    · exact hnext.registered

theorem Provides.complete (h : source.Provides ∅ registry) : source.Complete registry := by
  have hbound : ∀ name slot, registry.slot? name = some slot → slot < registry.nodes.size := by
    intro name slot hs
    obtain ⟨_, node, -, -, hn, -⟩ := h.exists_leads hs
    exact Registry.lt_size_of_node? hn
  have hsome : ∀ slot, slot < registry.nodes.size → (registry.node? slot).isSome = true := by
    intro slot hlt
    obtain ⟨_, _, -, hn, -⟩ := h.filled slot (Nat.zero_le slot) hlt
    exact Option.isSome_of_eq_some hn
  refine ⟨hbound, hsome, fun slot node hn part hp => ?_, fun name hs => ?_⟩
  · obtain ⟨_, hm⟩ := h.exists_compiledFrom hn
    obtain ⟨name, hname⟩ := hm.exists_slot? part hp
    exact ⟨hbound name part hname, hsome part (hbound name part hname)⟩
  · obtain ⟨slot, hs⟩ := Option.isSome_iff_exists.mp hs
    obtain ⟨target, node, hl, ht, hn, hm⟩ := h.exists_leads hs
    exact accounted_of_copies hl hs ht hn hm

end Source

/-- Calls on an empty registry that all succeed leave nothing open. -/
theorem complete_of_calls {source : Source} {calls : List Call} {after : Registry}
    (h : Gives (calls.forM source.perform) ∅ () after) :
    (source.inForce calls).Complete after :=
  (provides_of_calls h).complete

/-- Shelves hold books, which say on which shelf they stand; rows are shelves. -/
def shelfSource : Source where
  schema := { types := Table.ofList [
    ("Shelf", .struct { fields := Table.ofList [
      ("books", { type := .list ⟨.named "Book", false, .list⟩ })] }),
    ("Book", .struct { fields := Table.ofList [
      ("title", { type := .named "String" }), ("shelf", { type := .named "Row" })] }),
    ("Row", .copy "Shelf")] }
  custom := ∅

/-- The books of a loan are compiled on the way from a row, before all others are asked for. -/
def shelfCalls : List Call :=
  [.type "Row", .defn "Loan" (.map ⟨"String", .named "Book", false, .map⟩), .all]

theorem complete_of_calls_shelf :
    Gives (shelfCalls.forM shelfSource.perform) ∅ ()
        (Registry.after ∅ (shelfCalls.forM shelfSource.perform)).2 ∧
      (shelfSource.inForce shelfCalls).Complete
        (Registry.after ∅ (shelfCalls.forM shelfSource.perform)).2 := by
  have hok : (Registry.after ∅ (shelfCalls.forM shelfSource.perform)).1 = .ok () := by
    decide +kernel
  have h : Gives (shelfCalls.forM shelfSource.perform) ∅ ()
      (Registry.after ∅ (shelfCalls.forM shelfSource.perform)).2 := Prod.ext hok rfl
  exact ⟨h, complete_of_calls h⟩

end LinkedSchema
