import LinkedSchema.Proofs.Meaning.Correctness

namespace LinkedSchema

namespace Source

variable {source : Source} {registry : Registry} {name next target : String} {slot : Slot}

/-- A part of the definition of the first name is compiled under the second. -/
def Refers (source : Source) (name next : String) : Prop :=
  source.custom.get? name = none ∧ ∃ defn, source.Origin name defn ∧
    ∃ part ∈ defn.parts, part.2.nameIn name part.1 = next

def Reaches (source : Source) : String → String → Prop :=
  Relation.ReflTransGen source.Refers

/-- What is reached lies in every list of names that has all to which their definitions refer. -/
theorem Reaches.mem_of_closed {names : List String} (hm : name ∈ names)
    (hd : ∀ name ∈ names, ∀ defn ∈ source.definition? name, ∀ part ∈ defn.parts,
      part.2.nameIn name part.1 ∈ names)
    (hi : ∀ entry ∈ source.inlines, entry.1 ∈ names → ∀ part ∈ entry.2.parts,
      part.2.nameIn entry.1 part.1 ∈ names)
    (h : source.Reaches name target) : target ∈ names := by
  induction h with
  | refl => exact hm
  | tail _ hrefers ih =>
    obtain ⟨-, defn, ho, part, hp, rfl⟩ := hrefers
    cases ho with
    | declared h => exact hd _ ih defn h part hp
    | inline h => exact hi _ h ih part hp

/-- The type to which a name leads has a slot. -/
def Placed (source : Source) (registry : Registry) (name : String) : Prop :=
  ∃ target slot, source.Leads name target ∧ source.IsRoot target ∧
    registry.slot? target = some slot

theorem Faithful.placed (hf : source.Faithful registry) (hs : registry.slot? name = some slot) :
    source.Placed registry name := by
  obtain ⟨target, hl, hr, ht⟩ := hf.root name slot hs
  exact ⟨target, slot, hl, hr, ht⟩

theorem NamesApart.slot?_of_placed (hn : source.NamesApart) (h : source.Placed registry name)
    (hr : source.IsRoot name) : ∃ slot, registry.slot? name = some slot := by
  obtain ⟨target, slot, hl, -, hs⟩ := h
  rw [hn.eq_of_leads hr hl]
  exact ⟨slot, hs⟩

/-- What a compiled type refers to has a slot, too. -/
theorem Faithful.placed_of_refers (hn : source.NamesApart) (hf : source.Faithful registry)
    (h : source.Placed registry name) (hr : source.Refers name next)
    (hbuilt : ∀ defn slot, source.IsRoot name → source.Origin name defn →
      registry.slot? name = some slot →
        ∃ node, Built registry.slot? registry.Types name defn node) :
    source.Placed registry next := by
  obtain ⟨hc, defn, ho, part, hp, rfl⟩ := hr
  obtain ⟨target, slot, hl, hroot, hs⟩ := h
  cases hl with
  | refl =>
    obtain ⟨node, hb⟩ := hbuilt defn slot hroot ho hs
    obtain ⟨found, hfound⟩ := hb.exists_slot hp
    exact hf.placed hfound
  | copy _ hd hl =>
    cases hn.origin_unique ho (.declared hd)
    rw [List.mem_singleton.mp hp]
    exact ⟨target, slot, hl, hroot, hs⟩

/-- A filled slot holds what the definition of its name is built to. -/
theorem Faithful.built (hn : source.NamesApart) (hf : source.Faithful registry)
    {defn : TypeDefn} {node : Node} (hc : source.custom.get? name = none)
    (hr : source.IsRoot name) (ho : source.Origin name defn) (hs : registry.slot? name = some slot)
    (hnode : registry.node? slot = some node) :
    Built registry.slot? registry.Types name defn node :=
  (hf.compiled hr hs hnode).built_of_unambiguous hn.unambiguous hc ho

/-- A struct is circular if it has a field whose implicit value is read through a type that refers
back to the struct. -/
inductive Circular (source : Source) (name : String) : Prop where
  | intro {defn : StructDefn} {details : Table FieldDetails} {entry : String × StructField}
      {json : Json Empty} {literal value : Value} {target via : String} {path : List String}
      (hc : source.custom.get? name = none) (ho : source.Origin name (.struct defn))
      (hr : defn.representation = .map details) (hm : entry ∈ defn.fields.entries)
      (hi : ((details.get? entry.1).getD {}).implicit = some json)
      (hs : scalar? json = some literal)
      (hl : source.Leads (entry.2.type.nameIn name entry.1) target)
      (hread : source.ReadsLiteral target literal path value) (hvia : via ∈ path)
      (hback : source.Reaches via name) : Circular source name

end Source

end LinkedSchema
