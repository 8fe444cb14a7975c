import LinkedSchema.Proofs.Compile.Calls

namespace LinkedSchema

open Compilation

/-- The definitions that calls give by hand. -/
def givenDefinitions (calls : List Call) : List (String × TypeDefn) :=
  calls.filterMap fun
    | .defn name defn => some (name, defn)
    | _ => none

theorem mem_givenDefinitions {calls : List Call} {name : String} {defn : TypeDefn} :
    (name, defn) ∈ givenDefinitions calls ↔ .defn name defn ∈ calls := by
  simp only [givenDefinitions, List.mem_filterMap]
  constructor
  · intro h
    obtain ⟨call, hm, he⟩ := h
    split at he
    · cases he
      exact hm
    · cases he
  · intro hm
    exact ⟨_, hm, rfl⟩

namespace Source

/-- The source with a definition declared, in the place of the old one if there is one. -/
def declare (source : Source) (name : String) (defn : TypeDefn) : Source :=
  { source with schema := source.schema.insert name defn }

/-- Whether a name is compiled from the definition that is given for it by hand: it has no transform
and no slot yet, and if it is to be a copy it gets no slot while the copied type is compiled. -/
def comesIntoForce (source : Source) (registry : Registry) (name : String) (defn : TypeDefn) :
    Bool :=
  !source.custom.contains name && (registry.slot? name).isNone &&
    match defn with
    | .copy fromType =>
      let add := addDefnUpTo source (source.budget defn - 1)
      let copied := ((ExceptT.run (copiedSlot source add name fromType)).run registry).2
      (copied.slot? name).isNone
    | _ => true

/-- The definitions after a call: those before it, and in their place the one that it gives by hand,
if that one comes into force. -/
def putInForce (source found : Source) (registry : Registry) : Call → Source
  | .defn name defn =>
    if source.comesIntoForce registry name defn then found.declare name defn else found
  | _ => found

def inForceFrom (source : Source) : Source → Registry → List Call → Source
  | found, _, [] => found
  | found, registry, call :: calls =>
    source.inForceFrom (source.putInForce found registry call)
      (registry.after (source.perform call)).2 calls

/-- The definitions that the names have after calls on an empty registry: those of the source, and
in the place of some of them those that were given by hand and came into force. -/
def inForce (source : Source) (calls : List Call) : Source :=
  source.inForceFrom source ∅ calls

variable {source found : Source} {registry before after : Registry} {name : String}
  {defn : TypeDefn} {calls : List Call}

theorem definition?_declare (query : String) : (source.declare name defn).definition? query =
    if query = name then some defn else source.definition? query := by
  unfold definition?
  have hg : (source.declare name defn).schema.types.get? query =
      if query = name then some defn else source.schema.types.get? query :=
    source.schema.types.get?_insert name defn query
  rw [hg]
  split <;> rfl

theorem definition?_declare_self : (source.declare name defn).definition? name = some defn := by
  rw [definition?_declare, if_pos rfl]

theorem definition?_declare_of_ne (source : Source) (defn : TypeDefn) {query : String}
    (h : query ≠ name) :
    source.definition? query = (source.declare name defn).definition? query := by
  rw [definition?_declare, if_neg h]

section ComesIntoForce

theorem comesIntoForce_of_registered (h : (registry.slot? name).isSome = true) :
    source.comesIntoForce registry name defn = false := by
  cases hs : registry.slot? name with
  | none => simp [hs] at h
  | some slot => simp [comesIntoForce, hs]

theorem comesIntoForce_of_custom {transform : CustomTransform}
    (h : source.custom.get? name = some transform) :
    source.comesIntoForce registry name defn = false := by
  simp [comesIntoForce, Table.contains_eq_isSome, h]

theorem comesIntoForce_of_ne_copy (hn : registry.slot? name = none)
    (hc : source.custom.get? name = none) (hcopy : ∀ fromType, defn ≠ .copy fromType) :
    source.comesIntoForce registry name defn = true := by
  simp only [comesIntoForce, Table.contains_eq_isSome, hn, hc]
  cases defn with
  | copy fromType => exact absurd rfl (hcopy fromType)
  | _ => rfl

theorem comesIntoForce_copy {most : Nat} {fromType : String} {chain : List String} {slot : Slot}
    (hmost : source.budget (.copy fromType) = most + 1) (hn : registry.slot? name = none)
    (hc : source.custom.get? name = none)
    (h : Gives (copiedSlot source (addDefnUpTo source most) name fromType) registry (chain, slot)
      after) :
    source.comesIntoForce registry name (.copy fromType) = (after.slot? name).isNone := by
  unfold Gives at h
  simp [comesIntoForce, Table.contains_eq_isSome, hn, hc, hmost, h]

end ComesIntoForce

/-- Only what is given by hand takes the place of a definition. -/
theorem definition?_inForceFrom
    (h : (source.inForceFrom found registry calls).definition? name = some defn) :
    (name, defn) ∈ givenDefinitions calls ∨ found.definition? name = some defn := by
  rw [mem_givenDefinitions]
  induction calls generalizing found registry with
  | nil => exact .inr h
  | cons call calls ih =>
    rcases ih h with hm | hd
    · exact .inl (List.mem_cons_of_mem _ hm)
    · unfold putInForce at hd
      split at hd
      · split at hd
        · rw [definition?_declare] at hd
          split at hd
          · rename_i hname
            cases hd
            subst hname
            exact .inl (List.mem_cons_self ..)
          · exact .inr hd
        · exact .inr hd
      · exact .inr hd

theorem definition?_inForce (h : (source.inForce calls).definition? name = some defn) :
    (name, defn) ∈ givenDefinitions calls ∨ source.definition? name = some defn :=
  definition?_inForceFrom h

theorem custom_inForceFrom :
    (source.inForceFrom found registry calls).custom = found.custom := by
  induction calls generalizing found registry with
  | nil => rfl
  | cons call calls ih =>
    refine ih.trans ?_
    unfold putInForce
    split
    · split <;> rfl
    · rfl

/-- Transforms are not given by hand. -/
@[simp] theorem custom_inForce (source : Source) (calls : List Call) :
    (source.inForce calls).custom = source.custom :=
  custom_inForceFrom

/-- The two sources have the same transforms, and the same definitions of names without slots. -/
structure AgreesOpen (found source : Source) (registry : Registry) : Prop where
  custom : found.custom = source.custom
  definition?_eq : ∀ name, registry.slot? name = none →
    found.definition? name = source.definition? name

namespace AgreesOpen

theorem refl (source : Source) (registry : Registry) : source.AgreesOpen source registry :=
  ⟨rfl, fun _ _ => rfl⟩

theorem mono (h : found.AgreesOpen source before)
    (hs : ∀ name, (before.slot? name).isSome = true → (after.slot? name).isSome = true) :
    found.AgreesOpen source after := by
  refine ⟨h.custom, fun name hn => h.definition?_eq name ?_⟩
  cases hb : before.slot? name with
  | none => rfl
  | some slot =>
    have hsome := hs name (Option.isSome_of_eq_some hb)
    rw [hn] at hsome
    cases hsome

theorem grows (h : found.AgreesOpen source before) (hg : before.Grows after) :
    found.AgreesOpen source after :=
  h.mono fun _ => hg.isSome_slot?

/-- A registered name may be given another definition. -/
theorem declare (h : found.AgreesOpen source registry) (hs : (registry.slot? name).isSome = true)
    (defn : TypeDefn) : (found.declare name defn).AgreesOpen source registry := by
  refine ⟨h.custom, fun other ho => ?_⟩
  rw [definition?_declare, if_neg, h.definition?_eq other ho]
  rintro rfl
  rw [ho] at hs
  cases hs

end AgreesOpen

end Source

end LinkedSchema
