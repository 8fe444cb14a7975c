import LinkedSchema.Proofs.Order.Circles
import LinkedSchema.Proofs.Order.Finished
import LinkedSchema.Proofs.Order.Progress

namespace LinkedSchema

open Compilation

/-- Both registries have converters of the name, which give the same for every value. -/
def Registry.Agree (first second : Registry) (name : String) : Prop :=
  ∃ one other, first.transformer? name = some one ∧ second.transformer? name = some other ∧
    ∀ direction value, (one.convert direction value).result value =
      (other.convert direction value).result value

namespace Source

variable {source : Source} {names others : List String} {after reached : Registry} {name : String}

/-- The types can be asked for one after the other, and the registry holds them then. -/
def Requests (source : Source) (names : List String) (after : Registry) : Prop :=
  Gives (names.forM source.addType) ∅ () after

/-- The order in which types are asked for does not matter: if they can be asked for in one order,
they can in every other, and are converted alike. Names made up for inline definitions are not
asked for. -/
def OrderFree (source : Source) : Prop :=
  ∀ names others, names.Perm others → (∀ name ∈ names, name ∉ source.inlines.map Prod.fst) →
    ((∃ after, source.Requests names after) ↔ ∃ reached, source.Requests others reached) ∧
      ∀ after reached, source.Requests names after → source.Requests others reached →
        ∀ name ∈ names, after.Agree reached name

theorem means_named_iff :
    source.Means name (.named name) ↔ name ∉ source.inlines.map Prod.fst := by
  constructor
  · intro h hm
    obtain ⟨entry, he, rfl⟩ := List.mem_map.mp hm
    exact h.not_mem_inlines entry.2 he
  · exact fun h => .named fun _ hm => h (List.mem_map_of_mem hm)

namespace Requests

theorem exists_iff : (∃ after, source.Requests names after) ↔
    (Registry.after ∅ (names.forM source.addType)).1 = .ok () := by
  constructor
  · intro h
    obtain ⟨after, h⟩ := h
    exact congrArg Prod.fst h
  · intro h
    exact ⟨(Registry.after ∅ (names.forM source.addType)).2, Prod.ext h rfl⟩

theorem compiles (h : source.Requests names after) :
    source.Compiles ∅ after ∧ ∀ name ∈ names, (after.slot? name).isSome = true := by
  refine h.forM (d := []) (I := fun done registry => source.Compiles ∅ registry ∧
    ∀ name ∈ done, (registry.slot? name).isSome = true) ?_ ⟨.refl _, by simp⟩
  intro done name _ registry reached hi hstep
  obtain ⟨hc, hdone⟩ := hi
  have hw : registry.WellFormed := hc.wellFormed .empty
  obtain ⟨hnext, hs⟩ := compiles_addType hw hstep
  refine ⟨hc.trans hnext, fun other ho => ?_⟩
  rcases List.mem_append.mp ho with ho | ho
  · exact hnext.slot? (hdone other ho)
  · rw [List.mem_singleton.mp ho]
    exact hs

theorem faithful_of_unambiguous (hu : source.Unambiguous) (h : source.Requests names after) :
    source.Faithful after :=
  Faithful.empty.moves_of_unambiguous hu h.compiles.1.moves

theorem faithful (hn : source.NamesApart) (h : source.Requests names after) :
    source.Faithful after :=
  h.faithful_of_unambiguous hn.unambiguous

theorem full (h : source.Requests names after) : after.Full :=
  h.compiles.1.full

/-- What was asked for twice is converted alike. -/
theorem agree (hn : source.NamesApart) (h : source.Requests names after)
    (h' : source.Requests others reached) (hm : name ∈ names) (hm' : name ∈ others)
    (hmade : name ∉ source.inlines.map Prod.fst) : after.Agree reached name := by
  obtain ⟨slot, hs⟩ := Option.isSome_iff_exists.mp (h.compiles.2 name hm)
  obtain ⟨found, hs'⟩ := Option.isSome_iff_exists.mp (h'.compiles.2 name hm')
  refine ⟨⟨name, slot, after⟩, ⟨name, found, reached⟩, by simp [Registry.transformer?, hs],
    by simp [Registry.transformer?, hs'], fun direction value => ?_⟩
  have hmeans := means_named_iff.mpr hmade
  change after.outcome direction slot value = reached.outcome direction found value
  refine Outcome.eq_of_iff_of_ne fun result (hr : result ≠ .error .exhausted) => ?_
  exact ((h.faithful hn).outcome_eq_iff hn h.full hs hmeans hr).trans
    ((h'.faithful hn).outcome_eq_iff hn h'.full hs' hmeans hr).symm

/-- Without circular structs, whatever was compiled can be asked for in every order. -/
theorem exists_others (hn : source.NamesApart) (h : source.Requests names after)
    (hstraight : ∀ name slot, after.slot? name = some slot → ¬source.Circular name)
    (hsub : ∀ name ∈ others, name ∉ source.inlines.map Prod.fst ∧
      (after.slot? name).isSome = true) :
    ∃ reached, source.Requests others reached := by
  have hw : source.Whole after := ⟨h.faithful hn, h.full, hstraight⟩
  refine exists_addTypes hn (hw.compilable hn) fun name hm => ?_
  obtain ⟨hmade, hs⟩ := hsub name hm
  obtain ⟨slot, hs⟩ := Option.isSome_iff_exists.mp hs
  exact ⟨means_named_iff.mpr hmade, (h.faithful hn).placed hs⟩

end Requests

/-- The order matters if the types can be asked for in one order and not in another. -/
theorem not_orderFree_of_after (hperm : names.Perm others)
    (hmade : ∀ name ∈ names, name ∉ source.inlines.map Prod.fst)
    (h : (Registry.after ∅ (names.forM source.addType)).1 = .ok ())
    (h' : (Registry.after ∅ (others.forM source.addType)).1 ≠ .ok ()) : ¬source.OrderFree := by
  intro hfree
  have hsome := (hfree names others hperm hmade).1.mp (Requests.exists_iff.mpr h)
  exact h' (Requests.exists_iff.mp hsome)

/-- A circular struct that was compiled can be followed by a type that cannot be compiled first. -/
theorem Circular.not_orderFree (hn : source.NamesApart) (hcircular : source.Circular name)
    (hmade : ∀ name ∈ names, name ∉ source.inlines.map Prod.fst)
    (h : source.Requests names after) {slot : Slot} (hs : after.slot? name = some slot) :
    ¬source.OrderFree := by
  intro hfree
  obtain ⟨via, hmeans, hvia, hnone⟩ := hcircular.exists_via hn
  have hf := h.faithful hn
  obtain ⟨node, hnode⟩ := h.full.exists_node? (hf.bound name slot hs)
  obtain ⟨place, hplace⟩ := hvia after slot node hf hs hnode
  have hlast : source.Requests (names ++ [via]) after := by
    have hjoin : (names ++ [via]).forM source.addType =
        names.forM source.addType >>= fun _ => [via].forM source.addType := List.forM_append
    have hadd : Gives (source.addType via) after () after :=
      gives_addNamed.mpr (.inl ⟨by rw [hplace]; rfl, rfl⟩)
    unfold Requests
    rw [hjoin]
    exact gives_bind.mpr
      ⟨(), after, h, gives_bind.mpr ⟨(), after, hadd, gives_pure.mpr ⟨rfl, rfl⟩⟩⟩
  have hperm : (names ++ [via]).Perm (via :: names) := List.perm_append_singleton via names
  have hnew : ∀ name ∈ names ++ [via], name ∉ source.inlines.map Prod.fst := by
    intro name hm
    rcases List.mem_append.mp hm with hm | hm
    · exact hmade name hm
    · rw [List.mem_singleton.mp hm]
      exact means_named_iff.mp hmeans
  obtain ⟨reached, hfirst⟩ := (hfree _ _ hperm hnew).1.mp ⟨after, hlast⟩
  obtain ⟨_, between, hadd, _⟩ := gives_bind.mp hfirst
  exact hnone between hadd

/-- Without circular structs, what was compiled on the way to one root can be a root, too. -/
theorem exists_create (hn : source.NamesApart) {root : String} {transformer : Transformer}
    (h : source.create root = .ok transformer)
    (hstraight : ∀ name slot, transformer.registry.slot? name = some slot → ¬source.Circular name)
    (hs : (transformer.registry.slot? name).isSome = true)
    (hmade : name ∉ source.inlines.map Prod.fst) (hname : name.isEmpty = false) :
    ∃ other, source.create name = .ok other := by
  obtain ⟨-, registry, slot, hrun, -, rfl⟩ := create_eq_ok_iff.mp h
  have hrequests : source.Requests [root] registry :=
    gives_bind.mpr ⟨(), registry, hrun, gives_pure.mpr ⟨rfl, rfl⟩⟩
  have hsub : ∀ other ∈ [name], other ∉ source.inlines.map Prod.fst ∧
      (registry.slot? other).isSome = true := by
    intro other ho
    rw [List.mem_singleton.mp ho]
    exact ⟨hmade, hs⟩
  obtain ⟨reached, hreached⟩ := hrequests.exists_others hn hstraight hsub
  obtain ⟨found, hfound⟩ :=
    Option.isSome_iff_exists.mp (hreached.compiles.2 name (List.mem_singleton_self name))
  obtain ⟨_, between, hadd, hrest⟩ := gives_bind.mp hreached
  obtain ⟨-, rfl⟩ := gives_pure.mp hrest
  exact ⟨_, create_eq_ok_iff.mpr ⟨hname, between, found, hadd, hfound, rfl⟩⟩

end Source

/-- Messages to an address, which is a text or a message to reply to. -/
def messageSource : Source where
  schema := { types := Table.ofList [
    ("Message", .struct ⟨Table.ofList [("to", ⟨.named "Address", false, false⟩)],
      .map (Table.ofList [("to", ⟨none, some (.string "all")⟩)])⟩),
    ("Address", .union ⟨["String", "Message"],
      .kinded (Table.ofList [("string", "String"), ("map", "Message")])⟩)] }
  custom := ∅

/-- The order in which types are asked for does not matter if and only if no circular struct can be
compiled. -/
theorem orderFree_iff {source : Source} (hn : source.NamesApart) :
    source.OrderFree ↔ ∀ names after, (∀ name ∈ names, name ∉ source.inlines.map Prod.fst) →
      source.Requests names after →
        ∀ name slot, after.slot? name = some slot → ¬source.Circular name := by
  constructor
  · intro hfree names after hmade h name slot hs hcircular
    exact hcircular.not_orderFree hn hmade h hs hfree
  · intro hstraight names others hperm hmade
    have hmade' : ∀ name ∈ others, name ∉ source.inlines.map Prod.fst :=
      fun name hm => hmade name (hperm.mem_iff.mpr hm)
    have hone : ∀ first second, first.Perm second →
        (∀ name ∈ first, name ∉ source.inlines.map Prod.fst) →
          (∃ after, source.Requests first after) → ∃ reached, source.Requests second reached := by
      intro first second hperm hmade h
      obtain ⟨after, h⟩ := h
      refine h.exists_others hn (hstraight _ _ hmade h) fun name hm => ?_
      have hm' := hperm.mem_iff.mpr hm
      exact ⟨hmade name hm', h.compiles.2 name hm'⟩
    refine ⟨⟨hone _ _ hperm hmade, hone _ _ hperm.symm hmade'⟩, ?_⟩
    intro after reached h h' name hm
    exact h.agree hn h' hm (hperm.mem_iff.mp hm) (hmade name hm)

/-- A message can be compiled before an address, but not after it. -/
theorem not_orderFree_message : ¬messageSource.OrderFree :=
  Source.not_orderFree_of_after (.swap "Address" "Message" []) (by decide +kernel)
    (by decide +kernel) (by decide +kernel)

/-- So one of the types is circular, and can be compiled. -/
theorem orderFree_iff_message : messageSource.NamesApart ∧
    ∃ names after, messageSource.Requests names after ∧
      ∃ name slot, after.slot? name = some slot ∧ messageSource.Circular name := by
  have hn : messageSource.NamesApart :=
    ⟨by decide +kernel, by decide +kernel, by decide +kernel, by decide +kernel⟩
  have hnot : ¬messageSource.OrderFree :=
    Source.not_orderFree_of_after (.swap "Address" "Message" []) (by decide +kernel)
      (by decide +kernel) (by decide +kernel)
  refine ⟨hn, ?_⟩
  by_contra hnone
  refine hnot ((orderFree_iff hn).mpr fun names after _ h name slot hs hc => ?_)
  exact hnone ⟨names, after, h, name, slot, hs, hc⟩

end LinkedSchema
