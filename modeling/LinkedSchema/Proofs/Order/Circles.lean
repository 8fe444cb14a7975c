import LinkedSchema.Proofs.Order.References

namespace LinkedSchema.Source

open Compilation

variable {source : Source} {registry after : Registry} {name target via : String} {slot : Slot}
  {literal value : Value} {path : List String}

/-- A type that reads literals and refers to others is a union. -/
theorem NamesApart.union_of_refers (hn : source.NamesApart)
    (h : source.ReadsLiteral name literal path value) {next : String}
    (hr : source.Refers name next) :
    ∃ defn, source.definition? name = some (.union defn) := by
  obtain ⟨hc, defn, ho, part, hp, -⟩ := hr
  cases h with
  | custom hc' => simp [hc] at hc'
  | leaf _ ho' hnone =>
    cases hn.origin_unique ho ho'
    simp [hnone] at hp
  | union _ ho' => exact ⟨_, ho'.union⟩

/-- No struct reads literals, if it has a field. -/
theorem NamesApart.not_readsLiteral (hn : source.NamesApart) {defn : StructDefn}
    {entry : String × StructField} (hc : source.custom.get? name = none)
    (ho : source.Origin name (.struct defn)) (hm : entry ∈ defn.fields.entries) :
    ¬source.ReadsLiteral name literal path value := by
  intro h
  cases h with
  | custom hc' => simp [hc] at hc'
  | leaf _ ho' hnone =>
    cases hn.origin_unique ho ho'
    rw [TypeDefn.parts, List.map_eq_nil_iff] at hnone
    simp [hnone] at hm
  | union _ ho' => cases hn.origin_unique ho ho'

/-- When a struct is compiled, the types through which its implicit values are read are, too. -/
theorem Faithful.filled_of_implicit (hn : source.NamesApart) (hf : source.Faithful registry)
    {defn : StructDefn} {details : Table FieldDetails} {entry : String × StructField}
    {json : Json Empty} {node : Node} (hc : source.custom.get? name = none)
    (ho : source.Origin name (.struct defn)) (hr : defn.representation = .map details)
    (hm : entry ∈ defn.fields.entries)
    (hi : ((details.get? entry.1).getD {}).implicit = some json) (hs : scalar? json = some literal)
    (hl : source.Leads (entry.2.type.nameIn name entry.1) target)
    (hread : source.ReadsLiteral target literal path value)
    (hslot : registry.slot? name = some slot) (hnode : registry.node? slot = some node) :
    ∀ via ∈ path,
      ∃ slot node, registry.slot? via = some slot ∧ registry.node? slot = some node := by
  obtain ⟨_, field, -, -, hb⟩ :=
    (hf.built hn hc (.defined hc ho nofun) ho hslot hnode).exists_field hr hm
  obtain ⟨other, value, hs', -, ht⟩ := hb.exists_value hi
  cases hs.symm.trans hs'
  obtain ⟨other, hlead, hroot, hother⟩ := hf.root _ _ hb.slot
  rw [hn.leads_unique hlead hl hroot hread.isRoot] at hother
  obtain ⟨most, hmost⟩ := hf.wellFormed.outcome_eq_ok_iff.mp ht
  exact hf.filled_of_readsLiteral hn hread hother hmost

/-- The first type that is asked for is compiled while nothing else is. -/
theorem exists_compile_of_addType {defn : TypeDefn} (hc : source.custom.get? name = none)
    (hd : source.definition? name = some defn) (hcopy : ∀ fromType, defn ≠ .copy fromType)
    (h : Gives (source.addType name) ∅ () after) :
    ∃ most made registry, Gives (defn.compile source (addDefnUpTo source most) name)
      (Registry.reserve ∅ name) made registry := by
  rcases gives_addNamed.mp h with ⟨hs, -⟩ | ⟨-, ⟨_, hc', -⟩ | ⟨found, -, hfound, hadd⟩⟩
  · cases hs
  · simp [hc] at hc'
  rw [hd] at hfound
  cases hfound
  simp only [addDefn] at hadd
  cases hbudget : source.budget defn with
  | zero =>
    rw [hbudget] at hadd
    exact (gives_throw.mp hadd).elim
  | succ most =>
    rw [hbudget] at hadd
    rcases gives_addDefnUpTo_succ.mp hadd with ⟨hs, -⟩ | ⟨-, hfill⟩
    · cases hs
    split at hfill
    · rename_i hcustom
      simp [hc] at hcustom
    · exact absurd rfl (hcopy _)
    · obtain ⟨made, registry, hmade, -⟩ := gives_fillNewSlot.mp hfill
      exact ⟨most, made, registry, hmade⟩

/-- While a union is compiled first, all types that it reaches are compiled but itself. -/
theorem NamesApart.exists_while (hn : source.NamesApart) {defn : UnionDefn}
    (hc : source.custom.get? via = none) (hd : source.definition? via = some (.union defn))
    (h : Gives (source.addType via) ∅ () after) :
    ∃ registry : Registry, source.Faithful registry ∧
      (∀ node slot, registry.slot? via = some slot → registry.node? slot ≠ some node) ∧
        ∀ name, source.IsRoot name → source.Reaches via name → name ≠ via →
          ∃ slot node, registry.slot? name = some slot ∧ registry.node? slot = some node := by
  have hroot : source.IsRoot via := .defined hc (.declared hd) nofun
  obtain ⟨most, made, registry, hmade⟩ := exists_compile_of_addType hc hd nofun h
  have hstart : source.Faithful (Registry.reserve ∅ via) := Faithful.empty.reserve rfl hroot
  have hself := Registry.slot?_reserve_self ∅ via
  obtain ⟨hcomp, hb⟩ := (addsWell_addDefnUpTo source most).compile (.declared hd)
    (Option.isSome_of_eq_some hself) hc hstart.wellFormed hmade
  have hf : source.Faithful registry := hstart.moves hn hcomp.moves
  have hslot : registry.slot? via = some 0 :=
    hcomp.moves.slot? hself
  have hempty : registry.node? 0 = none := by
    rw [hcomp.old 0 (by rw [Registry.size_reserve]; exact Nat.zero_lt_succ _),
      Registry.node?_reserve, Registry.node?_empty]
  have hfilled : ∀ name slot, source.IsRoot name → registry.slot? name = some slot → name ≠ via →
      ∃ node, registry.node? slot = some node := by
    intro name slot hr hs hne
    have hpos : 1 ≤ slot := by
      rcases Nat.eq_zero_or_pos slot with rfl | hpos
      · exact absurd (hf.unique name via 0 hr hroot hs hslot) hne
      · exact hpos
    exact Option.isSome_iff_exists.mp (hcomp.filled slot hpos (hf.bound name slot hs))
  have hplaced : ∀ name, source.Reaches via name → source.Placed registry name := by
    intro name hreach
    induction hreach with
    | refl => exact hf.placed hslot
    | tail _ hrefers ih =>
      rename_i name next _
      refine hf.placed_of_refers hn ih hrefers fun inner slot hr ho hs => ?_
      by_cases hname : name = via
      · subst hname
        cases hn.origin_unique ho (.declared hd)
        exact ⟨made, hb⟩
      · obtain ⟨node, hnode⟩ := hfilled name slot hr hs hname
        exact ⟨node, hf.built hn hrefers.1 hr ho hs hnode⟩
  refine ⟨registry, hf, fun node slot hs hnode => ?_, fun name hr hreach hne => ?_⟩
  · rw [hslot] at hs
    cases hs
    simp [hempty] at hnode
  · obtain ⟨slot, hs⟩ := hn.slot?_of_placed (hplaced name hreach) hr
    obtain ⟨node, hnode⟩ := hfilled name slot hr hs hne
    exact ⟨slot, node, hs, hnode⟩

/-- Some type is compiled with every circular struct, and cannot be compiled before it. -/
theorem Circular.exists_via (hn : source.NamesApart) (h : source.Circular name) :
    ∃ via, source.Means via (.named via) ∧
      (∀ (registry : Registry) slot node, source.Faithful registry →
        registry.slot? name = some slot → registry.node? slot = some node →
          ∃ slot, registry.slot? via = some slot) ∧
        ∀ after, ¬Gives (source.addType via) ∅ () after := by
  obtain ⟨hc, ho, hr, hm, hi, hs, hl, hread, hvia, hback⟩ := h
  rename_i via _
  obtain ⟨_, _, _, hvialit⟩ := hread.of_mem hvia
  have hne : name ≠ via := by
    intro he
    subst he
    exact hn.not_readsLiteral hc ho hm hvialit
  rcases Relation.ReflTransGen.cases_head hback with he | ⟨next, hrefers, _⟩
  · exact absurd he.symm hne
  obtain ⟨defn, hd⟩ := hn.union_of_refers hvialit hrefers
  refine ⟨via, .named fun inner hinner => ?_, fun registry slot node hf hslot hnode => ?_,
    fun after hadd => ?_⟩
  · rw [hn.definition?_eq_none hinner] at hd
    cases hd
  · obtain ⟨slot, _, hs, -⟩ :=
      hf.filled_of_implicit hn hc ho hr hm hi hs hl hread hslot hnode via hvia
    exact ⟨slot, hs⟩
  · obtain ⟨registry, hf, hempty, hfilled⟩ := hn.exists_while hrefers.1 hd hadd
    obtain ⟨slot, node, hslot, hnode⟩ := hfilled name (.defined hc ho nofun) hback hne
    obtain ⟨slot, node, hs, hnode⟩ :=
      hf.filled_of_implicit hn hc ho hr hm hi hs hl hread hslot hnode via hvia
    exact hempty node slot hs hnode

end LinkedSchema.Source
