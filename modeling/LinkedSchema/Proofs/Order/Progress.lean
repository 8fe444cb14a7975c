import LinkedSchema.Proofs.Order.Copies
import LinkedSchema.Proofs.Order.Ready

namespace LinkedSchema.Source

open Compilation

variable {source : Source} {good : String → Prop} {before after : Registry} {name owner : String}
  {bound : Nat} {add : DefnCompiler}

namespace AddsAll

variable (hall : source.AddsAll good add bound) (hadd : source.AddsWell add)
  (hn : source.NamesApart) (hg : source.Compilable good) (hc : source.custom.get? owner = none)
  (h : good owner) (hr : source.Ready bound before owner)

include hall hadd hn hg hc h hr

theorem mapFields {defn : StructDefn} {details : Table FieldDetails}
    (ho : source.Origin owner (.struct defn)) (hrep : defn.representation = .map details)
    (hk : (defn.fields.entries.map (StructDefn.keyOf details)).Nodup) :
    ∃ built after, Gives (defn.fields.entries.foldlM
      (StructDefn.compileMapField source add owner details) []) before built after := by
  suffices ∃ built after, Gives (defn.fields.entries.foldlM
      (StructDefn.compileMapField source add owner details) []) before built after ∧
        source.Ready bound after owner ∧
          built.map Field.key = defn.fields.entries.map (StructDefn.keyOf details) by
    obtain ⟨built, after, h, -⟩ := this
    exact ⟨built, after, h⟩
  refine exists_foldlM (I := fun done (built : List Field) registry =>
    source.Ready bound registry owner ∧ built.map Field.key = done.map (StructDefn.keyOf details))
    (fun done entry rest he built registry hi => ?_) ⟨hr, rfl⟩
  obtain ⟨hready, hbuilt⟩ := hi
  have hm : entry ∈ defn.fields.entries := by simp [← he]
  have hp : (entry.1, entry.2.type) ∈ (TypeDefn.struct defn).parts :=
    List.mem_map.mpr ⟨entry, hm, rfl⟩
  obtain ⟨slot, reached, hslot, hready⟩ := hall.slotOfTerm hadd hn hg hc ho h hp hready
  have hfound := (gives_slotOfTerm.mp hslot).2
  obtain ⟨implicit, himplicit⟩ : ∃ implicit, BuiltImplicit reached.Types slot
      ((details.get? entry.1).getD {}).implicit implicit := by
    cases hjson : ((details.get? entry.1).getD {}).implicit with
    | none => exact ⟨none, .none⟩
    | some json =>
      obtain ⟨literal, hs, hreads⟩ := hg.implicit h hc ho hrep hm hjson
      obtain ⟨value, ht⟩ := hreads reached slot hready.faithful hready.awaits hfound
      exact ⟨some value, .some hs ht⟩
  have hnew : StructDefn.keyOf details entry ∉ built.map Field.key := by
    rw [hbuilt]
    rw [← he, List.map_append, List.map_cons] at hk
    exact not_mem_of_nodup_append hk
  refine ⟨built ++ [⟨entry.1, StructDefn.keyOf details entry, ⟨slot, entry.2.nullable⟩,
    entry.2.isOptional, implicit⟩], reached, StructDefn.gives_compileMapField.mpr
      ⟨_, rfl, hnew, hslot, rfl, rfl, hfound, rfl, rfl, himplicit⟩, hready, ?_⟩
  rw [List.map_append, List.map_append, hbuilt, List.map_singleton, List.map_singleton]

theorem tupleFields {defn : StructDefn} {names : List String}
    (ho : source.Origin owner (.struct defn)) (hnames : names ⊆ defn.fields.keys) :
    ∃ built after, Gives (names.mapM (StructDefn.compileTupleField source add owner defn.fields))
      before built after := by
  suffices ∃ built after, Gives
      (names.mapM (StructDefn.compileTupleField source add owner defn.fields)) before built after ∧
        source.Ready bound after owner by
    obtain ⟨built, after, h, -⟩ := this
    exact ⟨built, after, h⟩
  refine exists_mapM (I := fun registry => source.Ready bound registry owner)
    (fun name hm registry hready => ?_) hr
  obtain ⟨part, hget⟩ :=
    Option.isSome_iff_exists.mp (Table.get?_isSome_iff.mpr (hnames hm))
  have hp : (name, part.type) ∈ (TypeDefn.struct defn).parts :=
    List.mem_map.mpr ⟨(name, part), Table.get?_eq_some_iff.mp hget, rfl⟩
  obtain ⟨slot, reached, hslot, hready⟩ := hall.slotOfTerm hadd hn hg hc ho h hp hready
  refine ⟨⟨name, name, ⟨slot, part.nullable⟩, part.isOptional, none⟩, reached,
    StructDefn.gives_compileTupleField.mpr ⟨part, hget, hslot, ?_⟩, hready⟩
  exact ⟨rfl, rfl, (gives_slotOfTerm.mp hslot).2, rfl, rfl, .none⟩

theorem members {defn : UnionDefn} {invalid : UnionFlaw → SchemaError}
    (ho : source.Origin owner (.union defn)) (hnames : defn.members.Nodup) :
    ∃ built after, Gives (defn.members.foldlM (UnionDefn.compileMember source add invalid) [])
      before built after := by
  suffices ∃ built after,
      Gives (defn.members.foldlM (UnionDefn.compileMember source add invalid) []) before built
        after ∧ source.Ready bound after owner ∧ built.map Member.name = defn.members by
    obtain ⟨built, after, h, -⟩ := this
    exact ⟨built, after, h⟩
  refine exists_foldlM (I := fun done (built : List Member) registry =>
    source.Ready bound registry owner ∧ built.map Member.name = done)
    (fun done name rest he built registry hi => ?_) ⟨hr, rfl⟩
  obtain ⟨hready, rfl⟩ := hi
  have hp : ("member", .named name) ∈ (TypeDefn.union defn).parts :=
    List.mem_map.mpr ⟨name, by simp [← he], rfl⟩
  obtain ⟨slot, reached, hslot, hready⟩ := hall.slotOfTerm hadd hn hg hc ho h hp hready
  obtain ⟨hgives, hfound⟩ := gives_slotOfTerm.mp hslot
  have hnew : name ∉ built.map Member.name := by
    rw [← he] at hnames
    exact not_mem_of_nodup_append hnames
  refine ⟨built ++ [⟨name, slot⟩], reached,
    UnionDefn.gives_compileMember.mpr ⟨slot, hnew, rfl, hgives, hfound⟩, hready, ?_⟩
  rw [List.map_append, List.map_singleton]

/-- A definition can be compiled if it passes the checks, and its parts can be compiled. -/
theorem compile {defn : TypeDefn} (ho : source.Origin owner defn)
    (hcopy : ∀ fromType, defn ≠ .copy fromType) :
    ∃ made after, Gives (defn.compile source add owner) before made after := by
  have hpart : ∀ part ∈ defn.parts, ∃ slot after,
      Gives (Compilation.slotOfTerm source add owner part.1 part.2) before slot after := by
    intro part hp
    obtain ⟨slot, after, hslot, -⟩ := hall.slotOfTerm hadd hn hg hc ho h hp hr
    exact ⟨slot, after, hslot⟩
  have hadmissible := hg.admissible h hc ho
  cases defn with
  | map defn =>
    obtain ⟨slot, after, hslot⟩ := hpart _ (List.mem_singleton_self _)
    rcases hadmissible.representation with hrep | hrep
    · exact ⟨_, after, MapDefn.gives_compile.mpr
        ⟨slot, hslot, hadmissible.keyType, .inl ⟨hrep, rfl⟩⟩⟩
    · exact ⟨_, after, MapDefn.gives_compile.mpr
        ⟨slot, hslot, hadmissible.keyType, .inr ⟨hrep, rfl⟩⟩⟩
  | list defn =>
    obtain ⟨slot, after, hslot⟩ := hpart _ (List.mem_singleton_self _)
    exact ⟨_, after, ListDefn.gives_compile.mpr ⟨slot, hslot, hadmissible, rfl⟩⟩
  | struct defn =>
    simp only [TypeDefn.compile, StructDefn.compile]
    cases hadmissible with
    | map hrep hd hk =>
      obtain ⟨built, after, hbuilt⟩ := hall.mapFields hadd hn hg hc h hr ho hrep hk
      rw [hrep]
      have hdetails := fun name hm => Table.contains_iff.mpr (hd (a := name) hm)
      exact ⟨_, after, StructDefn.gives_compileMap.mpr ⟨hdetails, built, hbuilt, rfl⟩⟩
    | tuple hrep hopt hnames =>
      obtain ⟨names, hnames⟩ := StructDefn.exists_tupleOrder_iff.mpr hnames
      have hsub := (StructDefn.tupleOrder_eq_ok_iff.mp hnames).2.subset
      obtain ⟨built, after, hbuilt⟩ := hall.tupleFields hadd hn hg hc h hr ho hsub
      rw [hrep]
      exact ⟨_, after,
        StructDefn.gives_compileTuple.mpr ⟨hopt, names, hnames, built, hbuilt, rfl⟩⟩
  | union defn =>
    obtain ⟨strategy, hstrategy⟩ := UnionDefn.exists_strategy_iff.mpr hadmissible.distinguishes
    obtain ⟨built, after, hbuilt⟩ := hall.members hadd hn hg hc h hr ho hadmissible.nodup
    exact ⟨_, after, UnionDefn.gives_compile.mpr ⟨strategy, built, hstrategy, hbuilt, rfl⟩⟩
  | enum defn =>
    obtain ⟨node, hnode⟩ := EnumDefn.exists_compile_iff.mpr hadmissible
    exact ⟨node, before, gives_except.mpr ⟨hnode, rfl⟩⟩
  | copy fromType => exact absurd rfl (hcopy fromType)
  | _ => exact ⟨_, before, gives_pure.mpr ⟨rfl, rfl⟩⟩

end AddsAll

/-- A copy can be compiled if the type that it copies can. -/
theorem exists_addCopy (hn : source.NamesApart) (hg : source.Compilable good)
    (hall : source.AddsAll good add bound) (hadd : source.AddsWell add) {fromType : String}
    (hc : source.custom.get? name = none) (hd : source.definition? name = some (.copy fromType))
    (h : good name) (hf : source.Faithful before) (ha : source.Awaits before name)
    (hb : 2 * source.remaining before ≤ bound) :
    ∃ after, Gives (addCopy source add name fromType) before () after := by
  obtain ⟨target, hl, hroot⟩ := hg.root h
  have hcopy : ∀ other next, source.IsRoot other → source.custom.get? other = none →
      source.definition? other ≠ some (.copy next) := by
    intro other next hroot hc' hd'
    cases hroot with
    | custom hc'' => simp [hc'] at hc''
    | defined _ ho hcopy => exact hcopy next (hn.origin_unique ho (.declared hd'))
  cases hl with
  | refl => exact absurd hd (hcopy _ _ hroot hc)
  | copy _ hd' hl =>
    rw [hd] at hd'
    cases hd'
    have hpart : ("fromType", TypeTerm.named fromType) ∈ (TypeDefn.copy fromType).parts :=
      List.mem_singleton_self _
    have hm := hn.means_part (.declared hd) hc hpart
    have hchain : ∀ other ∈ [name], source.Before fromType other := by
      intro other ho
      rw [List.mem_singleton.mp ho]
      exact ⟨hc, fromType, hd, .refl _⟩
    have hchased : ∃ names stop, Gives (followCopies source name (source.schema.types.size + 2)
        [name] fromType) before (names, stop) before ∧
          ((before.slot? stop).isSome = true ∨ stop = target) :=
      exists_followCopies hn hl hroot hm.not_mem_inlines hchain (List.nodup_singleton name)
        (Nat.le_add_right _ _)
    obtain ⟨names, stop, hfollow, hstop⟩ := hchased
    have hadds : ∃ found, Gives (addNamed source add stop) before () found := by
      rcases hstop with hs | rfl
      · exact ⟨before, gives_addNamed.mpr (.inl ⟨hs, rfl⟩)⟩
      · have hleads : source.Leads name stop := .copy hc hd hl
        refine hall.addNamed hg (hn.means_of_leads hm hl).not_mem_inlines (hg.leads h hleads) hf
          (ha.leads hleads) fun defn hfound hcustom hnone => ?_
        exact .inr ⟨fun next he => hcopy stop next hroot hcustom (he ▸ hfound), hnone, hb⟩
    obtain ⟨found, hadds⟩ := hadds
    obtain ⟨shared, hshared⟩ := Option.isSome_iff_exists.mp (hadd.addNamed hf.wellFormed hadds).2
    have hjoined : ∃ after, Gives (names.forM fun name => modify (·.addName name shared)) found ()
        after ∧ True :=
      exists_forM (I := fun _ => True)
        (fun name _ registry _ => ⟨_, gives_modify.mpr rfl, trivial⟩) trivial
    obtain ⟨after, hjoin, -⟩ := hjoined
    have hcopied := gives_copiedSlot.mpr ⟨stop, before, hfollow, hadds, hshared⟩
    exact ⟨after, gives_addCopy.mpr ⟨names, shared, found, hcopied, hjoin⟩⟩

theorem addsAll_addDefnUpTo (hn : source.NamesApart) (hg : source.Compilable good) (most : Nat) :
    source.AddsAll good (addDefnUpTo source most) most := by
  induction most with
  | zero =>
    intro name defn before ho hc h hf ha hb
    rcases hb with hb | ⟨-, hs, hb⟩
    · omega
    · have hlt := remaining_reserve_lt hs ho.mem_definedNames
      omega
  | succ most ih =>
    intro name defn before ho hc h hf ha hb
    by_cases hs : (before.slot? name).isSome = true
    · exact ⟨before, gives_addDefnUpTo_succ.mpr (.inl ⟨hs, rfl⟩)⟩
    have hnone : before.slot? name = none := by simpa using hs
    have hadd := addsWell_addDefnUpTo source most
    by_cases hcopy : ∃ fromType, defn = .copy fromType
    · obtain ⟨fromType, rfl⟩ := hcopy
      have hmost : 2 * source.remaining before ≤ most := by
        rcases hb with hb | ⟨hb, -⟩
        · omega
        · exact absurd rfl (hb fromType)
      obtain ⟨after, hcopied⟩ := exists_addCopy hn hg ih hadd hc ho.copy h hf ha hmost
      refine ⟨after, gives_addDefnUpTo_succ.mpr (.inr ⟨hnone, ?_⟩)⟩
      simp only [hc]
      exact hcopied
    · have hne : ∀ fromType, defn ≠ .copy fromType := fun fromType he => hcopy ⟨fromType, he⟩
      have hroot : source.IsRoot name := .defined hc ho hne
      -- With the slot of this name reserved, fewer names are left than before.
      have hfewer := remaining_reserve_lt hnone ho.mem_definedNames
      have hready : source.Ready most (before.reserve name) name := by
        refine ⟨hf.reserve hnone hroot, ha.reserve hnone hroot, ?_⟩
        rcases hb with hb | ⟨-, -, hb⟩ <;> omega
      obtain ⟨made, between, hmade⟩ := ih.compile hadd hn hg hc h hready ho hne
      have hself := Option.isSome_of_eq_some (before.slot?_reserve_self name)
      have hsize := (hadd.compile ho hself hc hready.faithful.wellFormed hmade).1.size
      rw [Registry.size_reserve] at hsize
      obtain ⟨after, hfill⟩ := Registry.exists_fill? hsize made
      refine ⟨after, gives_addDefnUpTo_succ.mpr (.inr ⟨hnone, ?_⟩)⟩
      split
      · rename_i transform hcustom
        simp [hc] at hcustom
      · exact absurd ⟨_, rfl⟩ hcopy
      · exact gives_fillNewSlot.mpr ⟨made, between, hmade, hfill⟩

/-- A type that passes the checks can be compiled, at any time. -/
theorem exists_addType (hn : source.NamesApart) (hg : source.Compilable good)
    (hm : source.Means name (.named name)) (h : good name) (hf : source.Faithful before)
    (ha : source.Awaits before name) :
    ∃ after, Gives (source.addType name) before () after := by
  have hall : source.AddsAll good source.addDefn (2 * source.remaining before + 1) := by
    intro name defn before ho hc h hf ha _
    have hb : 2 * source.remaining before + 1 ≤ source.budget defn :=
      remaining_lt_budget before defn
    exact addsAll_addDefnUpTo hn hg (source.budget defn) name defn before ho hc h hf ha (.inl hb)
  exact hall.addNamed hg hm.not_mem_inlines h hf ha fun _ _ _ _ => .inl (Nat.le_refl _)

/-- Types that pass the checks can be compiled one after the other, in every order. -/
theorem exists_addTypes (hn : source.NamesApart) (hg : source.Compilable good)
    {names : List String}
    (hm : ∀ name ∈ names, source.Means name (.named name) ∧ good name) :
    ∃ after, Gives (names.forM source.addType) ∅ () after := by
  suffices ∃ after, Gives (names.forM source.addType) ∅ () after ∧ source.Compiles ∅ after by
    obtain ⟨after, h, -⟩ := this
    exact ⟨after, h⟩
  refine exists_forM (fun name hmem registry hc => ?_) (.refl _)
  have hf : source.Faithful registry := Faithful.empty.moves hn hc.moves
  have ha : source.Awaits registry name := by
    intro slot hlt hempty
    obtain ⟨_, hnode⟩ := hc.full.exists_node? hlt
    simp [hempty] at hnode
  obtain ⟨after, h⟩ := exists_addType hn hg (hm name hmem).1 (hm name hmem).2 hf ha
  exact ⟨after, h, hc.trans (compiles_addType hf.wellFormed h).1⟩

end LinkedSchema.Source
