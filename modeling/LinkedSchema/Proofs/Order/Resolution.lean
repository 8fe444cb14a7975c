import LinkedSchema.Proofs.Compile.Places
import LinkedSchema.Proofs.Order.Orders

namespace LinkedSchema

namespace Source

/-- The definition belongs to a type that is compiled: it is that of the declared type, unless that
is a copy, or stands in a place of it. -/
inductive Present (source : Source) (registry : Registry) : String → TypeDefn → Prop where
  | declared {name : String} {defn : TypeDefn} (hs : (registry.slot? name).isSome = true)
      (hd : source.definition? name = some defn) (hn : ∀ fromType, defn ≠ .copy fromType) :
      Present source registry name defn
  | inline {place : Place} {defn : TypeDefn} (hs : (registry.slot? place.declared).isSome = true)
      (hp : (place, defn) ∈ source.places) : Present source registry place.name defn

/-- Every reference of a compiled type is resolved to its own definition. -/
structure Resolves (source : Source) (registry : Registry) : Prop where
  /-- Definitions in the place of references and those of declared types are compiled as they are. -/
  own : ∀ name defn, source.Present registry name defn → registry.Holds name defn
  /-- The types that are referred to by name are compiled. -/
  named : ∀ name defn, source.Present registry name defn → ∀ part other,
    (part, .named other) ∈ defn.parts → (registry.slot? other).isSome = true
  /-- A copy has the slot of the declared type to which it leads. -/
  copies : ∀ name fromType, (registry.slot? name).isSome = true →
    source.definition? name = some (.copy fromType) → ∃ target found,
      source.Leads name target ∧ source.definition? target = some found ∧
        (∀ fromType, found ≠ .copy fromType) ∧ registry.slot? target = registry.slot? name
  /-- Definitions in different places have different slots. -/
  apart : ∀ first second, first ∈ source.places → second ∈ source.places →
    (registry.slot? first.1.declared).isSome = true →
      (registry.slot? second.1.declared).isSome = true →
        registry.slot? first.1.name = registry.slot? second.1.name → first.1 = second.1
  /-- No declared type has the slot of a definition in the place of a reference. -/
  foreign : ∀ entry ∈ source.places, (registry.slot? entry.1.declared).isSome = true →
    ∀ name, (source.definition? name).isSome = true →
      registry.slot? name ≠ registry.slot? entry.1.name

/-- Made-up names differ from one another and from the names of the declared types, none of which is
a copy of what has a made-up name. -/
structure DistinctNames (source : Source) : Prop where
  nodup : (source.inlines.map Prod.fst).Nodup
  declared : ∀ entry ∈ source.inlines, source.schema.types.get? entry.1 = none
  copied : ∀ entry ∈ source.inlines, ∀ other ∈ source.schema.types.entries,
    other.2 ≠ .copy entry.1

variable {source : Source} {schema : Schema} {registry : Registry} {name other target : String}
  {defn : TypeDefn}

/-- A name that leads to a declared type is declared. -/
theorem Leads.isSome_definition? (hl : source.Leads name target)
    (ht : (source.definition? target).isSome = true) :
    (source.definition? name).isSome = true := by
  cases hl with
  | refl => exact ht
  | copy _ hd _ =>
    rw [hd]
    rfl

namespace DistinctNames

theorem unambiguous (hn : source.DistinctNames) : source.Unambiguous :=
  unambiguous_of_nodup hn.nodup hn.declared

theorem not_mem_inlines (hn : source.DistinctNames) (hd : source.definition? name = some defn)
    (other : TypeDefn) : (name, other) ∉ source.inlines := by
  intro hm
  rw [definition?_eq_none_of_mem_inlines hn.declared hm] at hd
  cases hd

/-- No made-up name is the end of a chain of copies. -/
theorem not_mem_inlines_of_leads (hn : source.DistinctNames)
    (hm : ∀ defn, (name, defn) ∉ source.inlines) (hl : source.Leads name target) :
    ∀ defn, (target, defn) ∉ source.inlines := by
  induction hl with
  | refl => exact hm
  | copy _ hd _ ih =>
    refine ih fun defn hnext => ?_
    rcases definition?_eq_some_iff.mp hd with hd | ⟨-, hd⟩
    · exact hn.copied _ hnext _ (Table.get?_eq_some_iff.mp hd) rfl
    · have hi := mem_map_named_of_implicitType? hd _ (List.mem_singleton_self _)
      obtain ⟨implicit, hi, he⟩ := List.mem_map.mp hi
      cases he
      exact not_mem_implicitTypeNames_of_mem_inlines hnext hi

/-- What a declared name leads to is declared. -/
theorem exists_definition? (hn : DistinctNames ⟨schema, ∅⟩)
    (hd : definition? ⟨schema, ∅⟩ name = some defn) (hl : Leads ⟨schema, ∅⟩ name target)
    (hr : IsRoot ⟨schema, ∅⟩ target) : ∃ found, definition? ⟨schema, ∅⟩ target = some found ∧
      ∀ fromType, found ≠ .copy fromType := by
  cases hr with
  | custom hc => cases hc
  | defined _ ho hcopy =>
    cases ho with
    | declared hd => exact ⟨_, hd, hcopy⟩
    | inline hi =>
      exact absurd hi (hn.not_mem_inlines_of_leads (hn.not_mem_inlines hd) hl _)

end DistinctNames

namespace Present

theorem origin (h : Present ⟨schema, ∅⟩ registry name defn) : Origin ⟨schema, ∅⟩ name defn := by
  cases h with
  | declared _ hd _ => exact .declared hd
  | inline _ hp => exact .inline (mem_inlines_of_mem_places hp)

theorem ne_copy (h : Present ⟨schema, ∅⟩ registry name defn) (fromType : String) :
    defn ≠ .copy fromType := by
  cases h with
  | declared _ _ hn => exact hn fromType
  | inline _ hp =>
    intro he
    subst he
    obtain ⟨entry, -, -, part, -, hin⟩ := exists_of_mem_inlines (mem_inlines_of_mem_places hp)
    obtain ⟨term, ht⟩ := exists_term_of_mem_inlines _ _ _ hin
    cases term <;> cases ht

theorem isRoot (h : Present ⟨schema, ∅⟩ registry name defn) : IsRoot ⟨schema, ∅⟩ name :=
  .defined rfl h.origin h.ne_copy

end Present

namespace Faithful

variable (hn : DistinctNames ⟨schema, ∅⟩) (hf : Faithful ⟨schema, ∅⟩ registry)
  (hfull : registry.Full)

include hn hf hfull

theorem holds (hr : IsRoot ⟨schema, ∅⟩ name) (ho : Origin ⟨schema, ∅⟩ name defn)
    (hs : (registry.slot? name).isSome = true) : registry.Holds name defn := by
  obtain ⟨slot, hs⟩ := Option.isSome_iff_exists.mp hs
  obtain ⟨node, hnode⟩ := hfull.exists_node? (hf.bound name slot hs)
  exact ⟨slot, node, hs, hnode,
    (hf.compiled hr hs hnode).built_of_unambiguous hn.unambiguous rfl ho⟩

/-- The parts of what is compiled have slots. -/
theorem isSome_slot?_of_part (hr : IsRoot ⟨schema, ∅⟩ name) (ho : Origin ⟨schema, ∅⟩ name defn)
    (hs : (registry.slot? name).isSome = true) {part : String × TypeTerm} (hp : part ∈ defn.parts) :
    (registry.slot? (part.2.nameIn name part.1)).isSome = true := by
  obtain ⟨_, _, _, _, hb⟩ := hf.holds hn hfull hr ho hs
  obtain ⟨found, hfound⟩ := hb.exists_slot hp
  rw [hfound]
  rfl

/-- Definitions in the place of a reference that has a slot have slots, however deep they are. -/
theorem isSome_slot?_of_mem_places {found : Place × TypeDefn} : (term : TypeTerm) →
    (owner : Place) → (part : String) →
    (∀ entry ∈ term.inlines owner.name part, entry ∈ inlines ⟨schema, ∅⟩) →
    (registry.slot? (term.nameIn owner.name part)).isSome = true →
      found ∈ term.places (owner.within part) → (registry.slot? found.1.name).isSome = true
  | .named _, _, _, _, _, h => by cases h
  | .map ⟨keyType, valueType, nullable, representation⟩, owner, part, hsub, hs, h => by
    rw [TypeTerm.places] at h
    rcases List.mem_cons.mp h with rfl | h
    · exact hs
    · have ho : Origin ⟨schema, ∅⟩ (owner.within part).name
          (.map ⟨keyType, valueType, nullable, representation⟩) :=
        .inline (hsub _ (List.mem_cons_self ..))
      have hnext := hf.isSome_slot?_of_part hn hfull (.defined rfl ho (by simp)) ho hs
        (List.mem_singleton_self ("valueType", valueType))
      exact isSome_slot?_of_mem_places valueType (owner.within part) "valueType"
        (fun entry he => hsub entry (List.mem_cons_of_mem _ he)) hnext h
  | .list ⟨valueType, nullable, representation⟩, owner, part, hsub, hs, h => by
    rw [TypeTerm.places] at h
    rcases List.mem_cons.mp h with rfl | h
    · exact hs
    · have ho : Origin ⟨schema, ∅⟩ (owner.within part).name
          (.list ⟨valueType, nullable, representation⟩) :=
        .inline (hsub _ (List.mem_cons_self ..))
      have hnext := hf.isSome_slot?_of_part hn hfull (.defined rfl ho (by simp)) ho hs
        (List.mem_singleton_self ("valueType", valueType))
      exact isSome_slot?_of_mem_places valueType (owner.within part) "valueType"
        (fun entry he => hsub entry (List.mem_cons_of_mem _ he)) hnext h
  | .link _, _, _, _, hs, h => by
    rw [TypeTerm.places, List.mem_singleton] at h
    rw [h]
    exact hs

theorem isSome_slot?_of_place {found : Place × TypeDefn} (hp : found ∈ places ⟨schema, ∅⟩)
    (hs : (registry.slot? found.1.declared).isSome = true) :
    (registry.slot? found.1.name).isSome = true := by
  obtain ⟨-, outer, ho, hm⟩ := exists_declared_of_mem_places hp
  have hd : Origin ⟨schema, ∅⟩ found.1.declared outer :=
    .declared (definition?_eq_some_iff.mpr (.inl ho))
  obtain ⟨part, hpart, hterm⟩ := List.mem_flatMap.mp hm
  have hcopy : ∀ fromType, outer ≠ .copy fromType := by
    intro fromType he
    rw [he, TypeDefn.parts, List.mem_singleton] at hpart
    rw [hpart] at hterm
    cases hterm
  have hnext := hf.isSome_slot?_of_part hn hfull (.defined rfl hd hcopy) hd hs hpart
  refine hf.isSome_slot?_of_mem_places hn hfull part.2 ⟨found.1.declared, []⟩ part.1 ?_ hnext hterm
  intro entry he
  refine List.mem_flatMap.mpr ⟨_, Table.get?_eq_some_iff.mp ho, ?_⟩
  exact List.mem_flatMap.mpr ⟨part, hpart, he⟩

theorem isSome_slot?_of_present (h : Present ⟨schema, ∅⟩ registry name defn) :
    (registry.slot? name).isSome = true := by
  cases h with
  | declared hs _ _ => exact hs
  | inline hs hp => exact hf.isSome_slot?_of_place hn hfull hp hs

theorem resolves : Resolves ⟨schema, ∅⟩ registry := by
  have hroot : ∀ entry ∈ places ⟨schema, ∅⟩, (registry.slot? entry.1.declared).isSome = true →
      IsRoot ⟨schema, ∅⟩ entry.1.name := fun entry hm hs => Present.isRoot (.inline hs hm)
  refine ⟨fun name defn h => ?_, fun name defn h part other hp => ?_, fun name fromType hs hd => ?_,
    fun first second h h' hs hs' he => ?_, fun entry h hs name hd he => ?_⟩
  · exact hf.holds hn hfull h.isRoot h.origin (hf.isSome_slot?_of_present hn hfull h)
  · exact hf.isSome_slot?_of_part hn hfull h.isRoot h.origin
      (hf.isSome_slot?_of_present hn hfull h) hp
  · obtain ⟨slot, hs⟩ := Option.isSome_iff_exists.mp hs
    obtain ⟨target, hl, hr, ht⟩ := hf.root name slot hs
    obtain ⟨found, hfound, hcopy⟩ := hn.exists_definition? hd hl hr
    exact ⟨target, found, hl, hfound, hcopy, by rw [ht, hs]⟩
  · obtain ⟨slot, hslot⟩ := Option.isSome_iff_exists.mp (hf.isSome_slot?_of_place hn hfull h hs)
    have hname := hf.unique _ _ slot (hroot first h hs) (hroot second h' hs') hslot
      (he.symm.trans hslot)
    exact place_unique hn.nodup h h' hname
  · obtain ⟨defn, hd⟩ := Option.isSome_iff_exists.mp hd
    obtain ⟨slot, hslot⟩ := Option.isSome_iff_exists.mp (hf.isSome_slot?_of_place hn hfull h hs)
    obtain ⟨target, hl, hr, ht⟩ := hf.root name slot (he.trans hslot)
    have hname := hf.unique _ _ slot hr (hroot entry h hs) ht hslot
    refine hn.not_mem_inlines_of_leads (hn.not_mem_inlines hd) hl entry.2 ?_
    rw [hname]
    exact mem_inlines_of_mem_places h

end Faithful

namespace Resolves

variable (h : Resolves ⟨schema, ∅⟩ registry)
  (hall : ∀ name, schema.types.contains name = true → (registry.slot? name).isSome = true)

include hall

theorem isSome_slot?_of_declared (hd : schema.types.get? name = some defn) :
    (registry.slot? name).isSome = true := by
  refine hall name ?_
  rw [Table.contains_eq_isSome]
  exact Option.isSome_of_eq_some hd

theorem isSome_slot?_of_mem_places {entry : Place × TypeDefn} (hm : entry ∈ places ⟨schema, ∅⟩) :
    (registry.slot? entry.1.declared).isSome = true := by
  obtain ⟨-, outer, ho, -⟩ := exists_declared_of_mem_places hm
  exact isSome_slot?_of_declared hall ho

include h

/-- Names of places differ, as their slots do. -/
theorem nodup_inlines : ((inlines ⟨schema, ∅⟩).map Prod.fst).Nodup := by
  have hnames : (inlines ⟨schema, ∅⟩).map Prod.fst =
      ((places ⟨schema, ∅⟩).map Prod.fst).map Place.name := by
    rw [inlines_eq_map_places, List.map_map, List.map_map]
    rfl
  rw [hnames]
  refine (nodup_places _).map_on fun place hp other ho he => ?_
  obtain ⟨first, hfirst, rfl⟩ := List.mem_map.mp hp
  obtain ⟨second, hsecond, rfl⟩ := List.mem_map.mp ho
  exact h.apart first second hfirst hsecond (isSome_slot?_of_mem_places hall hfirst)
    (isSome_slot?_of_mem_places hall hsecond) (by rw [he])

/-- No name of a place is that of a declared type. -/
theorem definition?_eq_none_of_mem_inlines {entry : String × TypeDefn}
    (hm : entry ∈ inlines ⟨schema, ∅⟩) : definition? ⟨schema, ∅⟩ entry.1 = none := by
  rw [← Option.not_isSome_iff_eq_none]
  intro hd
  rw [inlines_eq_map_places] at hm
  obtain ⟨found, hf, rfl⟩ := List.mem_map.mp hm
  exact h.foreign found hf (isSome_slot?_of_mem_places hall hf) _ hd rfl

/-- No declared type is a copy of what has the name of a place. -/
theorem ne_copy_of_mem_inlines {entry : String × TypeDefn} (hm : entry ∈ inlines ⟨schema, ∅⟩)
    {declared : String × TypeDefn} (hd : declared ∈ schema.types.entries) :
    declared.2 ≠ .copy entry.1 := by
  intro hcopy
  have hg := Table.get?_eq_some_iff.mpr hd
  rw [hcopy] at hg
  have hd : definition? ⟨schema, ∅⟩ declared.1 = some (.copy entry.1) :=
    definition?_eq_some_iff.mpr (.inl hg)
  obtain ⟨target, found, hl, htarget, hne, -⟩ :=
    h.copies declared.1 entry.1 (isSome_slot?_of_declared hall hg) hd
  cases hl with
  | refl =>
    rw [hd] at htarget
    exact hne entry.1 (Option.some.inj htarget).symm
  | copy _ hnext hl =>
    rw [hd] at hnext
    cases hnext
    have hsome := hl.isSome_definition? (Option.isSome_of_eq_some htarget)
    rw [h.definition?_eq_none_of_mem_inlines hall hm] at hsome
    cases hsome

theorem distinctNames : DistinctNames ⟨schema, ∅⟩ := by
  refine ⟨h.nodup_inlines hall, fun entry hm => ?_, fun entry hm declared hd =>
    h.ne_copy_of_mem_inlines hall hm hd⟩
  have hnone := h.definition?_eq_none_of_mem_inlines hall hm
  cases hg : schema.types.get? entry.1 with
  | none => rfl
  | some defn =>
    rw [definition?_eq_some_iff.mpr (.inl hg)] at hnone
    cases hnone

end Resolves

end Source

/-- Pages with lines of words, and with marks under a name of their own. -/
def pageSchema (marks : String) : Schema where
  types := Table.ofList [("Page", .struct ⟨Table.ofList [
    ("lines", ⟨.list ⟨.list ⟨.named "String", false, .list⟩, false, .list⟩, false, false⟩),
    (marks, ⟨.list ⟨.named "Int", false, .list⟩, false, false⟩)], .map ∅⟩)]

/-- A page without lines, with one mark. -/
def pageGiven (marks : String) : Value :=
  .map (.ofList [("lines", .list []), (marks, .list [.int 1])])

/-- References are resolved to their own definitions if made-up names are told apart; and only then,
if all declared types are compiled. -/
theorem resolves_iff_distinctNames {schema : Schema} {names : List String} {after : Registry}
    (h : Source.Requests ⟨schema, ∅⟩ names after) :
    (Source.DistinctNames ⟨schema, ∅⟩ → Source.Resolves ⟨schema, ∅⟩ after) ∧
      ((∀ name, schema.types.contains name = true → (after.slot? name).isSome = true) →
        Source.Resolves ⟨schema, ∅⟩ after → Source.DistinctNames ⟨schema, ∅⟩) :=
  ⟨fun hn => (h.faithful_of_unambiguous hn.unambiguous).resolves hn h.full,
    fun hall hr => hr.distinctNames hall⟩

/-- Lines, words and marks have slots of their own where the marks have a usual name. -/
theorem resolves_iff_distinctNames_page : ∃ after,
    Source.Requests ⟨pageSchema "marks", ∅⟩ ["Page"] after ∧
      Source.DistinctNames ⟨pageSchema "marks", ∅⟩ ∧
        Source.Resolves ⟨pageSchema "marks", ∅⟩ after := by
  have hn : Source.DistinctNames ⟨pageSchema "marks", ∅⟩ :=
    ⟨by decide +kernel, by decide +kernel, by decide +kernel⟩
  obtain ⟨after, h⟩ : ∃ after, Source.Requests ⟨pageSchema "marks", ∅⟩ ["Page"] after :=
    Source.Requests.exists_iff.mpr (by decide +kernel)
  exact ⟨after, h, hn, (resolves_iff_distinctNames h).1 hn⟩

/-- Where the name of the marks continues the name made up for the lines, the marks have the slot of
a line of words, and a page with a mark is refused. -/
theorem not_resolves_page : ∃ transformer,
    Source.create ⟨pageSchema "lines (anon) > valueType", ∅⟩ "Page" = .ok transformer ∧
      ¬Source.Resolves ⟨pageSchema "lines (anon) > valueType", ∅⟩ transformer.registry ∧
        (∃ marks words, (marks, .list ⟨.named "Int", false, .list⟩) ∈
            Source.places ⟨pageSchema "lines (anon) > valueType", ∅⟩ ∧
          (words, .list ⟨.named "String", false, .list⟩) ∈
            Source.places ⟨pageSchema "lines (anon) > valueType", ∅⟩ ∧ marks ≠ words ∧
          transformer.registry.slot? marks.name = transformer.registry.slot? words.name ∧
          ¬transformer.registry.Holds marks.name (.list ⟨.named "Int", false, .list⟩)) ∧
        (transformer.toTyped (pageGiven "lines (anon) > valueType")).result
          (pageGiven "lines (anon) > valueType") = .error .nonconforming := by
  have hrun : (Source.create ⟨pageSchema "lines (anon) > valueType", ∅⟩ "Page").toOption.any
      (fun transformer => (transformer.registry.slot? "Page").isSome &&
        (transformer.registry.slot? "Int" = none) &&
        ((transformer.toTyped (pageGiven "lines (anon) > valueType")).result
          (pageGiven "lines (anon) > valueType") = .error .nonconforming)) = true := by
    decide +kernel
  have hmarks : (⟨"Page", ["lines (anon) > valueType"]⟩, .list ⟨.named "Int", false, .list⟩) ∈
      Source.places ⟨pageSchema "lines (anon) > valueType", ∅⟩ := by
    decide +kernel
  have hwords : (⟨"Page", ["valueType", "lines"]⟩, .list ⟨.named "String", false, .list⟩) ∈
      Source.places ⟨pageSchema "lines (anon) > valueType", ∅⟩ := by
    decide +kernel
  cases hc : Source.create ⟨pageSchema "lines (anon) > valueType", ∅⟩ "Page" with
  | error error =>
    rw [hc] at hrun
    cases hrun
  | ok transformer =>
    rw [hc] at hrun
    obtain ⟨hslots, hr⟩ := Bool.and_eq_true_iff.mp hrun
    obtain ⟨hpage, hint⟩ := Bool.and_eq_true_iff.mp hslots
    have hr := of_decide_eq_true hr
    have hint := of_decide_eq_true hint
    have hnot : ¬transformer.registry.Holds
        (Place.name ⟨"Page", ["lines (anon) > valueType"]⟩)
        (.list ⟨.named "Int", false, .list⟩) := by
      intro h
      obtain ⟨_, _, _, _, hb⟩ := h
      obtain ⟨slot, hs⟩ := hb.exists_slot
        (List.mem_singleton_self ("valueType", TypeTerm.named "Int"))
      rw [TypeTerm.nameIn, hint] at hs
      cases hs
    have hname : Place.name ⟨"Page", ["lines (anon) > valueType"]⟩ =
        Place.name ⟨"Page", ["valueType", "lines"]⟩ := by
      decide +kernel
    refine ⟨transformer, rfl, fun h => hnot (h.own _ _ (.inline hpage hmarks)),
      ⟨_, _, hmarks, hwords, by decide, by rw [hname], hnot⟩, hr⟩

end LinkedSchema
