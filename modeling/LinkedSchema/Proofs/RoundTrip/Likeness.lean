import LinkedSchema.Proofs.RoundTrip.Rereading

namespace LinkedSchema

theorem Binary64.isFinite_of_same {x y : Binary64} (h : x.same y = true)
    (hx : x.isFinite = true) : y.isFinite = true := by
  simp only [same, Bool.and_eq_true, Bool.or_eq_true, decide_eq_true_eq] at h
  rcases h.2 with hb | ⟨-, hz⟩
  · rwa [show y = x from congrArg Binary64.mk hb.symm]
  · simp only [isZero, decide_eq_true_eq] at hz
    simp [isFinite, exponentField, hz, topField, fractionCount]

/-- Maps made of entries with the same keys and related values have related look-ups. -/
theorem SortedMap.rel_get?_ofList {α β : Type} {rel : α → β → Prop} {entries : List (String × α)}
    {others : List (String × β)} (hn : (entries.map Prod.fst).Nodup)
    (h : List.Forall₂ (fun a b => a.1 = b.1 ∧ rel a.2 b.2) entries others) (key : String) :
    Option.Rel rel ((ofList entries).get? key) ((ofList others).get? key) := by
  have hk : entries.map Prod.fst = others.map Prod.fst := map_eq_of_forall₂ h fun _ _ h => h.1
  have ho : (others.map Prod.fst).Nodup := hk ▸ hn
  cases he : (ofList entries).get? key with
  | some value =>
    obtain ⟨⟨other, found⟩, hm, hkey, hr⟩ :=
      exists_mem_of_forall₂ h _ ((get?_ofList hn).mp he)
    cases hkey
    rw [(get?_ofList ho).mpr hm]
    exact .some hr
  | none =>
    cases hg : (ofList others).get? key with
    | none => exact .none
    | some value =>
      obtain ⟨⟨other, found⟩, hm, hkey, -⟩ :=
        exists_mem_of_forall₂ h.flip _ ((get?_ofList ho).mp hg)
      cases hkey
      rw [(get?_ofList hn).mpr hm] at he
      cases he

namespace Value

variable {value other : Value} {entries others : SortedMap Value none}

theorem rel_get?_of_same (h : (map entries).same (map others) = true) (key : String) :
    Option.Rel (fun a b : Value => a.same b = true) (entries.get? key) (others.get? key) := by
  rw [same, sameEntries_iff] at h
  have hr : Option.Rel (fun a b : Value => a.same b = true)
      ((SortedMap.ofList entries.toList).get? key) ((SortedMap.ofList others.toList).get? key) :=
    SortedMap.rel_get?_ofList entries.nodup_keys h key
  rwa [SortedMap.ofList_toList, SortedMap.ofList_toList] at hr

theorem eq_map_of_same (h : (map entries).same other = true) : ∃ others, other = map others := by
  cases other with
  | map others => exact ⟨others, rfl⟩
  | _ => simp [same] at h

theorem eq_list_of_same {items : List Value} (h : (list items).same other = true) :
    ∃ others, other = list others := by
  cases other with
  | list others => exact ⟨others, rfl⟩
  | _ => simp [same] at h

theorem contains_iff_of_same (h : (map entries).same (map others) = true) (key : String) :
    entries.contains key = others.contains key := by
  have hr := rel_get?_of_same h key
  unfold SortedMap.contains
  generalize entries.get? key = a, others.get? key = b at hr
  cases hr <;> rfl

theorem size_eq_of_same (h : (map entries).same (map others) = true) :
    entries.size = others.size := by
  rw [same, sameEntries_iff] at h
  exact h.length_eq

theorem get?_eq_string_of_same (h : (map entries).same (map others) = true) {key text : String}
    (hg : entries.get? key = some (.string text)) : others.get? key = some (.string text) := by
  have hr := rel_get?_of_same h key
  rw [hg] at hr
  cases hg : others.get? key with
  | none =>
    rw [hg] at hr
    cases hr
  | some found =>
    rw [hg] at hr
    cases hr with
    | some hs => rw [(same_iff_eq (.inl ⟨text, rfl⟩)).mp hs]

theorem kind_eq_of_same (h : value.same other = true) : Kind.of value = Kind.of other := by
  cases value <;> cases other <;> first | rfl | simp [same] at h

theorem admits_of_same {kind : Kind} (h : value.same other = true)
    (ha : kind.admits value = true) : kind.admits other = true := by
  obtain ⟨hk, ha⟩ := Kind.admits_iff.mp ha
  refine Kind.admits_iff.mpr ⟨(kind_eq_of_same h).symm.trans hk, ?_⟩
  rw [Kind.admits_of_iff] at ha ⊢
  intro y hy
  subst hy
  cases value with
  | float x => exact Binary64.isFinite_of_same h (ha x rfl)
  | _ => simp [same] at h

end Value

/-- What is the same shows the same member, with the same content. -/
theorem Strategy.select?_of_same {strategy : Strategy} {value other content : Value} {place : Nat}
    (hs : value.same other = true) (h : strategy.select? value = some (place, content)) :
    ∃ found, strategy.select? other = some (place, found) ∧ content.same found = true := by
  cases selects_of_select? h with
  | kinded ha hp =>
    have hk := Value.kind_eq_of_same hs
    rw [hk] at ha hp
    refine ⟨other, ?_, hs⟩
    simp only [select?, Value.admits_of_same hs ha, hp, if_true, Option.map_some]
  | keyed hl hp =>
    obtain ⟨others, rfl⟩ := Value.eq_map_of_same hs
    rw [Value.same, Value.sameEntries_iff, hl] at hs
    generalize ho : others.toList = entries at hs
    cases hs with
    | cons he hrest =>
      cases hrest
      obtain ⟨rfl, hs⟩ := he
      refine ⟨_, ?_, hs⟩
      simp only [select?, ho, hp, Option.map_some]
  | envelope hsize ht hc hp =>
    rename_i discriminantKey contentKey tag table entries
    obtain ⟨others, rfl⟩ := Value.eq_map_of_same hs
    have hr := Value.rel_get?_of_same hs contentKey
    rw [hc] at hr
    generalize hg : others.get? contentKey = found at hr
    cases hr with
    | some hcontent =>
      refine ⟨_, ?_, hcontent⟩
      rw [Value.size_eq_of_same hs] at hsize
      simp only [select?, hsize, Value.get?_eq_string_of_same hs ht, hg, hp, if_true,
        Option.map_some]
  | inlined ht hp =>
    rename_i discriminantKey tag table entries
    obtain ⟨others, rfl⟩ := Value.eq_map_of_same hs
    refine ⟨.map (others.erase discriminantKey), ?_, Value.same_map_of_get? fun key => ?_⟩
    · simp only [select?, Value.get?_eq_string_of_same hs ht, hp, Option.map_some]
    · rw [SortedMap.get?_erase, SortedMap.get?_erase]
      split
      · exact .none
      · exact Value.rel_get?_of_same hs key
  | stringPrefix =>
    rw [(Value.same_iff_eq (.inl ⟨_, rfl⟩)).mp hs] at h
    exact ⟨_, h, by simp [Value.same]⟩
  | bytesPrefix =>
    cases other with
    | bytes others =>
      simp only [Value.same, decide_eq_true_eq] at hs
      subst hs
      exact ⟨_, h, by simp [Value.same]⟩
    | _ => simp [Value.same] at hs

namespace Plain

variable {convert : Value → Outcome} {allowed : Bool}

/-- Of values that are the same the conversion makes values that are the same. -/
def Respects (convert : Value → Outcome) : Prop :=
  ∀ value other result, value.same other = true → convert value = .ok result →
    ∃ found, convert other = .ok found ∧ result.same found = true

theorem Respects.nullable (h : Respects convert) : Respects (nullable allowed convert) := by
  intro value other result hs hv
  by_cases hn : allowed = true ∧ value = .null
  · obtain ⟨rfl, rfl⟩ := hn
    cases hv
    cases other with
    | null => exact ⟨.null, rfl, hs⟩
    | _ => simp [Value.same] at hs
  · rw [nullable_of_not hn] at hv
    rw [nullable_of_not]
    · exact h value other result hs hv
    · intro ho
      obtain ⟨hallowed, rfl⟩ := ho
      refine hn ⟨hallowed, ?_⟩
      cases value with
      | null => rfl
      | _ => simp [Value.same] at hs

theorem Respects.list (h : Respects convert) : Respects (list convert) := by
  intro value other result hs hv
  obtain ⟨items, results, rfl, rfl, hf⟩ := list_eq_ok_iff.mp hv
  obtain ⟨others, rfl⟩ := Value.eq_list_of_same hs
  obtain ⟨founds, hfound, hsame⟩ : ∃ founds,
      List.Forall₂ (fun a b => convert a = .ok b) others founds ∧
        List.Forall₂ (fun a b : Value => a.same b = true) results founds :=
    forall₂_transfer hf (Value.same_list_iff.mp hs) fun a b c hab hac => h a c b hac hab
  exact ⟨.list founds, list_eq_ok_iff.mpr ⟨others, founds, rfl, rfl, hfound⟩,
    Value.same_list_iff.mpr hsame⟩

/-- Entries with the same key and with values that are the same. -/
def SameEntry (a b : String × Value) : Prop :=
  a.1 = b.1 ∧ a.2.same b.2 = true

theorem Respects.entries (h : Respects convert) {entries results others : List (String × Value)}
    (hf : List.Forall₂ (Converted convert) entries results)
    (hs : List.Forall₂ SameEntry entries others) :
    ∃ founds, List.Forall₂ (Converted convert) others founds ∧
      List.Forall₂ SameEntry results founds := by
  refine forall₂_transfer hf hs fun a b c hab hac => ?_
  obtain ⟨hk, hv⟩ := hab
  obtain ⟨hkey, hsame⟩ := hac
  obtain ⟨found, hfound, hsame⟩ := h a.2 c.2 b.2 hsame hv
  exact ⟨(c.1, found), ⟨rfl, hfound⟩, hk.symm.trans hkey, hsame⟩

theorem Respects.map (h : Respects convert) : Respects (map convert) := by
  intro value other result hs hv
  obtain ⟨entries, results, rfl, rfl, hf⟩ := map_eq_ok_iff.mp hv
  obtain ⟨others, rfl⟩ := Value.eq_map_of_same hs
  rw [Value.same, Value.sameEntries_iff] at hs
  obtain ⟨founds, hfound, hsame⟩ := h.entries hf hs
  have hl := SortedMap.toList_ofList_of_keys (Converted.keys hfound)
  refine ⟨.map (SortedMap.ofList founds), map_eq_ok_iff.mpr ⟨others, _, rfl, rfl, ?_⟩, ?_⟩
  · rwa [hl]
  · rw [Value.same, Value.sameEntries_iff, hl]
    exact hsame

/-- The items of a list of pairs, if they are the same as those of another, are pairs as well. -/
theorem exists_pairs_of_same {pairs : List (String × Value)} {items : List Value}
    (h : List.Forall₂ (fun a b : Value => a.same b = true) (pairs.map pairOf) items) :
    ∃ others, items = others.map pairOf ∧ List.Forall₂ SameEntry pairs others := by
  induction pairs generalizing items with
  | nil =>
    cases h
    exact ⟨[], rfl, .nil⟩
  | cons pair pairs ih =>
    cases h with
    | cons hp hrest =>
      obtain ⟨others, rfl, hs⟩ := ih hrest
      obtain ⟨parts, rfl⟩ := Value.eq_list_of_same hp
      cases Value.same_list_iff.mp hp with
      | cons hk hv =>
        cases hv with
        | cons hv hnil =>
          cases hnil
          rename_i found
          rw [Value.same_iff_eq (.inl ⟨_, rfl⟩)] at hk
          subst hk
          exact ⟨(pair.1, found) :: others, rfl, .cons ⟨rfl, hv⟩ hs⟩

theorem Respects.readPairs (h : Respects convert) : Respects (readPairs convert) := by
  intro value other result hs hv
  obtain ⟨pairs, done, rfl, rfl, hn, hf⟩ := readPairs_eq_ok_iff.mp hv
  obtain ⟨items, rfl⟩ := Value.eq_list_of_same hs
  obtain ⟨others, rfl, hothers⟩ := exists_pairs_of_same (Value.same_list_iff.mp hs)
  obtain ⟨founds, hfound, hsame⟩ := h.entries hf hothers
  have hk : pairs.map Prod.fst = others.map Prod.fst :=
    map_eq_of_forall₂ hothers fun _ _ h => h.1
  refine ⟨_, readPairs_eq_ok_iff.mpr ⟨others, founds, rfl, rfl, hk ▸ hn, hfound⟩, ?_⟩
  exact Value.same_map_of_get? (SortedMap.rel_get?_ofList (Converted.keys hf ▸ hn) hsame)

section Structs

variable {part : PartOutcome} {fields : List Field}

theorem Respects.readStruct (hn : (fields.map Field.name).Nodup)
    (hk : (fields.map Field.key).Nodup)
    (hi : ∀ field ∈ fields, ∀ value, field.implicit = some value → value.same value = true)
    (h : ∀ slot, Respects (part slot)) :
    Respects (readStruct (fields.map (Field.rule part))) := by
  intro value other result hs hv
  obtain ⟨given, rfl⟩ := exists_map_of_readStruct hv
  obtain ⟨typed, rfl, hreads⟩ := readStruct_eq_ok hn hk hv
  obtain ⟨others, rfl⟩ := Value.eq_map_of_same hs
  have hkeys : Within Field.key fields others := fun key hc =>
    hreads.keys key ((Value.contains_iff_of_same hs key).trans hc)
  have hfield : ∀ field ∈ fields, ∃ found, field.Reads part (others.get? field.key) found ∧
      Option.Rel (fun a b : Value => a.same b = true) (typed.get? field.name) found := by
    intro field hm
    have hr := hreads.fields field hm
    have hrel := Value.rel_get?_of_same hs field.key
    generalize given.get? field.key = a, others.get? field.key = b,
      typed.get? field.name = c at hr hrel
    cases hr with
    | present hr =>
      cases hrel with
      | some hab =>
        obtain ⟨found, hfound, hsame⟩ := (h field.type.slot).nullable _ _ _ hab hr
        exact ⟨some found, .present hfound, .some hsame⟩
    | absent hreq ht =>
      cases hrel
      refine ⟨c, .absent hreq ht, ?_⟩
      cases c with
      | none => exact .none
      | some implicit => exact .some (hi field hm implicit ht.symm)
  obtain ⟨found, hfound, hagain⟩ := exists_readStruct part hn hk hkeys fun field hm => by
    obtain ⟨found, hr, -⟩ := hfield field hm
    exact ⟨found, hr⟩
  refine ⟨.map found, hfound, Value.same_map_of_get? ?_⟩
  refine rel_get?_of_within hreads.names hagain.names fun field hm => ?_
  obtain ⟨other, hr, hrel⟩ := hfield field hm
  rwa [Field.Reads.unique (hagain.fields field hm) hr]

theorem Respects.readTuple (hn : (fields.map Field.name).Nodup)
    (h : ∀ slot, Respects (part slot)) : Respects (readTuple (fields.map (Field.rule part))) := by
  intro value other result hs hv
  obtain ⟨items, typed, rfl, rfl, hreads⟩ := readTuple_eq_ok hn hv
  obtain ⟨others, rfl⟩ := Value.eq_list_of_same hs
  have hread : List.Forall₂ (fun field other => ∃ before found,
      typed.get? field.name = some before ∧ field.type.plain part other = .ok found ∧
        before.same found = true) fields others := by
    refine (forall₂_comp hreads.items (Value.same_list_iff.mp hs)).imp fun field other hr => ?_
    obtain ⟨item, ⟨before, hbefore, ht⟩, hitem⟩ := hr
    obtain ⟨found, hfound, hsame⟩ := (h field.type.slot).nullable item other before hitem hbefore
    exact ⟨before, found, ht, hfound, hsame⟩
  obtain ⟨found, hfound, hagain⟩ := exists_readTuple part hn
    (hread.imp fun field other ⟨_, found, _, hr, _⟩ => ⟨found, hr⟩)
  refine ⟨.map found, hfound, Value.same_map_of_get? ?_⟩
  refine rel_get?_of_within hreads.names hagain.names fun field hm => ?_
  obtain ⟨other, ⟨before, after, ht, hr, hsame⟩, result, hr', hf⟩ :=
    exists_of_forall₂ (forall₂_and hread hagain.items) field hm
  rw [hr] at hr'
  cases hr'
  rw [ht, hf]
  exact .some hsame

end Structs

end Plain

namespace Node

variable {part : PartOutcome} {node : Node}

theorem respects_read (hw : node.WellFormed) (hu : node.Untransformed)
    (hi : ∀ field value, node.Implies field value → value.same value = true)
    (h : ∀ slot, Plain.Respects (part slot)) : Plain.Respects (node.plain .toTyped part) := by
  have hparts : ∀ type : PartType, Plain.Respects (type.plain part) :=
    fun type => (h type.slot).nullable
  cases node with
  | kind member =>
    intro value other result hs hv
    obtain ⟨ha, rfl⟩ := plain_kind_eq_ok_iff.mp hv
    exact ⟨other, plain_kind_eq_ok_iff.mpr ⟨Value.admits_of_same hs ha, rfl⟩, hs⟩
  | list items => exact (hparts items).list
  | map values => exact (hparts values).map
  | pairs values => exact (hparts values).readPairs
  | structMap layout =>
    exact .readStruct hw.names hw.keys (fun field hm value hv => hi field value ⟨hm, hv⟩) h
  | structTuple fields => exact .readTuple hw.1 h
  | union members strategy =>
    intro value other result hs hv
    obtain ⟨place, content, member, converted, hsel, hm, hc, rfl⟩ := readPlainUnion_eq_ok_iff.mp hv
    obtain ⟨found, hfound, hcontent⟩ := Strategy.select?_of_same hs hsel
    obtain ⟨again, hagain, hsame⟩ := h member.slot content found converted hcontent hc
    exact ⟨_, readPlainUnion_eq_ok_iff.mpr ⟨place, found, member, again, hfound, hm, hagain, rfl⟩,
      Value.same_singleton_iff.mpr ⟨rfl, hsame⟩⟩
  | enum members =>
    intro value other result hs hv
    obtain ⟨name, hm, rfl⟩ := (readPlainEnum_eq_ok_iff hw).mp hv
    have he : value = other := (Value.same_iff_eq (hw.scalars _ hm)).mp hs
    subst he
    exact ⟨_, (readPlainEnum_eq_ok_iff hw).mpr ⟨name, hm, rfl⟩, by simp [Value.same]⟩
  | custom name transform => exact hu.elim

end Node

namespace Registry.Sound

variable {registry : Registry} {slot : Slot} {value other result found : Value}

theorem respects_read (hs : registry.Sound) (most : Nat) (slot : Slot) :
    Plain.Respects (registry.outcomeUpTo .toTyped most slot) := by
  induction most generalizing slot with
  | zero => exact nofun
  | succ most ih =>
    intro value other result hsame h
    obtain ⟨less, node, hless, hn, h⟩ := hs.wellFormed.exists_of_outcomeUpTo h
    cases hless
    rw [hs.wellFormed.outcomeUpTo_succ hn]
    exact Node.respects_read (hs.wellFormed slot node hn) (hs.untransformed slot node hn)
      (fun field value => hs.same_self_of_implies hn) ih value other result hsame h

/-- Values that are the same are read as values that are the same. -/
theorem same_of_read (hs : registry.Sound) (hsame : value.same other = true)
    (h : registry.outcome .toTyped slot value = .ok result)
    (ho : registry.outcome .toTyped slot other = .ok found) : result.same found = true := by
  obtain ⟨most, h⟩ := hs.wellFormed.outcome_eq_ok_iff.mp h
  obtain ⟨again, hagain, hresult⟩ := hs.respects_read most slot value other result hsame h
  have hoa := hs.wellFormed.outcome_eq_ok_iff.mpr ⟨most, hagain⟩
  rw [ho] at hoa
  cases hoa
  exact hresult

end Registry.Sound

end LinkedSchema
