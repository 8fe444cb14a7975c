import LinkedSchema.Proofs.Compile.Safe
import LinkedSchema.Proofs.Plain.Children

namespace LinkedSchema

/-- Steps of which each may begin a copy and none gives it up: nothing is copied if no step begins
one. -/
theorem foldlM_copy_eq_none_iff {ε σ α β : Type} {f : σ → α × Nat → Except ε σ}
    (copy : σ → Option β) (quiet : α → Prop)
    (step : ∀ state a place next, f state (a, place) = .ok next →
      (copy next = none ↔ copy state = none ∧ quiet a))
    {as : List α} {start : Nat} {state last : σ}
    (h : (as.zipIdx start).foldlM f state = .ok last) :
    copy last = none ↔ copy state = none ∧ ∀ a ∈ as, quiet a := by
  induction as generalizing start state with
  | nil =>
    cases h
    simp
  | cons a as ih =>
    rw [List.zipIdx_cons, List.foldlM_cons] at h
    obtain ⟨next, hn, h⟩ := Outcome.bind_eq_ok.mp h
    rw [ih h, step state a start next hn, List.forall_mem_cons, and_assoc]

namespace Child

/-- The child comes back as it is. -/
def Stays (convertPart : PartConversion) : Child → Prop
  | refused => False
  | kept => True
  | part slot value => convertPart slot value = .ok .unchanged

variable {convertPart : PartConversion}

theorem stays_ofType (type : PartType) (value : Value) :
    (ofType type value).Stays convertPart ↔ type.convert convertPart value = .ok .unchanged := by
  unfold ofType PartType.convert
  split
  · exact iff_of_true trivial rfl
  · exact Iff.rfl

/-- Where the keys of fields are distinct, the entry of a key is converted by its field. -/
theorem ofKey_eq {fields : List Field} {field : Field} (hn : (fields.map Field.key).Nodup)
    (hm : field ∈ fields) (value : Value) :
    ofKey fields (field.key, value) = ofType field.type value := by
  rw [ofKey, (find?_eq_some_iff_of_nodup hn).mpr ⟨hm, rfl⟩]

theorem ofName_eq {fields : List Field} {field : Field} (hn : (fields.map Field.name).Nodup)
    (hm : field ∈ fields) (value : Value) :
    ofName fields (field.name, value) =
      if field.implicit.any (·.same value) then kept else ofType field.type value := by
  rw [ofName, (find?_eq_some_iff_of_nodup hn).mpr ⟨hm, rfl⟩]

section Weight

variable {slot : Slot} {given inner : Value} {entry : String × Value} {fields : List Field}

theorem eq_of_ofType {type : PartType} (h : ofType type given = .part slot inner) :
    given = inner := by
  unfold ofType at h
  split at h
  · cases h
  · cases h
    rfl

theorem eq_of_ofKey (h : ofKey fields entry = .part slot inner) : entry.2 = inner := by
  unfold ofKey at h
  split at h
  · cases h
  · exact eq_of_ofType h

theorem eq_of_ofName (h : ofName fields entry = .part slot inner) : entry.2 = inner := by
  unfold ofName at h
  split at h
  · cases h
  · split at h
    · cases h
    · exact eq_of_ofType h

theorem weight_lt_of_mem_items {items : List Value} {child : Value → Child}
    (hc : ∀ item, child item = .part slot inner → item = inner)
    (h : .part slot inner ∈ items.map child) : inner.weight < (Value.list items).weight := by
  obtain ⟨item, hm, he⟩ := List.mem_map.mp h
  rw [← hc item he]
  exact Value.weight_lt_of_mem hm

theorem weight_lt_of_mem_entries {entries : SortedMap Value none} {child : String × Value → Child}
    (hc : ∀ entry, child entry = .part slot inner → entry.2 = inner)
    (h : .part slot inner ∈ entries.toList.map child) :
    inner.weight < (Value.map entries).weight := by
  obtain ⟨entry, hm, he⟩ := List.mem_map.mp h
  rw [← hc entry he]
  exact Value.weight_lt_of_mem_toList hm

end Weight

end Child

theorem Draft.change_eq_unchanged_iff {draft : Draft} :
    draft.change = .unchanged ↔ draft = none := by
  cases draft <;> simp [Draft.change]

namespace Node

variable {convert : Value → Conversion} {value : Value} {change : Change}

theorem convertItem_eq_none_iff {items : List Value} {built next : Option (Array Value)}
    {item : Value} {place : Nat} (h : convertItem convert items built (item, place) = .ok next) :
    next = none ↔ built = none ∧ convert item = .ok .unchanged := by
  obtain ⟨change, hc, h⟩ := Outcome.bind_eq_ok.mp h
  cases built with
  | some built =>
    cases h
    simp
  | none =>
    cases change with
    | unchanged =>
      cases h
      simp [hc]
    | replaced value =>
      cases h
      simp [hc]

theorem convertList_unchanged_iff {items : List Value}
    (h : convertList convert (.list items) = .ok change) :
    change = .unchanged ↔ ∀ item ∈ items, convert item = .ok .unchanged := by
  obtain ⟨built, hb, h⟩ := Outcome.bind_eq_ok.mp h
  have hnone := foldlM_copy_eq_none_iff (fun built => built)
    (fun item => convert item = .ok .unchanged) (fun _ _ _ _ => convertItem_eq_none_iff) hb
  rw [eq_self, true_and] at hnone
  rw [← hnone]
  cases built with
  | none =>
    cases h
    simp
  | some built =>
    cases h
    simp

theorem convertEntry_eq_none_iff {entries : List (String × Value)} {draft next : Draft}
    {entry : String × Value} {place : Nat}
    (h : convertEntry convert entries draft (entry, place) = .ok next) :
    next = none ↔ draft = none ∧ convert entry.2 = .ok .unchanged := by
  obtain ⟨change, hc, h⟩ := Outcome.bind_eq_ok.mp h
  rw [hc]
  split at h
  · rename_i hu
    cases h
    simpa [Change.isUnchanged_iff] using hu
  · rename_i hu
    cases h
    simpa [Change.isUnchanged_iff] using hu

theorem convertMap_unchanged_iff {entries : SortedMap Value none}
    (h : convertMap convert (.map entries) = .ok change) :
    change = .unchanged ↔ ∀ entry ∈ entries.toList, convert entry.2 = .ok .unchanged := by
  obtain ⟨draft, hd, h⟩ := Outcome.bind_eq_ok.mp h
  cases h
  have hnone := foldlM_copy_eq_none_iff (fun draft => draft) _
    (fun _ _ _ _ => convertEntry_eq_none_iff) hd
  rwa [eq_self, true_and, ← Draft.change_eq_unchanged_iff] at hnone

end Node

namespace StructMap

variable {layout : StructMap} {convertPart : PartConversion} {value : Value} {change : Change}

/-- The entry of a key comes back as it is, under the same text. -/
def ReadsInPlace (layout : StructMap) (convertPart : PartConversion) (entry : String × Value) :
    Prop :=
  (Child.ofKey layout.fields.values entry).Stays convertPart ∧
    ∀ field ∈ layout.fields.values, field.key = entry.1 → field.name = field.key

theorem readEntry_draft_eq_none_iff (hw : layout.WellFormed) {entries : List (String × Value)}
    {progress next : Progress} {entry : String × Value} {place : Nat}
    (h : layout.readEntry convertPart entries progress (entry, place) = .ok next) :
    next.draft = none ↔ progress.draft = none ∧ layout.ReadsInPlace convertPart entry := by
  obtain ⟨key, value⟩ := entry
  simp only [readEntry] at h
  split at h
  · rename_i index hk
    obtain ⟨field, hf, rfl⟩ := hw.keys_get?_eq_some_iff.mp hk
    have hm : field ∈ layout.fields.values := List.mem_of_getElem? hf
    simp only [hf] at h
    obtain ⟨change, hc, h⟩ := Outcome.bind_eq_ok.mp h
    obtain ⟨missing, -, h⟩ := Outcome.bind_eq_ok.mp h
    cases h
    have hname : (∀ other ∈ layout.fields.values, other.key = field.key → other.name = other.key) ↔
        field.name = field.key := by
      constructor
      · exact fun h => h field hm rfl
      · intro he other ho hk
        rw [List.inj_on_of_nodup_map hw.keys ho hm hk]
        exact he
    simp only [ReadsInPlace, Child.ofKey_eq hw.keys hm, Child.stays_ofType, hc, hname]
    split
    · rename_i hu
      simp only [Bool.and_eq_true, Option.isNone_iff_eq_none, decide_eq_true_eq,
        Change.isUnchanged_iff] at hu
      simp [hu]
    · rename_i hu
      simp only [Bool.and_eq_true, Option.isNone_iff_eq_none, decide_eq_true_eq,
        Change.isUnchanged_iff] at hu
      simp only [reduceCtorEq, Except.ok.injEq, false_iff]
      exact fun h => hu ⟨⟨h.1, h.2.2⟩, h.2.1⟩
  · cases h

theorem foldl_fillIn_eq_none_iff {given : SortedMap Value none} {present : List Nat}
    {rest : List Field} {start : Nat} {draft : Draft} :
    (rest.zipIdx start).foldl (fillIn given present) draft = none ↔
      draft = none ∧ ∀ index field, rest[index]? = some field →
        field.implicit = none ∨ start + index ∈ present := by
  induction rest generalizing start draft with
  | nil => simp
  | cons field rest ih =>
    have hhead : fillIn given present draft (field, start) = none ↔
        draft = none ∧ (field.implicit = none ∨ start ∈ present) := by
      unfold fillIn
      cases hi : field.implicit with
      | none => simp
      | some value => by_cases hp : start ∈ present <;> simp [hp]
    rw [List.zipIdx_cons, List.foldl_cons, ih, hhead, and_assoc]
    refine and_congr_right fun _ => ?_
    constructor
    · intro h index other ho
      cases index with
      | zero =>
        cases ho
        exact h.1
      | succ index =>
        rw [show start + (index + 1) = start + 1 + index by omega]
        exact h.2 index other ho
    · intro h
      refine ⟨h 0 field rfl, fun index other ho => ?_⟩
      rw [show start + 1 + index = start + (index + 1) by omega]
      exact h (index + 1) other ho

theorem read_unchanged_iff (hw : layout.WellFormed) {entries : SortedMap Value none}
    (h : layout.read convertPart (.map entries) = .ok change) :
    change = .unchanged ↔
      (∀ entry ∈ entries.toList, layout.ReadsInPlace convertPart entry) ∧
        ∀ field ∈ layout.fields.values, field.implicit = none ∨ entries.contains field.key := by
  obtain ⟨progress, hp, h⟩ := Outcome.bind_eq_ok.mp h
  split at h
  · cases h
  · cases h
    have hnone := foldlM_copy_eq_none_iff Progress.draft _
      (fun _ _ _ _ => readEntry_draft_eq_none_iff hw) hp
    have halike : Alike _ _ (entries.toList.mapM
        (Plain.readEntry (layout.fields.values.map (Field.rule convertPart.result)))) :=
      Alike.foldlM_mapM (fun _ _ _ _ _ => alike_readEntry hw entries.nodup_keys)
        (ReadSoFar.start hw)
    rw [hp] at halike
    generalize hg : entries.toList.mapM (Plain.readEntry
      (layout.fields.values.map (Field.rule convertPart.result))) = given at halike
    cases halike with
    | ok hs =>
      rw [Draft.change_eq_unchanged_iff, foldl_fillIn_eq_none_iff, hnone]
      simp only [true_and, Nat.zero_add]
      refine and_congr_right fun _ => ?_
      simp only [SortedMap.contains_iff]
      constructor
      · intro h field hf
        obtain ⟨index, hi⟩ := List.mem_iff_getElem?.mp hf
        exact (h index field hi).imp id (hs.present index field hi).mp
      · intro h index field hi
        exact (h field (List.mem_of_getElem? hi)).imp id (hs.present index field hi).mpr

/-- The entry of a name comes back as it is, under the same text, and is not left out. -/
def WritesInPlace (layout : StructMap) (convertPart : PartConversion) (entry : String × Value) :
    Prop :=
  (Child.ofName layout.fields.values entry).Stays convertPart ∧
    ∀ field ∈ layout.fields.values, field.name = entry.1 →
      field.key = field.name ∧ field.implicit.any (·.same entry.2) = false

theorem writeEntry_draft_eq_none_iff (hw : layout.WellFormed) {entries : List (String × Value)}
    {progress next : Nat × Draft} {entry : String × Value} {place : Nat}
    (h : layout.writeEntry convertPart entries progress (entry, place) = .ok next) :
    next.2 = none ↔ progress.2 = none ∧ layout.WritesInPlace convertPart entry := by
  obtain ⟨name, value⟩ := entry
  obtain ⟨missing, draft⟩ := progress
  simp only [writeEntry, hw.fields_get?] at h
  split at h
  · rename_i field hf
    obtain ⟨hm, rfl⟩ := (find?_eq_some_iff_of_nodup hw.names).mp hf
    obtain ⟨missing, -, h⟩ := Outcome.bind_eq_ok.mp h
    have hone : (∀ other ∈ layout.fields.values, other.name = field.name →
          other.key = other.name ∧ other.implicit.any (·.same value) = false) ↔
        field.key = field.name ∧ field.implicit.any (·.same value) = false := by
      constructor
      · exact fun h => h field hm rfl
      · intro h other ho hk
        rw [List.inj_on_of_nodup_map hw.names ho hm hk]
        exact h
    simp only [WritesInPlace, Child.ofName_eq hw.names hm, hone]
    split at h
    · rename_i hi
      cases h
      simp [hi]
    · rename_i hi
      rw [Bool.not_eq_true] at hi
      obtain ⟨change, hc, h⟩ := Outcome.bind_eq_ok.mp h
      simp only [hi, Bool.false_eq_true, if_false, Child.stays_ofType, hc, and_true]
      split at h
      · rename_i hu
        cases h
        simp only [Bool.and_eq_true, Option.isNone_iff_eq_none, decide_eq_true_eq,
          Change.isUnchanged_iff] at hu
        simp [hu]
      · rename_i hu
        cases h
        simp only [Bool.and_eq_true, Option.isNone_iff_eq_none, decide_eq_true_eq,
          Change.isUnchanged_iff] at hu
        simp only [reduceCtorEq, Except.ok.injEq, false_iff]
        exact fun h => hu ⟨⟨h.1, h.2.2⟩, h.2.1⟩
  · cases h

theorem write_unchanged_iff (hw : layout.WellFormed) {entries : SortedMap Value none}
    (h : layout.write convertPart (.map entries) = .ok change) :
    change = .unchanged ↔ ∀ entry ∈ entries.toList, layout.WritesInPlace convertPart entry := by
  obtain ⟨⟨missing, draft⟩, hp, h⟩ := Outcome.bind_eq_ok.mp h
  have hnone := foldlM_copy_eq_none_iff Prod.snd _
    (fun _ _ _ _ => writeEntry_draft_eq_none_iff hw) hp
  simp only [true_and] at hnone
  simp only [] at h
  split at h
  · cases h
  · cases h
    rw [Draft.change_eq_unchanged_iff, hnone]

end StructMap

namespace Node

/-- The type copies a value from the first change on. -/
def CopiesOnWrite : Node → Prop
  | list _ | map _ | structMap _ => True
  | _ => False

/-- No key changes, and no implicit value is filled in or left out. -/
def KeepsKeys (node : Node) (direction : Direction) (value : Value) : Prop :=
  match node, direction with
  | structMap layout, .toTyped => ∀ entries, value = .map entries →
    ∀ field ∈ layout.fields.values,
      (entries.contains field.key = true → field.name = field.key) ∧
        (field.implicit = none ∨ entries.contains field.key = true)
  | structMap layout, .toRepresentation => ∀ entries, value = .map entries →
    ∀ field ∈ layout.fields.values, ∀ given, entries.get? field.name = some given →
      field.key = field.name ∧ field.implicit.any (·.same given) = false
  | _, _ => True

/-- All children of the value come back as they are. -/
def ChildrenStay (node : Node) (direction : Direction) (convertPart : PartConversion)
    (value : Value) : Prop :=
  ∃ children, node.children? direction value = some children ∧
    ∀ child ∈ children, child.Stays convertPart

variable {node : Node} {direction : Direction} {convertPart : PartConversion} {value : Value}
  {change : Change}

theorem exists_children_iff {α : Type} {as : List α} {child : α → Child} :
    (∃ children, some (as.map child) = some children ∧
        ∀ child ∈ children, child.Stays convertPart) ↔
      ∀ a ∈ as, (child a).Stays convertPart := by
  constructor
  · intro h
    obtain ⟨children, he, h⟩ := h
    cases he
    exact List.forall_mem_map.mp h
  · intro h
    exact ⟨_, rfl, List.forall_mem_map.mpr h⟩

theorem read_unchanged_iff {layout : StructMap} (hw : layout.WellFormed)
    {entries : SortedMap Value none} (h : layout.read convertPart (.map entries) = .ok change) :
    change = .unchanged ↔
      (structMap layout).ChildrenStay .toTyped convertPart (.map entries) ∧
        (structMap layout).KeepsKeys .toTyped (.map entries) := by
  have hchildren : (structMap layout).ChildrenStay .toTyped convertPart (.map entries) ↔
      ∀ entry ∈ entries.toList, (Child.ofKey layout.fields.values entry).Stays convertPart :=
    exists_children_iff
  rw [layout.read_unchanged_iff hw h, hchildren]
  constructor
  · intro h
    obtain ⟨hin, hfill⟩ := h
    refine ⟨fun entry he => (hin entry he).1, fun found he field hf => ?_⟩
    cases he
    refine ⟨fun hk => ?_, hfill field hf⟩
    obtain ⟨entry, he, hkey⟩ := List.mem_map.mp (SortedMap.contains_iff.mp hk)
    exact (hin entry he).2 field hf hkey.symm
  · intro h
    obtain ⟨hstay, hkeys⟩ := h
    refine ⟨fun entry he => ⟨hstay entry he, fun field hf hkey => ?_⟩,
      fun field hf => (hkeys entries rfl field hf).2⟩
    refine (hkeys entries rfl field hf).1 (SortedMap.contains_iff.mpr ?_)
    exact List.mem_map.mpr ⟨entry, he, hkey.symm⟩

theorem write_unchanged_iff {layout : StructMap} (hw : layout.WellFormed)
    {entries : SortedMap Value none} (h : layout.write convertPart (.map entries) = .ok change) :
    change = .unchanged ↔
      (structMap layout).ChildrenStay .toRepresentation convertPart (.map entries) ∧
        (structMap layout).KeepsKeys .toRepresentation (.map entries) := by
  have hchildren : (structMap layout).ChildrenStay .toRepresentation convertPart (.map entries) ↔
      ∀ entry ∈ entries.toList, (Child.ofName layout.fields.values entry).Stays convertPart :=
    exists_children_iff
  rw [layout.write_unchanged_iff hw h, hchildren]
  constructor
  · intro h
    refine ⟨fun entry he => (h entry he).1, fun found he field hf given hg => ?_⟩
    cases he
    exact (h _ (SortedMap.get?_eq_some_iff.mp hg)).2 field hf rfl
  · intro h entry he
    obtain ⟨hstay, hkeys⟩ := h
    refine ⟨hstay entry he, fun field hf hname => hkeys entries rfl field hf entry.2 ?_⟩
    rw [hname]
    exact SortedMap.get?_eq_some_iff.mpr he

/-- Nothing is copied exactly if all children come back as they are and all keys stay. -/
theorem unchanged_iff (hw : node.WellFormed) (hc : node.CopiesOnWrite)
    (h : node.convert direction convertPart value = .ok change) :
    change = .unchanged ↔
      node.ChildrenStay direction convertPart value ∧ node.KeepsKeys direction value := by
  cases node with
  | list type =>
    cases value with
    | list items =>
      rw [convertList_unchanged_iff h]
      exact (exists_children_iff.trans (by simp only [Child.stays_ofType])).symm.trans
        (and_iff_left trivial).symm
    | _ => cases h
  | map type =>
    cases value with
    | map entries =>
      rw [convertMap_unchanged_iff h]
      exact (exists_children_iff.trans (by simp only [Child.stays_ofType])).symm.trans
        (and_iff_left trivial).symm
    | _ => cases h
  | structMap layout =>
    cases direction with
    | toTyped =>
      cases value with
      | map entries => exact read_unchanged_iff hw h
      | _ => cases h
    | toRepresentation =>
      cases value with
      | map entries => exact write_unchanged_iff hw h
      | _ => cases h
  | _ => exact hc.elim

/-- Children are smaller than the value that a type copies. -/
theorem weight_lt_of_child {children : List Child} {slot : Slot} {part : Value}
    (hc : node.CopiesOnWrite) (h : node.children? direction value = some children)
    (hm : .part slot part ∈ children) : part.weight < value.weight := by
  cases node with
  | list type =>
    cases value with
    | list items =>
      cases h
      exact Child.weight_lt_of_mem_items (fun _ => Child.eq_of_ofType) hm
    | _ => cases h
  | map type =>
    cases value with
    | map entries =>
      cases h
      exact Child.weight_lt_of_mem_entries (fun _ => Child.eq_of_ofType) hm
    | _ => cases h
  | structMap layout =>
    cases direction with
    | toTyped =>
      cases value with
      | map entries =>
        cases h
        exact Child.weight_lt_of_mem_entries (fun _ => Child.eq_of_ofKey) hm
      | _ => cases h
    | toRepresentation =>
      cases value with
      | map entries =>
        cases h
        exact Child.weight_lt_of_mem_entries (fun _ => Child.eq_of_ofName) hm
      | _ => cases h
  | _ => exact hc.elim

end Node

namespace Registry

variable {registry : Registry} {direction : Direction} {slot : Slot} {value : Value}

/-- What the type in a slot makes of a value if all its parts, and all their parts, are built anew,
in at most the given number of steps from a type to one of its parts. -/
def rebuildUpTo (registry : Registry) (direction : Direction) : Nat → PartOutcome
  | 0, _, _ => throw .exhausted
  | most + 1, slot, value =>
    match registry.node? slot with
    | none => throw .nonconforming
    | some node => node.plain direction (registry.rebuildUpTo direction most) value

/-- Rebuilds in as many steps as a conversion is allowed. -/
def rebuild (registry : Registry) (direction : Direction) (slot : Slot) (value : Value) : Outcome :=
  registry.rebuildUpTo direction (registry.budget value) slot value

theorem WellFormed.result_convertUpTo (hw : registry.WellFormed) (direction : Direction)
    (most : Nat) :
    PartConversion.result (registry.convertUpTo direction most) =
      registry.rebuildUpTo direction most := by
  induction most with
  | zero => rfl
  | succ most ih =>
    funext slot value
    cases hn : registry.node? slot with
    | none =>
      simp only [PartConversion.result, convertUpTo, rebuildUpTo, hn]
      rfl
    | some node =>
      simp only [PartConversion.result, convertUpTo, rebuildUpTo, hn]
      rw [Node.result_convert _ value (hw slot node hn) direction, ih]

theorem convertUpTo_le {most more : Nat} (h : most ≤ more) (slot : Slot) (value : Value) :
    StopsOrEq .exhausted (registry.convertUpTo direction most slot value)
      (registry.convertUpTo direction more slot value) := by
  rw [← convertUpToOr_nonconforming, ← convertUpToOr_nonconforming]
  exact convertUpToOr_le .nonconforming h slot value

/-- With steps to spare, a value comes back as it is exactly if it does so by the steps that are
allowed for it. -/
theorem WellFormed.convertUpTo_unchanged_iff (hw : registry.WellFormed) {most : Nat}
    (h : registry.budget value ≤ most) :
    registry.convertUpTo direction most slot value = .ok .unchanged ↔
      registry.convert direction slot value = .ok .unchanged := by
  have hle : StopsOrEq .exhausted (registry.convert direction slot value)
      (registry.convertUpTo direction most slot value) := convertUpTo_le h slot value
  constructor
  · intro hc
    have hresult : registry.outcomeUpTo direction most slot value = .ok value := by
      rw [outcomeUpTo, PartConversion.result, hc]
      rfl
    rw [hw.outcomeUpTo_eq_outcome h] at hresult
    obtain ⟨change, hchange, -⟩ := Outcome.map_eq_ok.mp hresult
    rw [hle.eq_of_ne (by simp [hchange]), hc]
  · exact hle.eq_ok

/-- A list, a map or a struct comes back as it is exactly if its children do and its keys stay. -/
theorem WellFormed.convert_unchanged_iff (hw : registry.WellFormed) {node : Node} {change : Change}
    (hn : registry.node? slot = some node) (hc : node.CopiesOnWrite)
    (h : registry.convert direction slot value = .ok change) :
    change = .unchanged ↔ node.ChildrenStay direction (registry.convert direction) value ∧
      node.KeepsKeys direction value := by
  obtain ⟨most, hm⟩ : ∃ most, registry.budget value = most + 1 :=
    ⟨registry.budget value - 1, by
      have : 0 < registry.budget value := Nat.mul_pos (by omega) (by omega)
      omega⟩
  have hchild : ∀ slot part, part.weight < value.weight →
      (registry.convertUpTo direction most slot part = .ok .unchanged ↔
        registry.convert direction slot part = .ok .unchanged) := by
    intro slot part hlt
    have hbudget : registry.budget part + (registry.nodes.size + 1) ≤ registry.budget value := by
      unfold budget
      rw [← Nat.succ_mul]
      exact Nat.mul_le_mul_right _ (by omega)
    exact hw.convertUpTo_unchanged_iff (by omega)
  rw [convert, hm, convertUpTo, hn] at h
  rw [Node.unchanged_iff (hw slot node hn) hc h]
  refine and_congr_left fun _ => exists_congr fun children => and_congr_right fun hchildren => ?_
  refine forall₂_congr fun child hmem => ?_
  cases child with
  | part slot part => exact hchild slot part (Node.weight_lt_of_child hc hchildren hmem)
  | _ => exact Iff.rfl

/-- Conversions copy what changes, and nothing else. -/
structure CopiesOnWrite (registry : Registry) : Prop where
  /-- What a conversion gives, a value or the reason that there is none, is what building the value
  anew from its converted children gives. -/
  fromChildren : ∀ slot node, registry.node? slot = some node → ∀ direction convertPart value,
    Conversion.result (node.convert direction convertPart value) value =
      node.plain direction convertPart.result value
  /-- It is also what building everything inside the value anew gives. -/
  rebuilt : ∀ direction slot value,
    Conversion.result (registry.convert direction slot value) value =
      registry.rebuild direction slot value
  /-- A list, a map or a struct that is converted is copied exactly if some child comes back
  changed, some key changes, or some implicit value is filled in or left out. -/
  copied : ∀ slot node, registry.node? slot = some node → node.CopiesOnWrite →
    ∀ direction value change, registry.convert direction slot value = .ok change →
      (change = .unchanged ↔ node.ChildrenStay direction (registry.convert direction) value ∧
        node.KeepsKeys direction value)
  /-- Where nothing is copied, building the value anew gives the value itself. -/
  kept : ∀ direction slot value, registry.convert direction slot value = .ok .unchanged →
    registry.rebuild direction slot value = .ok value

/-- Whatever calls brought a registry about, and whether they succeeded or failed: its conversions
give what building every part anew gives, and copy only where something changes. -/
theorem copiesOnWrite_reached (source : Source) (calls : List Call) :
    (source.reached ∅ calls).CopiesOnWrite := by
  have hw := source.wellFormed_reached WellFormed.empty calls
  have hrebuilt : ∀ direction slot value,
      Conversion.result ((source.reached ∅ calls).convert direction slot value) value =
        (source.reached ∅ calls).rebuild direction slot value := fun direction slot value =>
    congrFun (congrFun (hw.result_convertUpTo direction _) slot) value
  refine ⟨fun slot node hn direction convertPart value => ?_, hrebuilt,
    fun slot node hn hc direction value change h => ?_, fun direction slot value h => ?_⟩
  · exact Node.result_convert convertPart value (hw slot node hn) direction
  · exact hw.convert_unchanged_iff hn hc h
  · rw [← hrebuilt, h]
    rfl

end Registry

end LinkedSchema
