import LinkedSchema.Proofs.Plain.Selects
import LinkedSchema.Proofs.Plain.StructLayout
import LinkedSchema.Proofs.RoundTrip.Same

namespace LinkedSchema

namespace SelectsApart

variable {α : Type} {table : List (α × Nat)} {count place : Nat} {discriminant : α}

theorem selected?_eq_some_iff [DecidableEq α] (h : SelectsApart table count) :
    selected? table discriminant = some place ↔ (discriminant, place) ∈ table := by
  unfold selected?
  rw [Option.map_eq_some_iff]
  constructor
  · intro h
    obtain ⟨entry, hf, rfl⟩ := h
    obtain ⟨hm, rfl⟩ := (find?_eq_some_iff_of_nodup h.discriminants).mp hf
    exact hm
  · intro hm
    exact ⟨_, (find?_eq_some_iff_of_nodup h.discriminants).mpr ⟨hm, rfl⟩, rfl⟩

theorem discriminant?_eq_some_iff (h : SelectsApart table count) :
    discriminant? table place = some discriminant ↔ (discriminant, place) ∈ table := by
  unfold discriminant?
  rw [Option.map_eq_some_iff]
  constructor
  · intro h
    obtain ⟨entry, hf, rfl⟩ := h
    obtain ⟨hm, rfl⟩ := (find?_eq_some_iff_of_nodup h.places).mp hf
    exact hm
  · intro hm
    exact ⟨_, (find?_eq_some_iff_of_nodup h.places).mpr ⟨hm, rfl⟩, rfl⟩

theorem discriminant?_iff [DecidableEq α] (h : SelectsApart table count) :
    discriminant? table place = some discriminant ↔ selected? table discriminant = some place :=
  h.discriminant?_eq_some_iff.trans h.selected?_eq_some_iff.symm

end SelectsApart

/-- Of beginnings that do not start one another only one begins a list. -/
theorem StartsApart.findSome?_after? {α β : Type} [DecidableEq α] {table : List (List α × Nat)}
    (h : StartsApart table) {beginning : List α} {place : Nat}
    (hm : (beginning, place) ∈ table) (rest : List α) (f : List α → β) :
    table.findSome? (fun entry =>
      (after? entry.1 (beginning ++ rest)).map fun rest => (entry.2, f rest)) =
        some (place, f rest) := by
  induction table with
  | nil => simp at hm
  | cons first table ih =>
    obtain ⟨hf, ht⟩ := List.pairwise_cons.mp h
    rw [List.findSome?_cons]
    rcases List.mem_cons.mp hm with rfl | hm
    · simp [after?_append]
    · have hnone : after? first.1 (beginning ++ rest) = none := by
        unfold after?
        rw [if_neg]
        intro hp
        obtain ⟨hab, hba⟩ := hf _ hm
        rcases List.prefix_or_prefix_of_prefix (List.isPrefixOf_iff_prefix.mp hp)
          (List.prefix_append beginning rest) with hp | hp
        · exact hab hp
        · exact hba hp
      rw [hnone]
      exact ih ht hm

/-- Where both are maps, the first has no keys that the second lacks. -/
def Value.KeysWithin : Value → Value → Prop
  | map entries, map others => ∀ key, entries.contains key = true → others.contains key = true
  | _, _ => True

/-- The first value takes the place of the second: it is of the same kind and has no more keys. -/
structure Value.Reshapes (value other : Value) : Prop where
  kind : Kind.of value = Kind.of other
  keys : value.KeysWithin other

namespace Value

theorem eq_map_of_kind {value : Value} (h : Kind.of value = .map) :
    ∃ entries, value = map entries := by
  cases value with
  | map entries => exact ⟨entries, rfl⟩
  | _ => cases h

theorem Reshapes.of_eq {value : Value} : value.Reshapes value := by
  refine ⟨rfl, ?_⟩
  cases value <;> simp [KeysWithin]

theorem Reshapes.of_kind {value other : Value} (h : Kind.of value = Kind.of other)
    (hm : Kind.of other ≠ .map) : value.Reshapes other := by
  refine ⟨h, ?_⟩
  cases other with
  | map entries => exact absurd rfl hm
  | _ => cases value <;> simp [KeysWithin]

end Value

namespace Strategy

variable {strategy : Strategy} {count place : Nat} {value content : Value}

theorem selects_inlined_insert {discriminantKey tag : String} {table : List (String × Nat)}
    {entries : SortedMap Value none} (hn : entries.contains discriminantKey = false)
    (hp : selected? table tag = some place) :
    (inlined discriminantKey table).Selects (.map (entries.insert discriminantKey (.string tag)))
      place (.map entries) := by
  have hs : (inlined discriminantKey table).Selects _ place
      (.map ((entries.insert discriminantKey (.string tag)).erase discriminantKey)) :=
    .inlined (by simp [SortedMap.get?_insert]) hp
  rwa [SortedMap.erase_insert hn] at hs

theorem selects_stringPrefix_append {table : List (String × Nat)} {entry : String × Nat}
    (hm : entry ∈ table) (rest : String) :
    (stringPrefix table).Selects (.string (entry.1 ++ rest)) entry.2 (.string rest) := by
  have hs : (stringPrefix table).Selects _ entry.2 (.string (String.ofList rest.toList)) :=
    .stringPrefix hm (String.toList_append (s := entry.1) (t := rest))
  rwa [String.ofList_toList] at hs

/-- A member is selected by the values that show it. -/
theorem select?_eq_some_iff (h : strategy.WellFormed count) :
    strategy.select? value = some (place, content) ↔ strategy.Selects value place content := by
  refine ⟨selects_of_select?, fun hs => ?_⟩
  cases hs with
  | kinded ha hp => simp [select?, ha, hp]
  | keyed hl hp => simp [select?, hl, hp]
  | envelope hsize ht hc hp => simp [select?, hsize, ht, hc, hp]
  | inlined ht hp => simp [select?, ht, hp]
  | stringPrefix hm ha =>
    rename_i table entry s rest
    have hm : (entry.1.toList, entry.2) ∈ beginnings table := List.mem_map.mpr ⟨entry, hm, rfl⟩
    have hf := h.2.findSome?_after? hm rest fun rest => Value.string (String.ofList rest)
    rw [beginnings, List.findSome?_map, ← ha] at hf
    exact hf
  | bytesPrefix hm ha =>
    subst ha
    exact h.2.findSome?_after? hm _ Value.bytes

/-- A member is represented by the value that shows it, of which there is only one. -/
theorem wrap?_eq_some_iff (h : strategy.WellFormed count) :
    strategy.wrap? place content = some value ↔ strategy.Selects value place content := by
  constructor
  · intro hw
    cases strategy with
    | kinded table =>
      simp only [wrap?] at hw
      split at hw
      · rename_i kind hd
        obtain ⟨ha, hw⟩ := Option.ite_none_right_eq_some.mp hw
        cases hw
        obtain ⟨rfl, ha⟩ := Kind.admits_iff.mp ha
        exact .kinded ha (h.discriminant?_iff.mp hd)
      · cases hw
    | keyed table =>
      obtain ⟨key, hd, rfl⟩ := Option.map_eq_some_iff.mp hw
      exact .keyed (SortedMap.toList_singleton ..) (h.discriminant?_iff.mp hd)
    | envelope discriminantKey contentKey table =>
      obtain ⟨hne, h⟩ := h
      obtain ⟨tag, hd, rfl⟩ := Option.map_eq_some_iff.mp hw
      obtain ⟨hsize, ht, hc⟩ := (SortedMap.ofList_pair_eq_iff hne).mp rfl
      exact .envelope hsize ht hc (h.discriminant?_iff.mp hd)
    | inlined discriminantKey table =>
      simp only [wrap?] at hw
      split at hw
      · rename_i tag entries hd
        obtain ⟨hc, hw⟩ := Option.ite_none_left_eq_some.mp hw
        cases hw
        exact selects_inlined_insert (by simpa using hc) (h.discriminant?_iff.mp hd)
      · cases hw
    | stringPrefix table =>
      simp only [wrap?] at hw
      split at hw
      · rename_i beginning rest hd
        cases hw
        exact selects_stringPrefix_append (h.1.discriminant?_eq_some_iff.mp hd) rest
      · cases hw
    | bytesPrefix table =>
      simp only [wrap?] at hw
      split at hw
      · rename_i beginning rest hd
        cases hw
        exact .bytesPrefix (h.1.discriminant?_eq_some_iff.mp hd) rfl
      · cases hw
  · intro hs
    cases hs with
    | kinded ha hp => simp only [wrap?, h.discriminant?_iff.mpr hp, ha, if_true]
    | keyed hl hp =>
      rename_i entries key
      have he : SortedMap.singleton key content = entries := SortedMap.toList_injective hl.symm
      simp only [wrap?, h.discriminant?_iff.mpr hp, Option.map_some, he]
    | envelope hsize ht hc hp =>
      obtain ⟨hne, h⟩ := h
      simp only [wrap?, h.discriminant?_iff.mpr hp, Option.map_some,
        (SortedMap.ofList_pair_eq_iff hne).mpr ⟨hsize, ht, hc⟩]
    | inlined ht hp =>
      simp [wrap?, h.discriminant?_iff.mpr hp, SortedMap.contains, SortedMap.get?_erase,
        SortedMap.insert_erase ht]
    | stringPrefix hm ha =>
      rename_i entry s rest
      have he : entry.1 ++ String.ofList rest = s := by
        rw [← String.toList_inj, String.toList_append, String.toList_ofList, ha]
      simp only [wrap?, h.1.discriminant?_eq_some_iff.mpr hm, he]
    | bytesPrefix hm ha => simp only [wrap?, h.1.discriminant?_eq_some_iff.mpr hm, ha]

/-- What shows a member selects it, with the same content. -/
theorem select?_of_wrap? (h : strategy.WellFormed count)
    (hw : strategy.wrap? place content = some value) :
    strategy.select? value = some (place, content) :=
  (select?_eq_some_iff h).mpr ((wrap?_eq_some_iff h).mp hw)

/-- What shows the selected member, with the selected content, is the value itself. -/
theorem wrap?_of_select? (h : strategy.WellFormed count)
    (hs : strategy.select? value = some (place, content)) :
    strategy.wrap? place content = some value :=
  (wrap?_eq_some_iff h).mpr ((select?_eq_some_iff h).mp hs)

/-- What was selected can be shown again after it was rewritten. -/
theorem exists_wrap? (h : strategy.WellFormed count)
    (hs : strategy.select? value = some (place, content)) {rewritten : Value}
    (hr : rewritten.Reshapes content) (ha : (Kind.of rewritten).admits rewritten = true) :
    ∃ shown, strategy.wrap? place rewritten = some shown ∧ shown.Reshapes value := by
  suffices ∃ shown, strategy.Selects shown place rewritten ∧ shown.Reshapes value by
    simpa only [wrap?_eq_some_iff h] using this
  cases selects_of_select? hs with
  | kinded _ hp =>
    rw [← hr.kind] at hp
    exact ⟨rewritten, .kinded ha hp, hr⟩
  | keyed hl hp =>
    rename_i table entries key
    refine ⟨.map (SortedMap.singleton key rewritten), .keyed (SortedMap.toList_singleton ..) hp,
      rfl, fun other ho => ?_⟩
    rw [SortedMap.contains_iff, SortedMap.toList_singleton] at ho
    rw [SortedMap.contains_iff, hl]
    simpa using ho
  | envelope hsize ht hc hp =>
    rename_i discriminantKey contentKey tag table entries
    obtain ⟨hsize', ht', hc'⟩ :=
      (SortedMap.ofList_pair_eq_iff (x := Value.string tag) (y := rewritten) h.1).mp rfl
    refine ⟨.map _, .envelope hsize' ht' hc' hp, rfl, fun other ho => ?_⟩
    obtain ⟨found, hf⟩ := Option.isSome_iff_exists.mp ho
    rcases SortedMap.eq_or_eq_of_size hsize' h.1 ht' hc' hf with rfl | rfl
    · simp [SortedMap.contains, ht]
    · simp [SortedMap.contains, hc]
  | inlined ht hp =>
    rename_i discriminantKey tag table entries
    obtain ⟨others, rfl⟩ := Value.eq_map_of_kind hr.kind
    have hkeys : ∀ key, others.contains key = true →
        key ≠ discriminantKey ∧ entries.contains key = true :=
      fun key hk => SortedMap.contains_erase_iff.mp (hr.keys key hk)
    have hnot : others.contains discriminantKey = false := by
      rw [← Bool.not_eq_true]
      exact fun hc => (hkeys _ hc).1 rfl
    refine ⟨_, selects_inlined_insert hnot hp, rfl, fun other ho => ?_⟩
    rcases SortedMap.contains_insert_iff.mp ho with rfl | ho
    · simp [SortedMap.contains, ht]
    · exact (hkeys other ho).2
  | stringPrefix hm ha =>
    cases rewritten with
    | string text =>
      exact ⟨_, selects_stringPrefix_append hm text, .of_kind rfl (by simp [Kind.of])⟩
    | _ => cases hr.kind
  | bytesPrefix hm ha =>
    cases rewritten with
    | bytes rest => exact ⟨_, .bytesPrefix hm rfl, .of_kind rfl (by simp [Kind.of])⟩
    | _ => cases hr.kind

end Strategy

end LinkedSchema
