import LinkedSchema.Transform.Selection

namespace LinkedSchema.Strategy

/-- The value shows the member in the given place, with its content. -/
inductive Selects : Strategy → Value → Nat → Value → Prop where
  | kinded {table : List (Kind × Nat)} {value : Value} {place : Nat}
      (ha : (Kind.of value).admits value = true)
      (hs : selected? table (Kind.of value) = some place) : Selects (kinded table) value place value
  | keyed {table : List (String × Nat)} {entries : SortedMap Value none} {key : String}
      {content : Value} {place : Nat} (hl : entries.toList = [(key, content)])
      (hs : selected? table key = some place) : Selects (keyed table) (.map entries) place content
  | envelope {discriminantKey contentKey tag : String} {table : List (String × Nat)}
      {entries : SortedMap Value none} {content : Value} {place : Nat} (hsize : entries.size = 2)
      (ht : entries.get? discriminantKey = some (.string tag))
      (hc : entries.get? contentKey = some content) (hs : selected? table tag = some place) :
      Selects (envelope discriminantKey contentKey table) (.map entries) place content
  | inlined {discriminantKey tag : String} {table : List (String × Nat)}
      {entries : SortedMap Value none} {place : Nat}
      (ht : entries.get? discriminantKey = some (.string tag))
      (hs : selected? table tag = some place) :
      Selects (inlined discriminantKey table) (.map entries) place
        (.map (entries.erase discriminantKey))
  | stringPrefix {table : List (String × Nat)} {entry : String × Nat} {s : String}
      {rest : List Char} (hm : entry ∈ table) (ha : s.toList = entry.1.toList ++ rest) :
      Selects (stringPrefix table) (.string s) entry.2 (.string (String.ofList rest))
  | bytesPrefix {table : List (List UInt8 × Nat)} {entry : List UInt8 × Nat}
      {bytes rest : List UInt8} (hm : entry ∈ table) (ha : bytes = entry.1 ++ rest) :
      Selects (bytesPrefix table) (.bytes bytes) entry.2 (.bytes rest)

theorem selects_of_select? {strategy : Strategy} {value content : Value} {place : Nat}
    (h : strategy.select? value = some (place, content)) :
    strategy.Selects value place content := by
  unfold select? at h
  split at h
  · split at h
    · rename_i ha
      simp only [Option.map_eq_some_iff, Prod.mk.injEq] at h
      obtain ⟨_, hs, rfl, rfl⟩ := h
      exact .kinded ha hs
    · cases h
  · split at h
    · rename_i hl
      simp only [Option.map_eq_some_iff, Prod.mk.injEq] at h
      obtain ⟨_, hs, rfl, rfl⟩ := h
      exact .keyed hl hs
    · cases h
  · split at h
    · rename_i hsize
      split at h
      · rename_i ht hc
        simp only [Option.map_eq_some_iff, Prod.mk.injEq] at h
        obtain ⟨_, hs, rfl, rfl⟩ := h
        exact .envelope hsize ht hc hs
      · cases h
    · cases h
  · split at h
    · rename_i ht
      simp only [Option.map_eq_some_iff, Prod.mk.injEq] at h
      obtain ⟨_, hs, rfl, rfl⟩ := h
      exact .inlined ht hs
    · cases h
  · obtain ⟨entry, hm, he⟩ := List.exists_of_findSome?_eq_some h
    simp only [Option.map_eq_some_iff, Prod.mk.injEq] at he
    obtain ⟨rest, ha, rfl, rfl⟩ := he
    exact .stringPrefix hm (after?_eq_some_iff.mp ha)
  · obtain ⟨entry, hm, he⟩ := List.exists_of_findSome?_eq_some h
    simp only [Option.map_eq_some_iff, Prod.mk.injEq] at he
    obtain ⟨rest, ha, rfl, rfl⟩ := he
    exact .bytesPrefix hm (after?_eq_some_iff.mp ha)
  · cases h

end LinkedSchema.Strategy
