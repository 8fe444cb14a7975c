import LinkedSchema.Proofs.Lists
import LinkedSchema.Proofs.RoundTrip.Same
import LinkedSchema.Proofs.Plain.Collection

namespace LinkedSchema

/-- Converted entries of a map are the entries of a map. -/
theorem SortedMap.toList_ofList_of_keys {α β : Type} {m : SortedMap α none}
    {entries : List (String × β)} (h : m.toList.map Prod.fst = entries.map Prod.fst) :
    (ofList entries).toList = entries := by
  have hm := List.pairwise_map.mpr m.toList_ascending
  rw [h] at hm
  exact toList_ofList (List.pairwise_map.mp hm)

namespace Plain

variable {convert : Value → Outcome} {value result : Value}

theorem nullable_of_not {allowed : Bool} (h : ¬(allowed = true ∧ value = .null)) :
    nullable allowed convert value = convert value := by
  unfold nullable
  rw [if_neg (by simpa using h)]

theorem nullable_null : nullable true convert .null = .ok .null := rfl

/-- An entry with its value converted. -/
def Converted (convert : Value → Outcome) (a b : String × Value) : Prop :=
  a.1 = b.1 ∧ convert a.2 = .ok b.2

theorem Converted.keys {entries others : List (String × Value)}
    (h : List.Forall₂ (Converted convert) entries others) :
    entries.map Prod.fst = others.map Prod.fst :=
  map_eq_of_forall₂ h fun _ _ h => h.1

theorem list_eq_ok_iff :
    list convert value = .ok result ↔ ∃ items others, value = .list items ∧
      result = .list others ∧ List.Forall₂ (fun a b => convert a = .ok b) items others := by
  constructor
  · intro h
    cases value with
    | list items =>
      obtain ⟨others, ho, h⟩ := Outcome.bind_eq_ok.mp h
      cases h
      exact ⟨items, others, rfl, rfl, Outcome.mapM_eq_ok.mp ho⟩
    | _ => cases h
  · intro h
    obtain ⟨items, others, rfl, rfl, h⟩ := h
    simp [list, Outcome.mapM_eq_ok.mpr h]

theorem mapM_entry_eq_ok_iff {entries others : List (String × Value)} :
    entries.mapM (entry convert) = .ok others ↔
      List.Forall₂ (Converted convert) entries others := by
  have he : ∀ a b, entry convert a = .ok b ↔ Converted convert a b := by
    intro a b
    simp only [entry, Converted, Outcome.bind_eq_ok, Outcome.pure_eq, Except.ok.injEq]
    constructor
    · intro h
      obtain ⟨value, hv, rfl⟩ := h
      exact ⟨rfl, hv⟩
    · intro h
      obtain ⟨hk, hv⟩ := h
      exact ⟨b.2, hv, by rw [hk]⟩
  simp only [Outcome.mapM_eq_ok, he]

theorem map_eq_ok_iff :
    map convert value = .ok result ↔ ∃ entries others, value = .map entries ∧
      result = .map others ∧
        List.Forall₂ (Converted convert) entries.toList others.toList := by
  constructor
  · intro h
    cases value with
    | map entries =>
      obtain ⟨others, ho, h⟩ := Outcome.bind_eq_ok.mp h
      cases h
      have hf := mapM_entry_eq_ok_iff.mp ho
      refine ⟨entries, _, rfl, rfl, ?_⟩
      rwa [SortedMap.toList_ofList_of_keys (Converted.keys hf)]
    | _ => cases h
  · intro h
    obtain ⟨entries, others, rfl, rfl, h⟩ := h
    simp [map, mapM_entry_eq_ok_iff.mpr h]

/-- One item of a list of pairs. -/
def pairOf (entry : String × Value) : Value :=
  .list [.string entry.1, entry.2]

theorem mapM_pair_eq_ok_iff {entries : List (String × Value)} {items : List Value} :
    entries.mapM (pair convert) = .ok items ↔
      ∃ pairs, items = pairs.map pairOf ∧ List.Forall₂ (Converted convert) entries pairs := by
  have hp : ∀ a, pair convert a = (entry convert a).map pairOf := by
    intro a
    unfold pair entry
    cases convert a.2 <;> rfl
  have hm : entries.mapM (pair convert) =
      (entries.mapM (entry convert)).map fun pairs => pairs.map pairOf := by
    induction entries with
    | nil => rfl
    | cons first rest ih =>
      rw [List.mapM_cons, List.mapM_cons, hp, ih]
      cases entry convert first with
      | error stop => rfl
      | ok a =>
        cases rest.mapM (entry convert) <;> rfl
  rw [hm, Outcome.map_eq_ok]
  simp only [mapM_entry_eq_ok_iff]
  constructor
  · intro h
    obtain ⟨pairs, hf, rfl⟩ := h
    exact ⟨pairs, rfl, hf⟩
  · intro h
    obtain ⟨pairs, rfl, hf⟩ := h
    exact ⟨pairs, hf, rfl⟩

theorem writePairs_eq_ok_iff :
    writePairs convert value = .ok result ↔ ∃ entries pairs, value = .map entries ∧
      result = .list (pairs.map pairOf) ∧
        List.Forall₂ (Converted convert) entries.toList pairs := by
  constructor
  · intro h
    cases value with
    | map entries =>
      obtain ⟨items, hi, h⟩ := Outcome.bind_eq_ok.mp h
      cases h
      obtain ⟨pairs, rfl, hf⟩ := mapM_pair_eq_ok_iff.mp hi
      exact ⟨entries, pairs, rfl, rfl, hf⟩
    | _ => cases h
  · intro h
    obtain ⟨entries, pairs, rfl, rfl, h⟩ := h
    simp [writePairs, mapM_pair_eq_ok_iff.mpr ⟨pairs, rfl, h⟩]

theorem readPair_eq_ok_iff {built next : SortedMap Value none} {item : Value} :
    readPair convert built item = .ok next ↔ ∃ given done, item = pairOf given ∧
      built.contains given.1 = false ∧ Converted convert given done ∧
        next = built.insert done.1 done.2 := by
  unfold readPair
  constructor
  · intro h
    split at h
    · rename_i key found
      split at h
      · cases h
      · rename_i hc
        obtain ⟨converted, hv, h⟩ := Outcome.bind_eq_ok.mp h
        cases h
        exact ⟨(key, found), (key, converted), rfl, by simpa using hc, ⟨rfl, hv⟩, rfl⟩
    · cases h
  · intro h
    obtain ⟨⟨key, found⟩, ⟨other, converted⟩, rfl, hc, ⟨hk, hv⟩, rfl⟩ := h
    cases hk
    simp only [pairOf, hc, Bool.false_eq_true, if_false, hv, Outcome.ok_bind, Outcome.pure_eq]

theorem foldlM_readPair_eq_ok_iff {items : List Value} {built out : SortedMap Value none} :
    items.foldlM (readPair convert) built = .ok out ↔ ∃ pairs done, items = pairs.map pairOf ∧
      (pairs.map Prod.fst).Nodup ∧ (∀ key ∈ pairs.map Prod.fst, built.contains key = false) ∧
        List.Forall₂ (Converted convert) pairs done ∧
          out = done.foldl (fun built entry => built.insert entry.1 entry.2) built := by
  induction items generalizing built with
  | nil =>
    constructor
    · intro h
      cases h
      exact ⟨[], [], rfl, .nil, by simp, .nil, rfl⟩
    · intro h
      obtain ⟨pairs, done, hp, -, -, hf, rfl⟩ := h
      rw [List.map_eq_nil_iff.mp hp.symm] at hf
      cases hf
      rfl
  | cons item items ih =>
    rw [List.foldlM_cons, Outcome.bind_eq_ok]
    have hinsert : ∀ (entry : String × Value) (key : String),
        (built.insert entry.1 entry.2).contains key = false ↔
          key ≠ entry.1 ∧ built.contains key = false := by
      intro entry key
      rw [← Bool.not_eq_true, SortedMap.contains_insert_iff, not_or, Bool.not_eq_true]
    constructor
    · intro h
      obtain ⟨next, hn, h⟩ := h
      obtain ⟨given, done, rfl, hc, hv, rfl⟩ := readPair_eq_ok_iff.mp hn
      obtain ⟨pairs, rest, rfl, hnd, hnew, hf, rfl⟩ := ih.mp h
      refine ⟨given :: pairs, done :: rest, rfl, ?_, ?_, .cons hv hf, rfl⟩
      · refine List.nodup_cons.mpr ⟨fun hm => ?_, hnd⟩
        exact ((hinsert done given.1).mp (hnew _ hm)).1 hv.1
      · intro key hm
        rcases List.mem_cons.mp hm with rfl | hm
        · exact hc
        · exact ((hinsert done key).mp (hnew key hm)).2
    · intro h
      obtain ⟨pairs, done, hp, hnd, hnew, hf, rfl⟩ := h
      cases hf with
      | nil => cases hp
      | cons hv hf =>
        rename_i given done pairs rest
        cases hp
        obtain ⟨hn, hnd⟩ := List.nodup_cons.mp hnd
        refine ⟨_, readPair_eq_ok_iff.mpr ⟨given, done, rfl, hnew _ (by simp), hv, rfl⟩, ?_⟩
        refine ih.mpr ⟨pairs, rest, rfl, hnd, fun key hm => ?_, hf, rfl⟩
        refine (hinsert done key).mpr ⟨fun he => ?_, hnew key (by simp_all)⟩
        rw [he, ← hv.1] at hm
        exact hn hm

theorem readPairs_eq_ok_iff :
    readPairs convert value = .ok result ↔ ∃ pairs done, value = .list (pairs.map pairOf) ∧
      result = .map (SortedMap.ofList done) ∧ (pairs.map Prod.fst).Nodup ∧
        List.Forall₂ (Converted convert) pairs done := by
  have hempty : ∀ key, (∅ : SortedMap Value none).contains key = false := fun _ => rfl
  constructor
  · intro h
    cases value with
    | list items =>
      obtain ⟨built, hb, h⟩ := Outcome.bind_eq_ok.mp h
      cases h
      obtain ⟨pairs, done, rfl, hnd, -, hf, rfl⟩ := foldlM_readPair_eq_ok_iff.mp hb
      exact ⟨pairs, done, rfl, rfl, hnd, hf⟩
    | _ => cases h
  · intro h
    obtain ⟨pairs, done, rfl, rfl, hnd, hf⟩ := h
    have hb := foldlM_readPair_eq_ok_iff.mpr
      ⟨pairs, done, rfl, hnd, fun key _ => hempty key, hf, rfl⟩
    simp only [readPairs, hb, Outcome.ok_bind, Outcome.pure_eq]
    rfl

end Plain

end LinkedSchema
