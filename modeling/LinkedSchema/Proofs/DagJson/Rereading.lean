import LinkedSchema.DagJson
import LinkedSchema.Proofs.Encoding.Base64
import LinkedSchema.Proofs.Encoding.Identifiers
import LinkedSchema.Proofs.Json.Bounds
import LinkedSchema.Proofs.Numbers.Passing

namespace LinkedSchema

namespace DagJson

open Json

/-- A map that is written as a link or bytes might be. -/
def Reserved (value : Value) : Prop :=
  (∃ text, value = .map (.singleton linkKey (.string text))) ∨
    ∃ text, value = .map (.singleton linkKey (.map (.singleton bytesKey (.string text))))

/-- No part of the value is written as a link or bytes might be. -/
def Unreserved (value : Value) : Prop :=
  ∀ part, part.Inside value → ¬ Reserved part

/-- The numbers of a value can be told from their text, and its text has at most the given number
of lists and objects within one another. -/
inductive Fits : Nat → Value → Prop where
  | null {room} : Fits room .null
  | bool {room b} : Fits room (.bool b)
  | int {room n} (h : IntFits n) : Fits room (.int n)
  | float {room x} (h : x.isFinite = true) : Fits room (.float x)
  | string {room s} : Fits room (.string s)
  | bytes {room b} : Fits (room + 2) (.bytes b)
  | list {room items} (h : ∀ item ∈ items, Fits room item) : Fits (room + 1) (.list items)
  | map {room entries} (h : ∀ entry ∈ SortedMap.toList entries, Fits room entry.2) :
    Fits (room + 1) (.map entries)
  | link {room cid} : Fits (room + 1) (.link cid)

/-- What the text of a value is read as when the given number of lists and objects may lie within
one another. -/
def reread (room : Nat) (value : Value) : Except Error Value :=
  ofJson (readBack room (toJson value))

theorem decode_encode (value : Value) :
    decode (Text.utf8 (encode value)) = reread standardDepth value := by
  have hr : Json.read (Text.utf8 (encode value)) = ⟨readBack standardDepth (toJson value), none⟩ :=
    readUpTo_text standardDepth (toJson value)
  rw [decode, hr]
  cases h : reread standardDepth value <;> rw [reread] at h <;> simp [h]

section Parts

theorem toJsonItems_eq (items : List Value) : toJsonItems items = items.map toJson := by
  induction items with
  | nil => rfl
  | cons item items ih => rw [toJsonItems, ih, List.map_cons]

theorem toJsonEntries_eq {bound : Option String} (entries : SortedMap Value bound) :
    toJsonEntries entries = entries.toList.map fun entry => (entry.1, toJson entry.2) := by
  induction entries with
  | nil => rfl
  | cons key value above rest ih => rw [toJsonEntries, ih, SortedMap.toList, List.map_cons]

theorem readBackItems_eq (room : Nat) (items : List (Json Empty)) :
    readBackItems room items = items.map (readBack room) := by
  induction items with
  | nil => rfl
  | cons item items ih => rw [readBackItems, ih, List.map_cons]

theorem readBackEntries_eq (room : Nat) (entries : List (String × Json Empty)) :
    readBackEntries room entries = entries.map fun entry => (entry.1, readBack room entry.2) := by
  induction entries with
  | nil => rfl
  | cons entry entries ih => rw [readBackEntries, ih, List.map_cons]

theorem ofJsonItems_eq_ok {items : List (Json JsonFault)} {values : List Value} :
    ofJsonItems items = .ok values ↔
      List.Forall₂ (fun item value => ofJson item = .ok value) items values := by
  have hm : ofJsonItems items = items.mapM ofJson := by
    induction items with
    | nil => rfl
    | cons item items ih => rw [ofJsonItems, ih, List.mapM_cons]
  rw [hm, Outcome.mapM_eq_ok]

theorem ofJsonEntries_eq_ok {entries : List (String × Json JsonFault)}
    {values : List (String × Value)} :
    ofJsonEntries entries = .ok values ↔ List.Forall₂ (fun entry value =>
      entry.1 = value.1 ∧ ofJson entry.2 = .ok value.2) entries values := by
  induction entries generalizing values with
  | nil => cases values <;> simp [ofJsonEntries]
  | cons entry entries ih =>
    rw [ofJsonEntries]
    constructor
    · intro h
      obtain ⟨first, hf, h⟩ := Outcome.bind_eq_ok.mp h
      obtain ⟨rest, hr, h⟩ := Outcome.bind_eq_ok.mp h
      cases h
      exact .cons ⟨rfl, hf⟩ (ih.mp hr)
    · intro h
      cases h with
      | @cons _ value _ values hv hr =>
        obtain ⟨key, value⟩ := value
        obtain ⟨rfl, hv⟩ := hv
        simp [hv, ih.mpr hr]

variable {room : Nat}

/-- The items of a list are read back one by one, if there is room for the list. -/
theorem reread_list_eq_ok {items : List Value} {value : Value} :
    reread room (.list items) = .ok value ↔ 0 < room ∧ ∃ results, value = .list results ∧
      List.Forall₂ (fun item result => reread (room - 1) item = .ok result) items results := by
  rw [reread, toJson, toJsonItems_eq, readBack]
  by_cases hr : room = 0
  · simp [hr, ofJson]
  · rw [if_neg hr, ofJson, readBackItems_eq, List.map_map]
    constructor
    · intro h
      obtain ⟨results, hm, h⟩ := Outcome.bind_eq_ok.mp h
      cases h
      exact ⟨Nat.pos_of_ne_zero hr, results, rfl,
        List.forall₂_map_left_iff.mp (ofJsonItems_eq_ok.mp hm)⟩
    · rintro ⟨_, results, rfl, h⟩
      have hm : ofJsonItems (items.map (readBack (room - 1) ∘ toJson)) = .ok results :=
        ofJsonItems_eq_ok.mpr (List.forall₂_map_left_iff.mpr h)
      rw [hm]
      rfl

/-- The entries of a map are read back one by one and then taken for what they may stand for. -/
theorem reread_map_eq_ok {entries : SortedMap Value none} {value : Value} :
    reread room (.map entries) = .ok value ↔ 0 < room ∧ ∃ results, ofEntries results = .ok value ∧
      List.Forall₂ (fun entry result => entry.1 = result.1 ∧
        reread (room - 1) entry.2 = .ok result.2) entries.toList results := by
  rw [reread, toJson, toJsonEntries_eq, Json.ofEntries, readBack]
  by_cases hr : room = 0
  · simp [hr, ofJson]
  · rw [if_neg hr, Json.ofEntries, ofJson, readBackEntries_eq, List.map_map]
    constructor
    · intro h
      obtain ⟨results, hm, h⟩ := Outcome.bind_eq_ok.mp h
      exact ⟨Nat.pos_of_ne_zero hr, results, h,
        List.forall₂_map_left_iff.mp (ofJsonEntries_eq_ok.mp hm)⟩
    · rintro ⟨_, results, h, hm⟩
      rw [ofJsonEntries_eq_ok.mpr (List.forall₂_map_left_iff.mpr hm)]
      exact h

end Parts

section Forms

/-- The entries of an object that is read as a link or as bytes, or as an error. -/
def ReservedEntries (entries : List (String × Value)) : Prop :=
  (∃ text, entries = [(linkKey, .string text)]) ∨
    ∃ text, entries = [(linkKey, .map (.singleton bytesKey (.string text)))]

theorem ofEntries_of_not_reserved {entries : List (String × Value)}
    (h : ¬ ReservedEntries entries) :
    ofEntries entries = .ok (.map (SortedMap.ofList entries)) := by
  unfold ofEntries
  split
  · rename_i key text
    split
    · rename_i hk
      exact absurd (.inl ⟨text, by rw [hk]⟩) h
    · rfl
  · rename_i key inner
    split
    · rename_i innerKey text hi
      split
      · rename_i hk
        have hs : inner = .singleton bytesKey (.string text) := by
          apply SortedMap.toList_injective
          rw [hi, SortedMap.toList_singleton, hk.2]
        exact absurd (.inr ⟨text, by rw [hk.1, hs]⟩) h
      · rfl
    · rfl
  · rfl

theorem ofEntries_link (text : String) :
    ofEntries [(linkKey, .string text)] = ((Cid.ofText text).map .link).mapError .link := by
  rw [ofEntries, if_pos rfl]

theorem ofEntries_bytes (text : String) :
    ofEntries [(linkKey, .map (.singleton bytesKey (.string text)))] =
      ((Encoding.readBase64 text).map .bytes).mapError .bytes := by
  simp only [ofEntries, SortedMap.toList_singleton, and_self, ↓reduceIte]

/-- The inner object of bytes is a map by itself. -/
theorem ofEntries_bytesKey (text : String) :
    ofEntries [(bytesKey, .string text)] = .ok (.map (.singleton bytesKey (.string text))) := by
  have hk : ¬ bytesKey = linkKey := by decide
  rw [ofEntries, if_neg hk]
  rfl

theorem not_reserved_of_ofEntries {entries : List (String × Value)}
    {found : SortedMap Value none} (h : ofEntries entries = .ok (.map found)) :
    ¬ ReservedEntries entries := by
  rintro (⟨text, rfl⟩ | ⟨text, rfl⟩)
  · rw [ofEntries_link, Outcome.mapError_eq_ok] at h
    obtain ⟨_, _, h⟩ := Outcome.map_eq_ok.mp h
    cases h
  · rw [ofEntries_bytes, Outcome.mapError_eq_ok] at h
    obtain ⟨_, _, h⟩ := Outcome.map_eq_ok.mp h
    cases h

theorem reservedEntries_toList {entries : SortedMap Value none} :
    ReservedEntries entries.toList ↔ Reserved (.map entries) := by
  have hs : ∀ value, entries.toList = [(linkKey, value)] ↔
      Value.map entries = .map (.singleton linkKey value) := fun value => by
    rw [Value.map.injEq, ← SortedMap.toList_singleton]
    exact ⟨SortedMap.toList_injective, congrArg _⟩
  simp only [ReservedEntries, Reserved, hs]

end Forms

section Unreserved

theorem unreserved_list {items : List Value} :
    Unreserved (.list items) ↔ ∀ item ∈ items, Unreserved item := by
  constructor
  · intro h item hi part hp
    exact h part (.item hi hp)
  · intro h part hp
    cases hp with
    | self =>
      rintro (⟨_, he⟩ | ⟨_, he⟩) <;> cases he
    | item hi hp => exact h _ hi part hp

theorem unreserved_map {entries : SortedMap Value none} :
    Unreserved (.map entries) ↔
      ¬ Reserved (.map entries) ∧ ∀ entry ∈ entries.toList, Unreserved entry.2 := by
  constructor
  · intro h
    exact ⟨h _ (.self _), fun entry he part hp => h part (.entry he hp)⟩
  · rintro ⟨hr, h⟩ part hp
    cases hp with
    | self => exact hr
    | entry he hp => exact h _ he part hp

/-- What has no parts is not reserved. -/
theorem unreserved_of_scalar {value : Value} (h : (Kind.of value).isScalar = true) :
    Unreserved value := by
  intro part hp
  cases hp with
  | self =>
    rintro (⟨_, rfl⟩ | ⟨_, rfl⟩) <;> cases h
  | item => cases h
  | entry => cases h

end Unreserved

section Rereading

variable {room : Nat}

theorem ofJson_single (key : String) (j : Json JsonFault) :
    ofJson (.ofEntries [(key, j)]) = ofJson j >>= fun value => ofEntries [(key, value)] := by
  rw [Json.ofEntries, ofJson, ofJsonEntries]
  cases ofJson j <;> rfl

theorem reread_link (cid : Cid) : reread (room + 1) (.link cid) = .ok (.link cid) := by
  have hr : reread (room + 1) (.link cid) = ofEntries [(linkKey, .string cid.text)] := rfl
  rw [hr, ofEntries_link, Cid.ofText_text]
  rfl

theorem reread_bytes (bytes : List UInt8) :
    reread (room + 2) (.bytes bytes) = .ok (.bytes bytes) := by
  have hr : reread (room + 2) (.bytes bytes) = ofJson (.ofEntries [(linkKey,
      .ofEntries [(bytesKey, .string (Encoding.writeBase64 bytes))])]) := rfl
  rw [hr, ofJson_single, ofJson_single, ofJson, Outcome.pure_eq, Outcome.ok_bind,
    ofEntries_bytesKey, Outcome.ok_bind, ofEntries_bytes, Encoding.readBase64_writeBase64]
  rfl

/-- A value that fits and has no reserved part is read back as it is. -/
theorem reread_of_fits {value : Value} (hf : Fits room value) (hu : Unreserved value) :
    reread room value = .ok value := by
  induction hf with
  | null => rfl
  | bool => rfl
  | int h =>
    rw [reread, toJson, readBack, readBackInt_of_fits h]
    rfl
  | float h =>
    rw [reread, toJson, readBack, if_pos h]
    rfl
  | string => rfl
  | bytes => exact reread_bytes _
  | @list room items h ih =>
    have hu := unreserved_list.mp hu
    exact reread_list_eq_ok.mpr ⟨Nat.succ_pos _, items, rfl,
      List.forall₂_same.mpr fun item hi => ih item hi (hu item hi)⟩
  | @map room entries h ih =>
    obtain ⟨hr, hu⟩ := unreserved_map.mp hu
    have he := ofEntries_of_not_reserved (fun h => hr (reservedEntries_toList.mp h))
    rw [SortedMap.ofList_toList] at he
    exact reread_map_eq_ok.mpr ⟨Nat.succ_pos _, entries.toList, he,
      List.forall₂_same.mpr fun entry hm => ⟨rfl, ih entry hm (hu entry hm)⟩⟩
  | link => exact reread_link _

theorem intFits_of_reread {n : Int} (h : reread room (.int n) = .ok (.int n)) : IntFits n := by
  by_contra hn
  rw [reread, toJson, readBack] at h
  rcases readBackInt_of_not_fits hn with ⟨x, hx⟩ | hx <;> rw [hx] at h <;> cases h

/-- The entries that a map is read back from, if it is read back as a map, do not repeat a key. -/
theorem toList_ofList_of_reread {entries : SortedMap Value none} {results : List (String × Value)}
    (h : List.Forall₂ (fun entry result => entry.1 = result.1 ∧
      reread (room - 1) entry.2 = .ok result.2) entries.toList results) :
    (SortedMap.ofList results).toList = results := by
  have hk : entries.toList.map Prod.fst = results.map Prod.fst :=
    map_eq_of_forall₂ h fun _ _ hr => hr.1
  apply SortedMap.toList_ofList
  rw [← List.pairwise_map (f := Prod.fst) (R := fun a b : String => a < b), ← hk, List.pairwise_map]
  exact entries.toList_ascending

/-- A reserved map is read back from reserved entries. -/
theorem reservedEntries_of_reread {entries : SortedMap Value none}
    {results : List (String × Value)}
    (h : List.Forall₂ (fun entry result => entry.1 = result.1 ∧
      reread (room - 1) entry.2 = .ok result.2) entries.toList results)
    (hr : Reserved (.map entries)) : ReservedEntries results := by
  have hone : ∀ {key value}, entries.toList = [(key, value)] →
      ∃ result, results = [(key, result)] ∧ reread (room - 1) value = .ok result := by
    intro key value he
    rw [he] at h
    cases h with
    | @cons _ result _ _ hv hn =>
      cases hn
      obtain ⟨key, result⟩ := result
      obtain ⟨rfl, hv⟩ := hv
      exact ⟨result, rfl, hv⟩
  rcases reservedEntries_toList.mpr hr with ⟨text, he⟩ | ⟨text, he⟩
  · obtain ⟨result, rfl, hv⟩ := hone he
    cases hv
    exact .inl ⟨text, rfl⟩
  · obtain ⟨result, rfl, hv⟩ := hone he
    obtain ⟨_, inner, hi, hv⟩ := reread_map_eq_ok.mp hv
    have hinner : inner = [(bytesKey, .string text)] := by
      cases hv with
      | @cons _ part _ _ hv hn =>
        cases hn
        obtain ⟨key, part⟩ := part
        obtain ⟨rfl, hv⟩ := hv
        cases hv
        rfl
    rw [hinner, ofEntries_bytesKey] at hi
    cases hi
    exact .inr ⟨text, rfl⟩

/-- Only such a value is read back as one that is the same. -/
theorem fits_of_reread {value other : Value} (h : reread room value = .ok other)
    (hs : value.same other = true) : Fits room value ∧ Unreserved value := by
  induction hn : value.weight using Nat.strongRecOn generalizing value other room with
  | ind n ih =>
    subst hn
    cases value with
    | null => exact ⟨.null, unreserved_of_scalar rfl⟩
    | bool => exact ⟨.bool, unreserved_of_scalar rfl⟩
    | string => exact ⟨.string, unreserved_of_scalar rfl⟩
    | int n =>
      cases other <;> try cases hs
      obtain rfl : n = _ := by simpa [Value.same] using hs
      exact ⟨.int (intFits_of_reread h), unreserved_of_scalar rfl⟩
    | float x =>
      rw [reread, toJson, readBack] at h
      split at h
      · rename_i hx
        exact ⟨.float hx, unreserved_of_scalar rfl⟩
      · cases h
        cases hs
    | bytes bytes =>
      obtain _ | _ | room := room
      · cases h
      · cases h
      · exact ⟨.bytes, unreserved_of_scalar rfl⟩
    | link cid =>
      obtain _ | room := room
      · cases h
      · exact ⟨.link, unreserved_of_scalar rfl⟩
    | list items =>
      obtain ⟨hr, results, rfl, hall⟩ := reread_list_eq_ok.mp h
      have hsame := Value.same_list_iff.mp hs
      have hparts : ∀ item ∈ items, Fits (room - 1) item ∧ Unreserved item := by
        intro item hi
        obtain ⟨result, hread, heq⟩ := exists_of_forall₂ (forall₂_and hall hsame) item hi
        exact ih _ (Value.weight_lt_of_mem hi) hread heq rfl
      obtain ⟨room, rfl⟩ := Nat.exists_eq_succ_of_ne_zero (Nat.pos_iff_ne_zero.mp hr)
      exact ⟨.list fun item hi => (hparts item hi).1,
        unreserved_list.mpr fun item hi => (hparts item hi).2⟩
    | map entries =>
      obtain ⟨hr, results, hresult, hall⟩ := reread_map_eq_ok.mp h
      obtain ⟨found, rfl⟩ := Value.eq_map_of_same hs
      have hnot := not_reserved_of_ofEntries hresult
      rw [ofEntries_of_not_reserved hnot] at hresult
      cases hresult
      have hsame := Value.sameEntries_iff.mp hs
      rw [toList_ofList_of_reread hall] at hsame
      have hparts : ∀ entry ∈ entries.toList, Fits (room - 1) entry.2 ∧ Unreserved entry.2 := by
        intro entry he
        obtain ⟨result, hread, heq⟩ := exists_of_forall₂ (forall₂_and hall hsame) entry he
        exact ih _ (Value.weight_lt_of_mem_toList he) hread.2 heq.2 rfl
      obtain ⟨room, rfl⟩ := Nat.exists_eq_succ_of_ne_zero (Nat.pos_iff_ne_zero.mp hr)
      exact ⟨.map fun entry he => (hparts entry he).1, unreserved_map.mpr
        ⟨fun hres => hnot (reservedEntries_of_reread hall hres),
          fun entry he => (hparts entry he).2⟩⟩

end Rereading

end DagJson

end LinkedSchema
