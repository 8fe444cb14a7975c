import LinkedSchema.Proofs.DagJson.Rereading

namespace LinkedSchema

theorem SortedMap.mem_of_mem_insertAbove {α : Type} {bound : Option String} {m : SortedMap α bound}
    {key : String} {value : α} {above : Above bound key} {entry : String × α}
    (h : entry ∈ (m.insertAbove key value above).toList) :
    entry = (key, value) ∨ entry ∈ m.toList := by
  have hg := get?_eq_some_iff.mpr h
  rw [get?_insertAbove] at hg
  split at hg
  · rename_i hk
    exact .inl (Prod.ext hk (Option.some.inj hg).symm)
  · exact .inr (get?_eq_some_iff.mp hg)

theorem SortedMap.mem_of_mem_ofList {α : Type} {entries : List (String × α)} {entry : String × α}
    (h : entry ∈ (ofList entries).toList) : entry ∈ entries := by
  induction entries using List.reverseRecOn with
  | nil => exact absurd h (List.not_mem_nil)
  | append_singleton entries last ih =>
    rw [ofList_concat] at h
    rcases mem_of_mem_insertAbove h with rfl | h
    · simp
    · exact List.mem_append_left _ (ih h)

namespace DagJson

open Json

theorem fits_map_singleton {room : Nat} {key : String} {value : Value}
    (h : Fits room (.map (.singleton key value))) : 0 < room := by
  cases h with
  | map => exact Nat.succ_pos _

/-- An object is read as a value that fits where the object does. -/
theorem fits_of_ofEntries {room : Nat} {entries : List (String × Value)} {value : Value}
    (hf : ∀ entry ∈ entries, Fits room entry.2) (h : ofEntries entries = .ok value) :
    Fits (room + 1) value := by
  by_cases hr : ReservedEntries entries
  · rcases hr with ⟨text, rfl⟩ | ⟨text, rfl⟩
    · rw [ofEntries_link, Outcome.mapError_eq_ok] at h
      obtain ⟨cid, _, rfl⟩ := Outcome.map_eq_ok.mp h
      exact .link
    · rw [ofEntries_bytes, Outcome.mapError_eq_ok] at h
      obtain ⟨bytes, _, rfl⟩ := Outcome.map_eq_ok.mp h
      have hpos := fits_map_singleton (hf _ (List.mem_cons_self ..))
      obtain ⟨room, rfl⟩ := Nat.exists_eq_succ_of_ne_zero (Nat.pos_iff_ne_zero.mp hpos)
      exact .bytes
  · rw [ofEntries_of_not_reserved hr] at h
    cases h
    exact .map fun entry he => hf entry (SortedMap.mem_of_mem_ofList he)

/-- What is read from a bounded tree fits. -/
theorem fits_of_ofJson {room : Nat} {j : Json JsonFault} {value : Value} (hb : Bounded room j)
    (h : ofJson j = .ok value) : Fits room value := by
  induction hb generalizing value with
  | null =>
    cases h
    exact .null
  | bool =>
    cases h
    exact .bool
  | int hn =>
    cases h
    exact .int hn
  | float hx =>
    cases h
    exact .float hx
  | string =>
    cases h
    exact .string
  | fault => cases h
  | list _ ih =>
    rw [ofJson] at h
    obtain ⟨values, hv, h⟩ := Outcome.bind_eq_ok.mp h
    cases h
    have hall := (ofJsonItems_eq_ok.mp hv).flip
    refine .list fun value hm => ?_
    obtain ⟨item, hi, hread⟩ := exists_mem_of_forall₂ hall value hm
    exact ih item hi hread
  | @object room entries ending _ ih =>
    rw [ofJson] at h
    obtain ⟨values, hv, h⟩ := Outcome.bind_eq_ok.mp h
    cases ending with
    | some cause => cases h
    | none =>
      have hall := (ofJsonEntries_eq_ok.mp hv).flip
      refine fits_of_ofEntries (fun value hm => ?_) h
      obtain ⟨entry, he, hread⟩ := exists_mem_of_forall₂ hall value hm
      exact ih entry he hread.2

theorem fits_of_decode {bytes : List UInt8} {value : Value} (h : decode bytes = .ok value) :
    Fits standardDepth value := by
  obtain ⟨found, hf, h⟩ := Outcome.bind_eq_ok.mp h
  have hv : found = value := by
    cases hs : (Json.read bytes).stop with
    | some cause =>
      rw [hs] at h
      cases h
    | none =>
      rw [hs] at h
      cases h
      rfl
  exact fits_of_ofJson (bounded_readUpTo standardDepth bytes) (hv ▸ hf)

/-- Finite numbers are the same as themselves. -/
theorem same_self_of_fits {room : Nat} {value : Value} (h : Fits room value) :
    value.same value = true := by
  induction h with
  | @float room x h =>
    have hn : x.isNaN = false := by
      have hf := Binary64.exponentField_lt h
      simp [Binary64.isNaN, Nat.ne_of_lt hf]
    exact Binary64.same_self_iff.mpr hn
  | list _ ih => exact Value.same_self_of_mem ih
  | map _ ih =>
    exact Value.same_self_of_get? fun key value hg => ih _ (SortedMap.get?_eq_some_iff.mp hg)
  | _ => simp [Value.same]

/-- A decoded value is decoded again from its encoding just if no map in it has the form of a link
or of bytes. -/
theorem decode_encode_same_iff {bytes : List UInt8} {value : Value}
    (h : decode bytes = .ok value) :
    (∃ again, decode (Text.utf8 (encode value)) = .ok again ∧ value.same again = true) ↔
      Unreserved value := by
  have hf := fits_of_decode h
  rw [decode_encode]
  constructor
  · rintro ⟨again, hr, hs⟩
    exact (fits_of_reread hr hs).2
  · intro hu
    exact ⟨value, reread_of_fits hf hu, same_self_of_fits hf⟩

/-- A record with bytes and numbers of both kinds. -/
def recordText : String :=
  "\x7b\"data\":\x7b\"/\":\x7b\"bytes\":\"AAECAw\"\x7d\x7d,\"count\":[1,-3,1.5]\x7d"

def recordValue : Value :=
  .map (.ofList [("data", .bytes [0, 1, 2, 3]),
    ("count", .list [.int 1, .int (-3), .float ⟨0x3ff8000000000000⟩])])

theorem decode_encode_same_iff_record :
    decode (Text.utf8 recordText) = .ok recordValue ∧
      ((∃ again, decode (Text.utf8 (encode recordValue)) = .ok again ∧
        recordValue.same again = true) ↔ Unreserved recordValue) :=
  have h : decode (Text.utf8 recordText) = .ok recordValue := by decide +kernel
  ⟨h, decode_encode_same_iff h⟩

/-- An object with the key of links twice, of which the second entry has the form of bytes. -/
def hiddenText : String :=
  "\x7b\"/\":1,\"/\":\x7b\"bytes\":\"AA\"\x7d\x7d"

def hiddenValue : Value :=
  .map (.singleton "/" (.map (.singleton "bytes" (.string "AA"))))

/-- Not every decoded value is decoded again from its encoding: a map that a repeated key kept from
being taken for bytes is written like bytes. -/
theorem not_decode_encode_same :
    ¬ ∀ bytes value, decode bytes = .ok value →
      ∃ again, decode (Text.utf8 (encode value)) = .ok again ∧ value.same again = true := by
  intro h
  have hd : decode (Text.utf8 hiddenText) = .ok hiddenValue := by decide +kernel
  have he : decode (Text.utf8 (encode hiddenValue)) = .ok (.bytes [0]) := by decide +kernel
  obtain ⟨again, hr, hs⟩ := h _ _ hd
  rw [he] at hr
  cases hr
  exact absurd hs (by decide)

end DagJson

end LinkedSchema
