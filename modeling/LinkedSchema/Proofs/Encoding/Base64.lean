import LinkedSchema.Encoding.Base64
import LinkedSchema.Proofs.Encoding.Groups
import LinkedSchema.Proofs.Outcome

namespace LinkedSchema.Encoding

/-- The byte of a symbol in base 64. -/
def base64Byte (value : Nat) : UInt8 :=
  UInt8.ofNat (base64Alphabet.getD value '?').toNat

theorem base64Value?_base64Byte {value : Nat} (h : value < 64) :
    base64Value? (base64Byte value) = some value := by
  revert value
  decide

theorem base64Byte_ne_padByte {value : Nat} (h : value < 64) : base64Byte value ≠ padByte := by
  revert value
  decide

theorem base64_ascii {value : Nat} (h : value < 64) :
    (base64Alphabet.getD value '?').toNat < 128 := by
  revert value
  decide

theorem utf8_writeBase64 (bytes : List UInt8) :
    Text.utf8 (writeBase64 bytes) = (groupValues 6 bytes).map base64Byte := by
  have ha : ∀ c ∈ writeGroups 6 base64Alphabet bytes, c.toNat < 128 := by
    intro c hc
    rw [writeGroups_eq] at hc
    obtain ⟨value, hv, rfl⟩ := List.mem_map.mp hc
    exact base64_ascii (groupValues_lt (by decide) hv)
  rw [writeBase64, Text.utf8_ofList_of_ascii ha, writeGroups_eq, List.map_map]
  rfl

theorem readFullChunks_base64Byte {values : List Nat} (h : ∀ value ∈ values, value < 64)
    (offset : Nat) : readFullChunks offset (values.map base64Byte) = .ok values := by
  induction values generalizing offset with
  | nil => rfl
  | cons value values ih =>
    have hv := base64Value?_base64Byte (h value (List.mem_cons_self ..))
    have hr := ih (fun other ho => h other (List.mem_cons_of_mem _ ho)) (offset + 1)
    simp only [List.map_cons, readFullChunks, hv, hr]
    rfl

theorem readLastChunk_base64Byte {values : List Nat} (h : ∀ value ∈ values, value < 64)
    (start index : Nat) :
    readLastChunk start index none (values.map base64Byte) = .ok (values, false) := by
  induction values generalizing index with
  | nil => rfl
  | cons value values ih =>
    have hl := h value (List.mem_cons_self ..)
    have hv := base64Value?_base64Byte hl
    have hr := ih (fun other ho => h other (List.mem_cons_of_mem _ ho)) (index + 1)
    simp only [List.map_cons, readLastChunk, if_neg (base64Byte_ne_padByte hl), hv, hr]
    rfl

/-- Groups of six bits never leave a single symbol over. -/
theorem length_groupValues_mod (bytes : List UInt8) : (groupValues 6 bytes).length % 4 ≠ 1 := by
  have h6 : 0 < 6 := by decide
  have hf := congrArg List.length (flatMap_bits_groupValues h6 bytes)
  have hp := padding_lt h6 (8 * bytes.length)
  have hl : ((groupValues 6 bytes).flatMap (bits 6)).length = 6 * (groupValues 6 bytes).length := by
    simp [List.length_flatMap, Nat.mul_comm]
  rw [hl, List.length_append, length_bits_bytes, List.length_replicate] at hf
  omega

/-- What was written is read back. -/
theorem readBase64_writeBase64 (bytes : List UInt8) :
    readBase64 (writeBase64 bytes) = .ok bytes := by
  have h6 : 0 < 6 := by decide
  obtain ⟨values, hv⟩ : ∃ values, values = groupValues 6 bytes := ⟨_, rfl⟩
  have hlt : ∀ value ∈ values, value < 64 := fun value hm =>
    groupValues_lt h6 (hv ▸ hm)
  have hmod : values.length % 4 ≠ 1 := hv ▸ length_groupValues_mod bytes
  have hhead : ∀ count, readFullChunks 0 ((values.map base64Byte).take count) =
      .ok (values.take count) := fun count => by
    rw [← List.map_take]
    exact readFullChunks_base64Byte (fun value hm => hlt value (List.mem_of_mem_take hm)) 0
  have htail : ∀ count, readLastChunk count 0 none ((values.map base64Byte).drop count) =
      .ok (values.drop count, false) := fun count => by
    rw [← List.map_drop]
    exact readLastChunk_base64Byte (fun value hm => hlt value (List.mem_of_mem_drop hm)) _ 0
  have hbits : bytesOfBits? 6 (values.flatMap (bits 6)) = some bytes := by
    rw [hv, flatMap_bits_groupValues (by decide)]
    exact bytesOfBits?_filled (by decide) (padding_lt (by decide) _) bytes
  rw [readBase64, utf8_writeBase64, ← hv]
  simp only [List.length_map, if_neg hmod, hhead, htail, Outcome.ok_bind, List.take_append_drop,
    hbits, Bool.false_eq_true, ↓reduceIte]
  rfl

end LinkedSchema.Encoding
