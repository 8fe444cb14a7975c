import LinkedSchema.Cid
import LinkedSchema.Proofs.Encoding.Digits

namespace LinkedSchema.Cid

open Encoding

theorem base58_nodup : base58Alphabet.Nodup := by decide

theorem base32_alphabet : Alphabet 5 base32Alphabet := ⟨by decide, by decide, by decide, by decide⟩

/-- A symbol of the texts of identifiers. -/
def IsPlain (c : Char) : Prop :=
  c.toNat < 128 ∧ c ≠ '/'

instance (c : Char) : Decidable (IsPlain c) := inferInstanceAs (Decidable (_ ∧ _))

theorem base58_plain {digit : Nat} (h : digit < 58) : IsPlain (base58Alphabet.getD digit '?') := by
  revert digit
  decide

theorem base32_plain {value : Nat} (h : value < 32) : IsPlain (base32Alphabet.getD value '?') := by
  revert value
  decide

theorem base32_toLower {value : Nat} (h : value < 32) :
    (base32Alphabet.getD value '?').toLower = base32Alphabet.getD value '?' := by
  revert value
  decide

theorem utf8ByteSize_ofList_of_plain {symbols : List Char} (h : ∀ c ∈ symbols, IsPlain c) :
    (String.ofList symbols).utf8ByteSize = symbols.length := by
  have hs : (String.ofList symbols).utf8ByteSize = (Text.utf8 (String.ofList symbols)).length := by
    rw [← String.size_toByteArray, ← String.toUTF8, ← Text.toArray_utf8]
    rfl
  rw [hs, Text.utf8_ofList_of_ascii fun c hc => (h c hc).1, List.length_map]

/-- Without its first character a pattern does not occur. -/
theorem afterFirst?_eq_none {c : Char} {pattern symbols : List Char} (h : c ∉ symbols) :
    afterFirst? (c :: pattern) symbols = none := by
  induction symbols with
  | nil => rfl
  | cons first rest ih =>
    have hf : c ≠ first := fun he => h (he ▸ List.mem_cons_self ..)
    have hr : c ∉ rest := fun hm => h (List.mem_cons_of_mem _ hm)
    rw [afterFirst?, if_neg (by simp [List.isPrefixOf, hf]), ih hr]

/-- Reading a text of plain symbols, of which there are two or more. -/
theorem ofText_ofList {symbols : List Char} (h : ∀ c ∈ symbols, IsPlain c)
    (hl : 2 ≤ symbols.length) :
    ofText (String.ofList symbols) =
      match if symbols.length = 46 && ['Q', 'm'].isPrefixOf symbols then
          readRadix? base58Alphabet symbols
        else readMultibase? symbols with
      | some bytes => ofBytes bytes
      | none => .error .notParsed := by
  have hs : '/' ∉ symbols := fun hm => (h _ hm).2 rfl
  have hn : afterFirst? "/ipfs/".toList symbols = none := afterFirst?_eq_none hs
  simp only [ofText, String.toList_ofList, hn, Option.getD_none, utf8ByteSize_ofList_of_plain h,
    if_neg (Nat.not_lt.mpr hl)]
  rfl

/-- Text in base 32 behind its code, if its letters are of lower case. -/
theorem readMultibase?_base32 {symbols : List Char} (h : ∀ c ∈ symbols, c.toLower = c) :
    readMultibase? ('b' :: symbols) = readGroups? 5 base32Alphabet symbols := by
  have hm : symbols.map Char.toLower = symbols := (List.map_congr_left h).trans (List.map_id _)
  have hc : Base.ofCode? 'b' = some (.anyCase (.groups 5 base32Alphabet)) := rfl
  rw [readMultibase?, hc, Option.bind_eq_bind, Option.bind_some, Base.read?, hm, Base.read?]

theorem readNumber_writeVarint (n : UInt64) (rest : List UInt8) :
    readNumber (writeVarint n ++ rest) = .ok (n, rest) := by
  rw [readNumber, readVarint_writeVarint]
  rfl

theorem readMultihash_of_digest (codec code : UInt64) {digest : List UInt8}
    (h : digest.length ≤ 64) :
    readMultihash codec (writeVarint code ++ (writeVarint (UInt64.ofNat digest.length) ++ digest)) =
      .ok (v1 codec code digest h) := by
  have hl : (UInt64.ofNat digest.length).toNat = digest.length := by
    rw [UInt64.toNat_ofNat']
    omega
  have hb : (UInt64.ofNat digest.length).toNat ≤ 64 ∧
      (UInt64.ofNat digest.length).toNat ≤ digest.length := by omega
  have ht : digest.take (UInt64.ofNat digest.length).toNat = digest := by
    rw [hl, List.take_length]
  simp only [readMultihash, readVarint_writeVarint, hb, and_self, ↓reduceDIte, ht,
    Outcome.pure_eq]

/-- The bytes of an identifier stand for it. -/
theorem ofBytes_bytes (cid : Cid) : ofBytes cid.bytes = .ok cid := by
  cases cid with
  | v0 digest hl =>
    have hv : (v0 digest hl).bytes = writeVarint 18 ++ (writeVarint 32 ++ digest) := rfl
    have ht : digest.take 32 = digest := List.take_of_length_le (by omega)
    rw [hv]
    simp only [ofBytes, readNumber_writeVarint, Outcome.ok_bind, hl, ht]
    rfl
  | v1 codec code digest hl =>
    have hv : (v1 codec code digest hl).bytes = writeVarint 1 ++ (writeVarint codec ++
        (writeVarint code ++ (writeVarint (UInt64.ofNat digest.length) ++ digest))) := by
      simp only [bytes, List.append_assoc]
    have hn : ¬ ((1 : UInt64) = sha256.toUInt64 ∧ codec = 32) := fun h => by
      have hs : (1 : UInt64) ≠ sha256.toUInt64 := by decide
      exact hs h.1
    rw [hv]
    simp only [ofBytes, readNumber_writeVarint, Outcome.ok_bind, if_neg hn]
    exact readMultihash_of_digest codec code hl

/-- The text of version 0: two fixed letters and 44 others. -/
theorem writeRadix_v0 {digest : List UInt8} (h : digest.length = 32) :
    ∃ low, low.length = 44 ∧
      writeRadix base58Alphabet (v0 digest h).bytes = ['Q', 'm'] ++ low := by
  obtain ⟨value, hv⟩ : ∃ value, value = valueOf 256 (digest.map UInt8.toNat) := ⟨_, rfl⟩
  have hlt : value < 256 ^ 32 := by
    have hd : ∀ d ∈ digest.map UInt8.toNat, d < 256 := fun d => lt_of_mem_map_toNat
    have hl := valueOf_lt (by decide) hd
    rwa [List.length_map, h, ← hv] at hl
  have hn : valueOf 256 ((v0 digest h).bytes.map UInt8.toNat) = 4640 * 256 ^ 32 + value := by
    have ha : valueOf 256 ([18, 32] ++ digest.map UInt8.toNat) = _ := valueOf_append ..
    rw [List.length_map, h, ← hv] at ha
    exact ha
  have hq : (4640 * 256 ^ 32 + value) / 58 ^ 44 = 1378 :=
    Nat.div_eq_of_lt_le (by omega) (by omega)
  obtain ⟨low, hl, hd⟩ := digitsOf_split (by decide)
    (show 0 < (4640 * 256 ^ 32 + value) / 58 ^ 44 by omega)
  have hz : ((v0 digest h).bytes.map UInt8.toNat).head? ≠ some 0 := by simp [bytes, sha256]
  have ht : digitsOf 58 1378 = [23, 44] := by decide
  have hc : changeBase 256 58 ((v0 digest h).bytes.map UInt8.toNat) = [23, 44] ++ low := by
    rw [changeBase_of_head?_ne hz, hn, hd, hq, ht]
  refine ⟨low.map fun digit => base58Alphabet.getD digit '?', by rw [List.length_map, hl], ?_⟩
  have hs : base58Alphabet.length = 58 := by decide
  rw [writeRadix, hs, hc, List.map_append]
  rfl

theorem ofText_text_v0 {digest : List UInt8} (h : digest.length = 32) :
    ofText (v0 digest h).text = .ok (v0 digest h) := by
  have hplain : ∀ c ∈ writeRadix base58Alphabet (v0 digest h).bytes, IsPlain c := by
    intro c hc
    obtain ⟨digit, hd, rfl⟩ := List.mem_map.mp hc
    exact base58_plain (lt_of_mem_changeBase (by decide) hd)
  have hread : readRadix? base58Alphabet _ = _ :=
    readRadix?_writeRadix (by decide) base58_nodup (v0 digest h).bytes
  obtain ⟨low, hlow, hw⟩ := writeRadix_v0 h
  have hlen : (writeRadix base58Alphabet (v0 digest h).bytes).length = 46 := by
    rw [hw, List.length_append, hlow]
    rfl
  have hfirst : ['Q', 'm'].isPrefixOf (writeRadix base58Alphabet (v0 digest h).bytes) = true := by
    rw [hw]
    rfl
  rw [text, ofText_ofList hplain (by omega)]
  simp only [hlen, hfirst, hread, decide_true, Bool.and_true, ↓reduceIte, ofBytes_bytes]

/-- Bytes in base 32 behind the code of that base are what is meant. -/
theorem ofText_base32 {bytes : List UInt8} (h : bytes ≠ []) :
    ofText (String.ofList ('b' :: writeGroups 5 base32Alphabet bytes)) = ofBytes bytes := by
  have hsymbol : ∀ c ∈ writeGroups 5 base32Alphabet bytes, IsPlain c ∧ c.toLower = c := by
    intro c hc
    rw [writeGroups_eq] at hc
    obtain ⟨value, hv, rfl⟩ := List.mem_map.mp hc
    have hlt := groupValues_lt (by decide) hv
    exact ⟨base32_plain hlt, base32_toLower hlt⟩
  have hread := base32_alphabet.readGroups?_writeGroups bytes
  generalize writeGroups 5 base32Alphabet bytes = symbols at *
  have hplain : ∀ c ∈ 'b' :: symbols, IsPlain c :=
    List.forall_mem_cons.mpr ⟨by decide, fun c hc => (hsymbol c hc).1⟩
  have hpos : 0 < symbols.length := by
    apply List.length_pos_iff.mpr
    rintro rfl
    exact h (Option.some.inj hread).symm
  have hfirst : ['Q', 'm'].isPrefixOf ('b' :: symbols) = false := rfl
  rw [ofText_ofList hplain (by rw [List.length_cons]; omega), hfirst, Bool.and_false,
    readMultibase?_base32 fun c hc => (hsymbol c hc).2, hread]
  rfl

/-- The text of an identifier is read back. -/
theorem ofText_text (cid : Cid) : ofText cid.text = .ok cid := by
  cases cid with
  | v0 digest h => exact ofText_text_v0 h
  | v1 codec code digest h =>
    have hne : (v1 codec code digest h).bytes ≠ [] := List.cons_ne_nil _ _
    rw [text, ofText_base32 hne, ofBytes_bytes]

end LinkedSchema.Cid
