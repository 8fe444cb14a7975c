import LinkedSchema.Proofs.Json.Numbers

namespace LinkedSchema.Json

/-- The byte neither ends a string nor starts an escape, and it is no control. -/
def Ordinary (byte : UInt8) : Prop :=
  symbol byte ≠ '"' ∧ symbol byte ≠ '\\' ∧ ¬ byte < 0x20

theorem toNat_symbol (byte : UInt8) : (symbol byte).toNat = byte.toNat := by
  have hlt : byte.toNat < 256 := byte.toNat_lt
  have hv : byte.toNat.isValidChar := .inl (by omega)
  rw [symbol, Char.ofNat, dif_pos hv]
  rfl

theorem ordinary_of_high {byte : UInt8} (h : 128 ≤ byte.toNat) : Ordinary byte := by
  have hs := toNat_symbol byte
  have hne : ∀ c : Char, c.toNat < 128 → symbol byte ≠ c := by
    rintro c hc rfl
    omega
  refine ⟨hne _ (by decide), hne _ (by decide), ?_⟩
  rw [UInt8.lt_iff_toNat_lt]
  exact Nat.not_lt.mpr (le_trans (by decide) h)

theorem ordinary_of_ascii {c : Char} (h : c.toNat < 128) (hc : 32 ≤ c.toNat) (hq : c ≠ '"')
    (hb : c ≠ '\\') : Ordinary (asciiByte c) := by
  have hs := symbol_asciiByte h
  refine ⟨by rwa [hs], by rwa [hs], ?_⟩
  rw [UInt8.lt_iff_toNat_lt, toNat_asciiByte h]
  exact Nat.not_lt.mpr hc

theorem high_of_mem_utf8EncodeChar {c : Char} (h : 128 ≤ c.toNat) {byte : UInt8}
    (hb : byte ∈ String.utf8EncodeChar c) : 128 ≤ byte.toNat := by
  have hv : c.toNat = c.val.toNat := rfl
  rw [String.utf8EncodeChar.eq_1] at hb
  split at hb
  · omega
  · split at hb
    · simp only [List.mem_cons, List.not_mem_nil, or_false] at hb
      rcases hb with rfl | rfl <;> rw [UInt8.toNat_ofNat'] <;> omega
    · split at hb
      · simp only [List.mem_cons, List.not_mem_nil, or_false] at hb
        rcases hb with rfl | rfl | rfl <;> rw [UInt8.toNat_ofNat'] <;> omega
      · simp only [List.mem_cons, List.not_mem_nil, or_false] at hb
        rcases hb with rfl | rfl | rfl | rfl <;> rw [UInt8.toNat_ofNat'] <;> omega

theorem ordinary_of_mem_utf8EncodeChar {c : Char} (hc : 32 ≤ c.toNat) (hq : c ≠ '"')
    (hb : c ≠ '\\') {byte : UInt8} (h : byte ∈ String.utf8EncodeChar c) : Ordinary byte := by
  by_cases ha : c.toNat < 128
  · rw [Text.utf8EncodeChar_of_ascii ha] at h
    obtain rfl := List.mem_singleton.mp h
    exact ordinary_of_ascii ha hc hq hb
  · exact ordinary_of_high (high_of_mem_utf8EncodeChar (Nat.not_lt.mp ha) h)

theorem readString_ordinary {bytes : List UInt8} (h : ∀ byte ∈ bytes, Ordinary byte)
    (content rest : List UInt8) :
    readString .plain content none (bytes ++ rest) =
      readString .plain (bytes.reverse ++ content) none rest := by
  induction bytes generalizing content with
  | nil => rfl
  | cons byte bytes ih =>
    obtain ⟨hq, hb, hc⟩ := h byte (List.mem_cons_self ..)
    have hstep : StringState.plain.step byte = (none, .keep .plain [byte]) := by
      rw [StringState.step, StringState.plainStep, if_neg hq, if_neg hb, if_neg hc]
    have hr := ih (fun other ho => h other (List.mem_cons_of_mem _ ho)) (byte :: content)
    rw [List.cons_append, readString, hstep, List.reverse_cons, List.append_assoc]
    exact hr

/-- The last digit of the number of a control yields the control. -/
theorem step_control {c : Char} (h : c.toNat < 32) {high low : UInt8}
    (hhigh : Encoding.hexDigit? high = some (c.toNat / 16))
    (hlow : Encoding.hexDigit? low = some (c.toNat % 16)) :
    (StringState.hex none [48, 48, high]).step low =
      (none, .keep .plain (String.utf8EncodeChar c)) := by
  have hzero : Encoding.hexDigit? 48 = some 0 := by decide
  have hdigits : [48, 48, high, low].mapM Encoding.hexDigit? =
      some [0, 0, c.toNat / 16, c.toNat % 16] := by
    simp [hzero, hhigh, hlow]
  have hvalue : c.toNat / 16 * 16 + c.toNat % 16 = c.toNat := Nat.div_add_mod' ..
  have hsurrogate : isFirstSurrogate c.toNat = false ∧ isSecondSurrogate c.toNat = false := by
    unfold isFirstSurrogate isSecondSurrogate
    simp only [Bool.and_eq_false_iff, decide_eq_false_iff_not]
    omega
  have hcode : codePointBytes c.toNat = String.utf8EncodeChar c := by
    rw [codePointBytes, Char.ofNat_toNat]
  have hlen : ¬ ([48, 48, high] ++ [low]).length < 4 := by simp
  rw [StringState.step, StringState.hexStep, if_neg hlen]
  simp only [List.cons_append, List.nil_append, hdigits, List.foldl_cons, List.foldl_nil,
    Nat.zero_mul, Nat.zero_add, hvalue, StringState.codeStep, hsurrogate, hcode]
  rfl

/-- An escape that starts with a digit pair of zeros is read as the control it stands for. -/
theorem readString_control {c : Char} (h : c.toNat < 32) (content rest : List UInt8) :
    readString .plain content none (encoded ['\\', 'u', '0', '0', Nat.digitChar (c.toNat / 16),
      Nat.digitChar (c.toNat % 16)] ++ rest) =
        readString .plain ((String.utf8EncodeChar c).reverse ++ content) none rest := by
  have hhigh : Encoding.hexDigit? (asciiByte (Nat.digitChar (c.toNat / 16))) =
      some (c.toNat / 16) := Encoding.hexDigit?_digitChar (by omega)
  have hlow : Encoding.hexDigit? (asciiByte (Nat.digitChar (c.toNat % 16))) =
      some (c.toNat % 16) := Encoding.hexDigit?_digitChar (by omega)
  have hbytes : encoded ['\\', 'u', '0', '0', Nat.digitChar (c.toNat / 16),
      Nat.digitChar (c.toNat % 16)] = [92, 117, 48, 48, asciiByte (Nat.digitChar (c.toNat / 16)),
        asciiByte (Nat.digitChar (c.toNat % 16))] := by
    rw [encoded_cons (by decide), encoded_cons (by decide), encoded_cons (by decide),
      encoded_cons (by decide), encoded_cons (Encoding.digitChar_lt (by omega)),
      encoded_cons (Encoding.digitChar_lt (by omega))]
    rfl
  have hstep := step_control h hhigh hlow
  rw [hbytes]
  change readString (.hex none [48, 48, _]) content none (_ :: rest) = _
  rw [readString, hstep]
  rfl

/-- A character is read as it was written. -/
theorem readString_escapeChar (c : Char) (content rest : List UInt8) :
    readString .plain content none (encoded (escapeChar c) ++ rest) =
      readString .plain ((String.utf8EncodeChar c).reverse ++ content) none rest := by
  have hofNat : ∀ {n : Nat}, c.toNat = n → c = Char.ofNat n := fun h => by
    rw [← h, Char.ofNat_toNat]
  unfold escapeChar
  split
  · rename_i h
    subst h
    rfl
  split
  · rename_i h
    subst h
    rfl
  split
  · rename_i h
    obtain rfl := hofNat h
    rfl
  split
  · rename_i h
    obtain rfl := hofNat h
    rfl
  split
  · rename_i h
    subst h
    rfl
  split
  · rename_i h
    subst h
    rfl
  split
  · rename_i h
    subst h
    rfl
  split
  · rename_i h
    exact readString_control h content rest
  · rename_i hq hb _ _ _ _ _ hc
    have he : encoded [c] = String.utf8EncodeChar c := List.flatMap_singleton ..
    rw [he]
    exact readString_ordinary
      (fun byte hm => ordinary_of_mem_utf8EncodeChar (Nat.not_lt.mp hc) hq hb hm) content rest

theorem readString_flatMap (cs : List Char) (content rest : List UInt8) :
    readString .plain content none (encoded (cs.flatMap escapeChar) ++ rest) =
      readString .plain ((encoded cs).reverse ++ content) none rest := by
  induction cs generalizing content with
  | nil => rfl
  | cons c cs ih =>
    have he : encoded (c :: cs) = String.utf8EncodeChar c ++ encoded cs := List.flatMap_cons ..
    rw [List.flatMap_cons, encoded_append, List.append_assoc, readString_escapeChar, ih, he,
      List.reverse_append, List.append_assoc]

/-- A string is read up to its closing mark. -/
theorem readString_renderString (s : String) (rest : List UInt8) :
    readString .plain [] none (encoded (s.toList.flatMap escapeChar ++ ['"']) ++ rest) =
      .closed (.ok s) rest := by
  have hs : stringOf (encoded s.toList) none = .ok s := by
    have hu : Text.ofUtf8? (encoded s.toList) = some s := Text.ofUtf8?_utf8 s
    rw [stringOf, hu]
    rfl
  have hcontent : ((encoded s.toList).reverse ++ []).reverse = encoded s.toList := by
    rw [List.append_nil, List.reverse_reverse]
  have hclose : StringState.plain.step 34 = (none, .close) := by
    rfl
  have hmark : encoded ['"'] ++ rest = 34 :: rest := rfl
  rw [encoded_append, List.append_assoc, readString_flatMap, hmark, readString, hclose]
  simp only [hcontent]
  rw [← hs]
  rfl

end LinkedSchema.Json
