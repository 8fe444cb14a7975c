import LinkedSchema.Encoding.Radix
import LinkedSchema.Encoding.Varint
import LinkedSchema.Proofs.Encoding.Groups
import LinkedSchema.Proofs.Outcome
import Mathlib.Data.Nat.Digits.Lemmas

namespace LinkedSchema.Encoding

section Radix

variable {base : Nat}

theorem digitsOf_go_eq (hb : 1 < base) {most n : Nat} (hn : n < Nat.pow 2 most)
    (later : List Nat) :
    digitsOf.go base most n later = (Nat.digits base n).reverse ++ later := by
  induction most generalizing n later with
  | zero =>
    have h0 : n = 0 := Nat.lt_one_iff.mp hn
    subst h0
    simp [digitsOf.go]
  | succ most ih =>
    unfold digitsOf.go
    by_cases h0 : n = 0
    · subst h0
      simp
    · have hlt : n / base < Nat.pow 2 most := by
        have h2 : n / base ≤ n / 2 := Nat.div_le_div_left hb (by omega)
        have hp : Nat.pow 2 (most + 1) = Nat.pow 2 most * 2 := rfl
        omega
      rw [if_neg h0, ih hlt, Nat.digits_def' hb (Nat.pos_of_ne_zero h0), List.reverse_cons,
        List.append_assoc, List.singleton_append]

theorem digitsOf_eq (hb : 1 < base) (n : Nat) : digitsOf base n = (Nat.digits base n).reverse := by
  rw [digitsOf, digitsOf_go_eq hb Nat.lt_log2_self, List.append_nil]

theorem valueOf_eq (digits : List Nat) :
    valueOf base digits = Nat.ofDigits base digits.reverse := by
  induction digits using List.reverseRecOn with
  | nil => rfl
  | append_singleton digits digit ih =>
    have hv : valueOf base (digits ++ [digit]) = valueOf base digits * base + digit := by
      simp [valueOf]
    rw [hv, ih, List.reverse_append, List.reverse_singleton, List.singleton_append,
      Nat.ofDigits_cons]
    ring

theorem valueOf_append (front back : List Nat) :
    valueOf base (front ++ back) =
      valueOf base front * base ^ back.length + valueOf base back := by
  rw [valueOf_eq, valueOf_eq, valueOf_eq, List.reverse_append, Nat.ofDigits_append,
    List.length_reverse]
  ring

theorem valueOf_lt (hb : 1 < base) {digits : List Nat} (hd : ∀ d ∈ digits, d < base) :
    valueOf base digits < base ^ digits.length := by
  have hl := Nat.ofDigits_lt_base_pow_length hb (l := digits.reverse) (by simpa using hd)
  rwa [← valueOf_eq, List.length_reverse] at hl

/-- A value has the digits that it was made of, if they do not start with a zero. -/
theorem digitsOf_valueOf (hb : 1 < base) {digits : List Nat} (hd : ∀ d ∈ digits, d < base)
    (hz : digits.head? ≠ some 0) : digitsOf base (valueOf base digits) = digits := by
  have hlast : ∀ h : digits.reverse ≠ [], digits.reverse.getLast h ≠ 0 := by
    intro h he
    have hn : digits ≠ [] := by simpa using h
    rw [List.getLast_reverse] at he
    exact hz (by rw [List.head?_eq_some_head hn, he])
  rw [valueOf_eq, digitsOf_eq hb, Nat.digits_ofDigits base hb _ (by simpa using hd) hlast,
    List.reverse_reverse]

theorem digitsOf_head?_ne (hb : 1 < base) (n : Nat) : (digitsOf base n).head? ≠ some 0 := by
  rw [digitsOf_eq hb, List.head?_reverse]
  intro h
  have hn : Nat.digits base n ≠ [] := by
    rintro hn
    simp [hn] at h
  rw [List.getLast?_eq_some_getLast hn] at h
  exact Nat.getLast_digit_ne_zero base (Nat.digits_ne_nil_iff_ne_zero.mp hn) (Option.some.inj h)

theorem lt_of_mem_digitsOf (hb : 1 < base) {n d : Nat} (h : d ∈ digitsOf base n) : d < base := by
  rw [digitsOf_eq hb, List.mem_reverse] at h
  exact Nat.digits_lt_base hb h

/-- The digits in front are those of the quotient by a power of the base. -/
theorem digitsOf_split (hb : 1 < base) {count n : Nat} (h : 0 < n / base ^ count) :
    ∃ low, low.length = count ∧ digitsOf base n = digitsOf base (n / base ^ count) ++ low := by
  induction count generalizing n with
  | zero => exact ⟨[], rfl, by simp⟩
  | succ count ih =>
    have hp : n / base ^ (count + 1) = n / base / base ^ count := by
      rw [Nat.pow_succ', Nat.div_div_eq_div_mul]
    have hn : 0 < n := Nat.pos_of_ne_zero fun h0 => by simp [h0] at h
    obtain ⟨low, hl, hd⟩ := ih (hp ▸ h)
    refine ⟨low ++ [n % base], by simp [hl], ?_⟩
    rw [hp, ← List.append_assoc, ← hd, digitsOf_eq hb, digitsOf_eq hb, Nat.digits_def' hb hn,
      List.reverse_cons]

theorem valueOf_zeros (count : Nat) (digits : List Nat) :
    valueOf base (List.replicate count 0 ++ digits) = valueOf base digits := by
  have hz : (List.replicate count 0).foldl (fun n digit => n * base + digit) 0 = 0 := by
    induction count with
    | zero => rfl
    | succ count ih => simpa [List.replicate_succ] using ih
  rw [valueOf, List.foldl_append, hz]
  rfl

theorem takeWhile_zeros (count : Nat) {digits : List Nat} (h : digits.head? ≠ some 0) :
    (List.replicate count 0 ++ digits).takeWhile (· = 0) = List.replicate count 0 := by
  have hd : digits.takeWhile (· = 0) = [] := by
    cases digits with
    | nil => rfl
    | cons digit digits => simp_all
  rw [List.takeWhile_append_of_pos (by simp), hd, List.append_nil]

/-- Digits are their zeros in front and others that do not start with a zero. -/
theorem exists_zeros (digits : List Nat) :
    ∃ count rest, digits = List.replicate count 0 ++ rest ∧ rest.head? ≠ some 0 := by
  induction digits with
  | nil => exact ⟨0, [], rfl, nofun⟩
  | cons digit digits ih =>
    by_cases hd : digit = 0
    · obtain ⟨count, rest, rfl, hr⟩ := ih
      exact ⟨count + 1, rest, by rw [hd, List.replicate_succ, List.cons_append], hr⟩
    · exact ⟨0, digit :: digits, rfl, by simpa using hd⟩

theorem changeBase_zeros {source target : Nat} (count : Nat) {rest : List Nat}
    (h : rest.head? ≠ some 0) :
    changeBase source target (List.replicate count 0 ++ rest) =
      List.replicate count 0 ++ digitsOf target (valueOf source rest) := by
  rw [changeBase, takeWhile_zeros count h, valueOf_zeros, List.length_replicate]

theorem changeBase_of_head?_ne {source target : Nat} {digits : List Nat}
    (h : digits.head? ≠ some 0) :
    changeBase source target digits = digitsOf target (valueOf source digits) :=
  changeBase_zeros 0 h

/-- Digits are kept on the way through another base, zeros in front included. -/
theorem changeBase_changeBase {source target : Nat} (hs : 1 < source) (ht : 1 < target)
    {digits : List Nat} (h : ∀ d ∈ digits, d < source) :
    changeBase target source (changeBase source target digits) = digits := by
  obtain ⟨count, rest, rfl, hr⟩ := exists_zeros digits
  have hd : ∀ d ∈ rest, d < source := fun d hm => h d (List.mem_append_right _ hm)
  rw [changeBase_zeros count hr, changeBase_zeros count (digitsOf_head?_ne ht _),
    valueOf_digitsOf ht, digitsOf_valueOf hs hd hr]

theorem lt_of_mem_changeBase {source target d : Nat} {digits : List Nat} (ht : 1 < target)
    (h : d ∈ changeBase source target digits) : d < target := by
  rcases List.mem_append.mp h with h | h
  · obtain rfl := List.eq_of_mem_replicate h
    omega
  · exact lt_of_mem_digitsOf ht h

theorem lt_of_mem_map_toNat {bytes : List UInt8} {d : Nat} (h : d ∈ bytes.map UInt8.toNat) :
    d < 256 := by
  obtain ⟨byte, _, rfl⟩ := List.mem_map.mp h
  exact byte.toNat_lt

/-- What was written is read back. -/
theorem readRadix?_writeRadix {symbols : List Char} (hl : 1 < symbols.length)
    (hn : symbols.Nodup) (bytes : List UInt8) :
    readRadix? symbols (writeRadix symbols bytes) = some bytes := by
  have hm : (writeRadix symbols bytes).mapM (fun symbol => symbols.idxOf? symbol) =
      some (changeBase 256 symbols.length (bytes.map UInt8.toNat)) :=
    mapM_map_of_leftInverse fun digit hm => idxOf?_getD hn (lt_of_mem_changeBase hl hm)
  have hb : (bytes.map UInt8.toNat).map UInt8.ofNat = bytes := by
    simp [Function.comp_def]
  rw [readRadix?, hm]
  change some ((changeBase symbols.length 256 _).map UInt8.ofNat) = some bytes
  rw [changeBase_changeBase (by decide) hl fun d => lt_of_mem_map_toNat, hb]

end Radix

section Varint

theorem readVarint_go_last {most place value n : Nat} (rest : List UInt8) (hn : n < 128)
    (hz : n ≠ 0 ∨ place = 0) :
    readVarint.go (most + 1) place value (UInt8.ofNat n :: rest) =
      .ok (UInt64.ofNat (value + n * Nat.pow 2 place), rest) := by
  have hb : (UInt8.ofNat n).toNat = n := by
    rw [UInt8.toNat_ofNat']
    omega
  have hl : UInt8.ofNat n < 128 := by
    rw [UInt8.lt_iff_toNat_lt, hb]
    exact hn
  have hne : ¬ (UInt8.ofNat n = 0 ∧ place ≠ 0) := by
    rintro ⟨h0, hp⟩
    rcases hz with hz | hz
    · rw [h0] at hb
      exact hz hb.symm
    · exact hp hz
  simp only [readVarint.go, hb, Nat.mod_eq_of_lt hn, hl, ↓reduceIte, Bool.and_eq_true,
    decide_eq_true_eq, hne, Outcome.pure_eq]

/-- A number is read back from its seven-bit groups, the earlier ones being read already. -/
theorem readVarint_go_writeVarint_go {most place value n : Nat} (rest : List UInt8)
    (hn : n < 128 ^ (most + 1)) (hz : n ≠ 0 ∨ place = 0) :
    readVarint.go (most + 1) place value (writeVarint.go most n ++ rest) =
      .ok (UInt64.ofNat (value + n * Nat.pow 2 place), rest) := by
  induction most generalizing place value n with
  | zero => exact readVarint_go_last rest (by simpa using hn) hz
  | succ most ih =>
    unfold writeVarint.go
    by_cases hlt : n < 128
    · rw [if_pos hlt]
      exact readVarint_go_last rest hlt hz
    · have hb : (UInt8.ofNat (n % 128 + 128)).toNat = n % 128 + 128 := by
        rw [UInt8.toNat_ofNat']
        omega
      have hl : ¬ UInt8.ofNat (n % 128 + 128) < 128 := by
        rw [UInt8.lt_iff_toNat_lt, hb]
        exact Nat.not_lt.mpr (Nat.le_add_left ..)
      have hm : (n % 128 + 128) % 128 = n % 128 := by omega
      have hv : value + n % 128 * Nat.pow 2 place + n / 128 * Nat.pow 2 (place + 7) =
          value + n * Nat.pow 2 place := by
        have hp : Nat.pow 2 (place + 7) = 128 * Nat.pow 2 place := by
          simp only [Nat.pow_eq, pow_add]
          ring
        have hd := Nat.div_add_mod n 128
        calc value + n % 128 * Nat.pow 2 place + n / 128 * Nat.pow 2 (place + 7)
            = value + (128 * (n / 128) + n % 128) * Nat.pow 2 place := by rw [hp]; ring
          _ = value + n * Nat.pow 2 place := by rw [hd]
      have hr : readVarint.go (most + 1) (place + 7) (value + n % 128 * Nat.pow 2 place)
          (writeVarint.go most (n / 128) ++ rest) =
            .ok (UInt64.ofNat (value + n % 128 * Nat.pow 2 place +
              n / 128 * Nat.pow 2 (place + 7)), rest) :=
        ih (Nat.div_lt_of_lt_mul (by rw [← Nat.pow_succ']; exact hn)) (.inl (by omega))
      rw [if_neg hlt, List.cons_append, readVarint.go]
      simp only [hb, hm, hl, ↓reduceIte]
      rw [hr, hv]

/-- What was written is read back, whatever follows. -/
theorem readVarint_writeVarint (n : UInt64) (rest : List UInt8) :
    readVarint (writeVarint n ++ rest) = .ok (n, rest) := by
  have hn : n.toNat < 128 ^ 10 := lt_of_lt_of_le n.toNat_lt (by decide)
  have h : readVarint.go 10 0 0 (writeVarint.go 9 n.toNat ++ rest) =
      .ok (UInt64.ofNat (0 + n.toNat * Nat.pow 2 0), rest) :=
    readVarint_go_writeVarint_go rest hn (.inr rfl)
  simpa [readVarint, writeVarint] using h

end Varint

end LinkedSchema.Encoding
