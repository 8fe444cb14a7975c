import LinkedSchema.Json.Printer
import LinkedSchema.Json.Reading
import LinkedSchema.Proofs.Numbers.Decimals
import LinkedSchema.Proofs.Outcome

namespace LinkedSchema.Json

/-- The byte of a character in ASCII. -/
def asciiByte (c : Char) : UInt8 :=
  UInt8.ofNat c.toNat

theorem toNat_asciiByte {c : Char} (h : c.toNat < 128) : (asciiByte c).toNat = c.toNat := by
  rw [asciiByte, UInt8.toNat_ofNat']
  omega

theorem symbol_asciiByte {c : Char} (h : c.toNat < 128) : symbol (asciiByte c) = c := by
  rw [symbol, toNat_asciiByte h, Char.ofNat_toNat]

theorem ascii_of_isDigit {c : Char} (h : c.isDigit = true) : c.toNat < 128 := by
  have hd := (Char.isDigit_iff_toNat.mp h).2
  exact hd.trans_lt (by decide)

theorem isDigit_asciiByte {c : Char} (h : c.isDigit = true) : isDigit (asciiByte c) = true := by
  rw [isDigit, symbol_asciiByte (ascii_of_isDigit h), h]

theorem digitsValue_asciiByte {cs : List Char} (h : ∀ c ∈ cs, c.isDigit = true) :
    digitsValue (cs.map asciiByte) = Nat.ofDigitChars 10 cs 0 := by
  suffices hs : ∀ n, (cs.map asciiByte).foldl (fun n byte => n * 10 + (byte.toNat - 48)) n =
      Nat.ofDigitChars 10 cs n from hs 0
  induction cs with
  | nil => exact fun n => rfl
  | cons c cs ih =>
    intro n
    have hb := toNat_asciiByte (ascii_of_isDigit (h c (List.mem_cons_self ..)))
    have hz : '0'.toNat = 48 := rfl
    rw [List.map_cons, List.foldl_cons, ih fun d hd => h d (List.mem_cons_of_mem _ hd),
      Nat.ofDigitChars_cons, hb, hz, Nat.mul_comm]

/-- Characters as bytes in UTF-8. -/
def encoded (cs : List Char) : List UInt8 :=
  cs.flatMap String.utf8EncodeChar

@[simp] theorem encoded_nil : encoded [] = [] := rfl

@[simp] theorem encoded_append (cs ds : List Char) :
    encoded (cs ++ ds) = encoded cs ++ encoded ds :=
  List.flatMap_append

theorem encoded_cons {c : Char} (h : c.toNat < 128) (cs : List Char) :
    encoded (c :: cs) = asciiByte c :: encoded cs := by
  rw [encoded, List.flatMap_cons, Text.utf8EncodeChar_of_ascii h]
  rfl

theorem encoded_digits {cs : List Char} (h : ∀ c ∈ cs, c.isDigit = true) :
    encoded cs = cs.map asciiByte := by
  rw [encoded, ← Text.utf8_ofList, Text.utf8_ofList_of_ascii fun c hc => ascii_of_isDigit (h c hc)]
  rfl

/-- Bytes that are digits, at least one. -/
structure Digits (bytes : List UInt8) : Prop where
  ne_nil : bytes ≠ []
  isDigit : ∀ byte ∈ bytes, isDigit byte = true

theorem digits_map {cs : List Char} (hn : cs ≠ []) (h : ∀ c ∈ cs, c.isDigit = true) :
    Digits (cs.map asciiByte) := by
  refine ⟨by simpa using hn, fun byte hb => ?_⟩
  obtain ⟨c, hc, rfl⟩ := List.mem_map.mp hb
  exact isDigit_asciiByte (h c hc)

theorem head?_map_ne {cs : List Char} (h : ∀ c ∈ cs, c.isDigit = true)
    (hz : cs.head? ≠ some '0') : (cs.map asciiByte).head? ≠ some 48 := by
  cases cs with
  | nil => nofun
  | cons first others =>
    intro hb
    have hs := congrArg symbol (Option.some.inj hb)
    rw [symbol_asciiByte (ascii_of_isDigit (h first (List.mem_cons_self ..)))] at hs
    exact hz (by rw [List.head?_cons, hs]; rfl)

section Decimals

variable (n : Nat)

theorem isDigit_of_mem_digits {c : Char} (h : c ∈ Nat.toDigits 10 n) : c.isDigit = true :=
  Nat.isDigit_of_mem_toDigits (by decide) (by decide) h

theorem digits_digits : Digits ((Nat.toDigits 10 n).map asciiByte) :=
  digits_map Nat.toDigits_ne_nil fun _ => isDigit_of_mem_digits n

theorem digitsValue_digits : digitsValue ((Nat.toDigits 10 n).map asciiByte) = n := by
  rw [digitsValue_asciiByte fun _ => isDigit_of_mem_digits n, Nat.ofDigitChars_ten_toDigits]

theorem encoded_toDigits : encoded (Nat.toDigits 10 n) = (Nat.toDigits 10 n).map asciiByte :=
  encoded_digits fun _ => isDigit_of_mem_digits n

variable {n}

theorem head?_toDigits_ne (h : 0 < n) : (Nat.toDigits 10 n).head? ≠ some '0' := by
  induction n using Nat.strongRecOn with
  | ind n ih =>
    by_cases hlt : n < 10
    · rw [Nat.toDigits_of_lt_base hlt]
      have hs : ∀ n < 10, 0 < n → [Nat.digitChar n].head? ≠ some '0' := by decide
      exact hs n hlt h
    · obtain ⟨first, others, hd⟩ := List.exists_cons_of_ne_nil
        (Nat.toDigits_ne_nil (n := n / 10) (b := 10))
      have hf := ih (n / 10) (by omega) (by omega)
      rw [hd] at hf
      rw [Nat.toDigits_of_base_le (by decide) (by omega), hd]
      exact hf

theorem head?_digits_ne (h : 0 < n) :
    ((Nat.toDigits 10 n).map asciiByte).head? ≠ some 48 :=
  head?_map_ne (fun _ => isDigit_of_mem_digits n) (head?_toDigits_ne h)

end Decimals

/-- The bytes do not go on as a number could. -/
def Stops (rest : List UInt8) : Prop :=
  ∀ byte ∈ rest.head?,
    isDigit byte = false ∧ symbol byte ≠ '.' ∧ symbol byte ≠ 'e' ∧ symbol byte ≠ 'E'

theorem readDigits_append {digits rest : List UInt8} (h : Digits digits)
    (hr : ∀ byte ∈ rest.head?, isDigit byte = false) :
    readDigits (digits ++ rest) = .ok (digits, rest) := by
  have hempty : rest.takeWhile isDigit = [] ∧ rest.dropWhile isDigit = rest := by
    cases rest with
    | nil => exact ⟨rfl, rfl⟩
    | cons byte rest => simp [hr byte rfl]
  have htake : (digits ++ rest).takeWhile isDigit = digits := by
    rw [List.takeWhile_append_of_pos h.isDigit, hempty.1, List.append_nil]
  have hdrop : (digits ++ rest).dropWhile isDigit = rest := by
    rw [List.dropWhile_append_of_pos h.isDigit, hempty.2]
  cases digits with
  | nil => exact absurd rfl h.ne_nil
  | cons byte digits =>
    have hb := h.isDigit byte (List.mem_cons_self ..)
    rw [List.cons_append] at htake hdrop ⊢
    rw [readDigits, if_pos hb, htake, hdrop]
    rfl

namespace NumberText

def fractionBytes : Option (List UInt8) → List UInt8
  | none => []
  | some digits => 46 :: digits

/-- The sign of an exponent is always written. -/
def exponentBytes : Option (Bool × List UInt8) → List UInt8
  | none => []
  | some (negative, digits) => 101 :: (if negative then 45 else 43) :: digits

/-- The number as it is written. -/
def bytes (n : NumberText) : List UInt8 :=
  (if n.negative then [45] else []) ++ (n.whole ++ (fractionBytes n.fraction ++
    exponentBytes n.exponent))

/-- Each part has digits, and only a single digit before the point may be a zero in front. -/
structure WellFormed (n : NumberText) : Prop where
  whole : Digits n.whole
  zero : n.whole.length = 1 ∨ n.whole.head? ≠ some 48
  fraction : ∀ digits ∈ n.fraction, Digits digits
  exponent : ∀ part ∈ n.exponent, Digits part.2

theorem head?_exponentBytes {exponent : Option (Bool × List UInt8)} {rest : List UInt8}
    (hr : Stops rest) {byte : UInt8} (h : byte ∈ (exponentBytes exponent ++ rest).head?) :
    isDigit byte = false ∧ symbol byte ≠ '.' := by
  match exponent with
  | none =>
    have hs := hr byte h
    exact ⟨hs.1, hs.2.1⟩
  | some part =>
    obtain rfl : 101 = byte := by simpa [exponentBytes] using h
    decide

theorem readExponent_bytes {exponent : Option (Bool × List UInt8)}
    (h : ∀ part ∈ exponent, Digits part.2) {rest : List UInt8} (hr : Stops rest) :
    readExponent (exponentBytes exponent ++ rest) = .ok (exponent, rest) := by
  match exponent with
  | none =>
    cases rest with
    | nil => rfl
    | cons byte rest =>
      obtain ⟨_, _, he, hE⟩ := hr byte rfl
      simp [exponentBytes, readExponent, he, hE]
  | some (negative, digits) =>
    have hd := readDigits_append (h _ rfl) fun byte hb => (hr byte hb).1
    have he : symbol 101 = 'e' := by decide
    cases negative <;> simp [exponentBytes, readExponent, he, hd]

theorem readFraction_bytes {fraction : Option (List UInt8)} (h : ∀ digits ∈ fraction, Digits digits)
    {exponent : Option (Bool × List UInt8)} {rest : List UInt8} (hr : Stops rest) :
    readFraction (fractionBytes fraction ++ (exponentBytes exponent ++ rest)) =
      .ok (fraction, exponentBytes exponent ++ rest) := by
  have hhead : ∀ byte ∈ (exponentBytes exponent ++ rest).head?,
      isDigit byte = false ∧ symbol byte ≠ '.' := fun _ => head?_exponentBytes hr
  generalize exponentBytes exponent ++ rest = tail at *
  match fraction with
  | none =>
    rw [fractionBytes, List.nil_append]
    unfold readFraction
    split
    · exact absurd (by decide) (hhead 46 rfl).2
    · rfl
  | some digits =>
    have hd := readDigits_append (h digits rfl) fun byte hb => (hhead byte hb).1
    simp [fractionBytes, readFraction, hd]

theorem readWhole_append {whole tail : List UInt8} (h : Digits whole)
    (hz : whole.length = 1 ∨ whole.head? ≠ some 48)
    (ht : ∀ byte ∈ tail.head?, isDigit byte = false) :
    readWhole (whole ++ tail) = .ok (whole, tail) := by
  have hc : (1 < whole.length && whole.head? = some 48) = false := by
    rcases hz with hz | hz <;> simp [hz]
  simp only [readWhole, readDigits_append h ht, Outcome.ok_bind, hc]
  rfl

/-- A number is read up to where it stops. -/
theorem readNumber_bytes {n : NumberText} (h : n.WellFormed) {rest : List UInt8}
    (hr : Stops rest) : readNumber (n.bytes ++ rest) = .ok (n, rest) := by
  obtain ⟨negative, whole, fraction, exponent⟩ := n
  have hexponent := readExponent_bytes h.exponent hr
  have hfraction : readFraction (_ ++ (exponentBytes exponent ++ rest)) = _ :=
    readFraction_bytes h.fraction hr
  have hhead : ∀ byte ∈ (fractionBytes fraction ++ (exponentBytes exponent ++ rest)).head?,
      isDigit byte = false := by
    intro byte hb
    match fraction with
    | none => exact (head?_exponentBytes hr hb).1
    | some digits =>
      obtain rfl : 46 = byte := by simpa [fractionBytes] using hb
      decide
  have hwhole := readWhole_append h.whole h.zero hhead
  cases negative with
  | true =>
    simp only [readNumber, bytes, ↓reduceIte, List.append_assoc, List.cons_append, List.nil_append,
      hwhole, hfraction, hexponent, Outcome.ok_bind, Outcome.pure_eq]
  | false =>
    have hsign : ∀ tail after, whole ++ tail ≠ 45 :: after := by
      intro tail after he
      cases whole with
      | nil => exact h.whole.ne_nil rfl
      | cons first others =>
        obtain rfl := (List.cons.inj he).1
        exact absurd (h.whole.isDigit 45 (List.mem_cons_self ..)) (by decide)
    simp only [readNumber, bytes, Bool.false_eq_true, ↓reduceIte, List.append_assoc,
      List.nil_append]
    split
    · rename_i he
      exact absurd he (hsign _ _)
    · simp only [hwhole, hfraction, hexponent, Outcome.ok_bind, Outcome.pure_eq]

/-- An integer as it is written. -/
def ofInt (k : Int) : NumberText :=
  ⟨decide (k < 0), (Nat.toDigits 10 k.natAbs).map asciiByte, none, none⟩

theorem wellFormed_ofInt (k : Int) : (ofInt k).WellFormed where
  whole := digits_digits _
  zero := by
    by_cases h : k.natAbs = 0
    · rw [ofInt, h]
      exact .inl rfl
    · exact .inr (head?_digits_ne (Nat.pos_of_ne_zero h))
  fraction := nofun
  exponent := nofun

theorem encoded_toString (k : Int) : encoded (toString k).toList = (ofInt k).bytes := by
  cases k with
  | ofNat n =>
    have ht : (toString (Int.ofNat n)).toList = Nat.toDigits 10 n := by
      change n.repr.toList = _
      rw [Nat.repr_eq_ofList_toDigits, String.toList_ofList]
    have hn : decide (Int.ofNat n < 0) = false := decide_eq_false (by simp)
    rw [ht, encoded_toDigits, ofInt, bytes, hn]
    simp [fractionBytes, exponentBytes]
  | negSucc n =>
    have ht : (toString (Int.negSucc n)).toList = '-' :: Nat.toDigits 10 (n + 1) := by
      change ("-" ++ (n + 1).repr).toList = _
      rw [String.toList_append, Nat.repr_eq_ofList_toDigits, String.toList_ofList,
        String.toList_ofList]
      rfl
    have hn : decide (Int.negSucc n < 0) = true := decide_eq_true (Int.negSucc_lt_zero n)
    rw [ht, encoded_cons (by decide), encoded_toDigits, ofInt, bytes, hn]
    simp only [fractionBytes, exponentBytes, List.append_nil]
    rfl

end NumberText

/-- The integer has 64 bits, signed or unsigned. -/
def IntFits (n : Int) : Prop :=
  Int64.minValue.toInt ≤ n ∧ n < UInt64.size

instance (n : Int) : Decidable (IntFits n) := inferInstanceAs (Decidable (_ ∧ _))

namespace NumberText

theorem integer?_ofInt (k : Int) : (ofInt k).integer? = if IntFits k then some k else none := by
  have hv : digitsValue (ofInt k).whole = k.natAbs := digitsValue_digits _
  have hm : Int64.minValue.toInt = -9223372036854775808 := rfl
  have hu : (0 : Int) < UInt64.size := by decide
  have hn : ¬ ((ofInt k).fraction.isSome || (ofInt k).exponent.isSome) = true := by simp [ofInt]
  simp only [integer?, hv, if_neg hn]
  by_cases hk : k < 0
  · have hb : (0 < k.natAbs && k.natAbs ≤ Int64.minValue.toInt.natAbs) = true ↔ IntFits k := by
      simp only [IntFits, Bool.and_eq_true, decide_eq_true_eq]
      omega
    have he : -(k.natAbs : Int) = k := by omega
    rw [if_pos (show (ofInt k).negative = true from decide_eq_true hk), he]
    simp only [hb]
  · have hb : k.natAbs < UInt64.size ↔ IntFits k := by
      unfold IntFits
      omega
    have he : (k.natAbs : Int) = k := by omega
    rw [if_neg (show ¬ (ofInt k).negative = true by simpa [ofInt] using hk), he]
    simp only [hb]

/-- An integer of 64 bits is read as an integer. -/
theorem token_ofInt {k : Int} (h : IntFits k) : (ofInt k).token = .int k := by
  rw [token, integer?_ofInt, if_pos h]

/-- The token of a number is a value by itself. -/
theorem isSome_scalar?_token (n : NumberText) : n.token.scalar?.isSome = true := by
  unfold token
  cases n.integer? with
  | some k => rfl
  | none => cases n.decimal.normalize.toBinary64? <;> rfl

end NumberText

end LinkedSchema.Json
