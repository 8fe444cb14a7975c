import LinkedSchema.Proofs.Json.Numbers

namespace LinkedSchema.Json

/-- The characters of an exponent, which has its sign always. -/
def exponentChars : Option Int → List Char
  | none => []
  | some e => ['e', if e < 0 then '-' else '+'] ++ Nat.toDigits 10 e.natAbs

/-- The characters of a number with the given digits before and after the point. -/
def numberChars (negative : Bool) (whole fraction : List Char) (exponent : Option Int) :
    List Char :=
  (if negative then ['-'] else []) ++
    (whole ++ ((if fraction = [] then [] else '.' :: fraction) ++ exponentChars exponent))

/-- The parts of the text of a decimal number. There is a point or an exponent, and the parts
denote the number up to trailing zeros. -/
structure Spells (d : Decimal) (whole fraction : List Char) (exponent : Option Int) : Prop where
  text : d.text.toList = numberChars d.negative whole fraction exponent
  ne_nil : whole ≠ []
  zero : whole.length = 1 ∨ whole.head? ≠ some '0'
  isDigit : ∀ c ∈ whole ++ fraction, c.isDigit = true
  float : fraction ≠ [] ∨ exponent.isSome = true
  value : Decimal.normalize ⟨d.negative, Nat.ofDigitChars 10 (whole ++ fraction) 0,
    exponent.getD 0 - fraction.length⟩ = d

section Layouts

variable {d : Decimal}

theorem toList_text (d : Decimal) (body : List Char)
    (h : (d.textIn Decimal.standard) = String.ofList (if d.negative then '-' :: body else body)) :
    d.text.toList = (if d.negative then ['-'] else []) ++ body := by
  rw [Decimal.text, h, String.toList_ofList]
  cases d.negative <;> rfl

theorem outside_iff (d : Decimal) :
    (d.leadingExponent < Decimal.standard.leastPlain ||
      Decimal.standard.greatestPlain < d.leadingExponent) = true ↔
        d.leadingExponent < -5 ∨ 15 < d.leadingExponent := by
  rw [Bool.or_eq_true, decide_eq_true_eq, decide_eq_true_eq]
  rfl

theorem length_toDigits (d : Decimal) :
    ((Nat.toDigits 10 d.digits).length : Int) = d.leadingExponent + 1 - d.exponent := by
  unfold Decimal.leadingExponent decimalLength
  omega

theorem isDigit_of_mem_replicate {count : Nat} {c : Char} (h : c ∈ List.replicate count '0') :
    c.isDigit = true := by
  rw [List.eq_of_mem_replicate h]
  rfl

theorem spells_exponent (hd : d.Normal)
    (h : d.leadingExponent < -5 ∨ 15 < d.leadingExponent) :
    ∃ whole fraction exponent, Spells d whole fraction exponent := by
  obtain ⟨first, others, hf⟩ := List.exists_cons_of_ne_nil
    (Nat.toDigits_ne_nil (n := d.digits) (b := 10))
  have hlen := length_toDigits d
  have hcond : (d.leadingExponent < Decimal.standard.leastPlain ||
      Decimal.standard.greatestPlain < d.leadingExponent) = true := (outside_iff d).mpr h
  refine ⟨[first], others, some d.leadingExponent, ?_, by simp, .inl rfl, ?_, .inr rfl, ?_⟩
  · rw [toList_text d ([first] ++ ((if others = [] then [] else '.' :: others) ++
      (['e', if d.leadingExponent < 0 then '-' else '+'] ++
        Nat.toDigits 10 d.leadingExponent.natAbs)))]
    · rfl
    · rw [Decimal.textIn, hf]
      simp only [hcond, ↓reduceIte]
      cases others <;> simp
  · intro c hc
    exact isDigit_of_mem_digits d.digits (by simpa [hf] using hc)
  · rw [hf, List.length_cons] at hlen
    have hv : Nat.ofDigitChars 10 ([first] ++ others) 0 = d.digits := by
      rw [List.singleton_append, ← hf, Nat.ofDigitChars_ten_toDigits]
    have he : d.leadingExponent - (others.length : Int) = d.exponent := by
      push_cast at hlen
      omega
    rw [hv, Option.getD_some, he]
    exact Decimal.normalize_of_normal hd

theorem spells_small (hd : d.Normal) (hl : -5 ≤ d.leadingExponent) (hu : d.leadingExponent < 0) :
    ∃ whole fraction exponent, Spells d whole fraction exponent := by
  have hlen := length_toDigits d
  have hcond := (outside_iff d).not.mpr (by omega)
  refine ⟨['0'], List.replicate (d.leadingExponent.natAbs - 1) '0' ++ Nat.toDigits 10 d.digits,
    none, ?_, by simp, .inl rfl, ?_, .inl (by simp), ?_⟩
  · rw [toList_text d (['0', '.'] ++ List.replicate (d.leadingExponent.natAbs - 1) '0' ++
      Nat.toDigits 10 d.digits)]
    · simp [numberChars, exponentChars]
    · rw [Decimal.textIn]
      simp only [if_neg hcond, if_pos hu]
  · intro c hc
    rw [List.singleton_append, List.mem_cons, List.mem_append] at hc
    rcases hc with rfl | hc | hc
    · rfl
    · exact isDigit_of_mem_replicate hc
    · exact isDigit_of_mem_digits d.digits hc
  · have hv : Nat.ofDigitChars 10 (['0'] ++ (List.replicate (d.leadingExponent.natAbs - 1) '0' ++
        Nat.toDigits 10 d.digits)) 0 = d.digits := by
      rw [← List.append_assoc, Nat.ofDigitChars_append]
      have hz : ['0'] ++ List.replicate (d.leadingExponent.natAbs - 1) '0' =
          List.replicate (d.leadingExponent.natAbs - 1 + 1) '0' := by
        rw [List.replicate_succ]
        rfl
      rw [hz, Nat.ofDigitChars_replicate_zero, Nat.mul_zero, Nat.ofDigitChars_ten_toDigits]
    rw [hv, List.length_append, List.length_replicate]
    have he : ((none : Option Int).getD 0) -
        ((d.leadingExponent.natAbs - 1 + (Nat.toDigits 10 d.digits).length : Nat) : Int) =
          d.exponent := by
      rw [Option.getD_none]
      push_cast
      omega
    rw [he]
    exact Decimal.normalize_of_normal hd

theorem spells_whole (hd : d.Normal) (hu : d.leadingExponent ≤ 15) (he : 0 ≤ d.exponent) :
    ∃ whole fraction exponent, Spells d whole fraction exponent := by
  have hlen := length_toDigits d
  have hpos : 0 < (Nat.toDigits 10 d.digits).length := Nat.length_toDigits_pos
  have hcond := (outside_iff d).not.mpr (by omega)
  refine ⟨Nat.toDigits 10 d.digits ++ List.replicate d.exponent.natAbs '0', ['0'], none,
    ?_, by simp [Nat.toDigits_ne_nil], ?_, ?_, .inl (by simp), ?_⟩
  · rw [toList_text d (Nat.toDigits 10 d.digits ++ List.replicate d.exponent.natAbs '0' ++
      ['.', '0'])]
    · simp [numberChars, exponentChars]
    · rw [Decimal.textIn]
      simp only [if_neg hcond, if_neg (show ¬ d.leadingExponent < 0 by omega), if_pos he]
  · by_cases hz : d.digits = 0
    · have hx : d.exponent = 0 := (hd (by omega)).2
      rw [hz, hx]
      exact .inl rfl
    · have hh := head?_toDigits_ne (Nat.pos_of_ne_zero hz)
      rw [List.head?_append_of_ne_nil _ Nat.toDigits_ne_nil]
      exact .inr hh
  · intro c hc
    rw [List.append_assoc, List.mem_append, List.mem_append, List.mem_singleton] at hc
    rcases hc with hc | hc | rfl
    · exact isDigit_of_mem_digits d.digits hc
    · exact isDigit_of_mem_replicate hc
    · rfl
  · have hv : Nat.ofDigitChars 10 (Nat.toDigits 10 d.digits ++
        List.replicate d.exponent.natAbs '0' ++ ['0']) 0 =
          d.digits * 10 ^ (d.exponent.natAbs + 1) := by
      have hz : List.replicate d.exponent.natAbs '0' ++ ['0'] =
          List.replicate (d.exponent.natAbs + 1) '0' := List.replicate_succ'.symm
      rw [List.append_assoc, hz, Nat.ofDigitChars_append, Nat.ofDigitChars_ten_toDigits,
        Nat.ofDigitChars_replicate_zero, Nat.mul_comm]
    have hx : (none : Option Int).getD 0 - ((['0'] : List Char).length : Int) =
        d.exponent - (d.exponent.natAbs + 1 : Nat) := by
      rw [Option.getD_none, List.length_singleton]
      omega
    rw [hv, hx]
    exact Decimal.normalize_appended hd _

theorem spells_mixed (hd : d.Normal) (hl : 0 ≤ d.leadingExponent) (hu : d.leadingExponent ≤ 15)
    (he : d.exponent < 0) : ∃ whole fraction exponent, Spells d whole fraction exponent := by
  have hlen := length_toDigits d
  have hcond := (outside_iff d).not.mpr (by omega)
  have hz : 0 < d.digits := Nat.pos_of_ne_zero fun h => by
    have := (hd (by omega)).2
    omega
  have hhead := head?_toDigits_ne hz
  have hvalue := Nat.ofDigitChars_ten_toDigits (n := d.digits)
  have hdigit := fun c => isDigit_of_mem_digits d.digits (c := c)
  have htext : d.text.toList = (if d.negative then ['-'] else []) ++
      ((Nat.toDigits 10 d.digits).take (d.leadingExponent.natAbs + 1) ++ ['.'] ++
        (Nat.toDigits 10 d.digits).drop (d.leadingExponent.natAbs + 1)) := by
    apply toList_text
    rw [Decimal.textIn]
    simp only [if_neg hcond, if_neg (show ¬ d.leadingExponent < 0 by omega),
      if_neg (show ¬ 0 ≤ d.exponent by omega)]
  generalize Nat.toDigits 10 d.digits = digits at *
  obtain ⟨place, hp⟩ : ∃ place : Nat, place = d.leadingExponent.natAbs + 1 := ⟨_, rfl⟩
  rw [← hp] at htext
  have hdrop : digits.drop place ≠ [] := by
    intro h
    have hle := List.drop_eq_nil_iff.mp h
    omega
  refine ⟨digits.take place, digits.drop place, none, ?_, ?_, ?_, ?_, .inl hdrop, ?_⟩
  · rw [htext, numberChars, if_neg hdrop]
    simp [exponentChars]
  · intro h
    have hle := List.take_eq_nil_iff.mp h
    rcases hle with hle | rfl
    · omega
    · simp at hdrop
  · rw [List.head?_take, if_neg (by omega)]
    exact .inr hhead
  · rwa [List.take_append_drop]
  · have hx : (none : Option Int).getD 0 - ((digits.drop place).length : Int) = d.exponent := by
      rw [Option.getD_none, List.length_drop]
      omega
    rw [List.take_append_drop, hvalue, hx]
    exact Decimal.normalize_of_normal hd

/-- Every layout spells the number out. -/
theorem exists_spells (hd : d.Normal) :
    ∃ whole fraction exponent, Spells d whole fraction exponent := by
  by_cases hl : d.leadingExponent < -5 ∨ 15 < d.leadingExponent
  · exact spells_exponent hd hl
  · by_cases hs : d.leadingExponent < 0
    · exact spells_small hd (by omega) hs
    · by_cases he : 0 ≤ d.exponent
      · exact spells_whole hd (by omega) he
      · exact spells_mixed hd (by omega) (by omega) (by omega)

end Layouts

namespace NumberText

/-- The number that is spelt out by characters. -/
def ofChars (negative : Bool) (whole fraction : List Char) (exponent : Option Int) : NumberText :=
  ⟨negative, whole.map asciiByte, if fraction = [] then none else some (fraction.map asciiByte),
    exponent.map fun e => (decide (e < 0), (Nat.toDigits 10 e.natAbs).map asciiByte)⟩

variable {d : Decimal} {whole fraction : List Char} {exponent : Option Int}

theorem wellFormed_ofChars (h : Spells d whole fraction exponent) :
    (ofChars d.negative whole fraction exponent).WellFormed where
  whole := digits_map h.ne_nil fun c hc => h.isDigit c (List.mem_append_left _ hc)
  zero := by
    have hd : ∀ c ∈ whole, c.isDigit = true := fun c hc => h.isDigit c (List.mem_append_left _ hc)
    rcases h.zero with hz | hz
    · exact .inl (by rw [ofChars, List.length_map, hz])
    · exact .inr (head?_map_ne hd hz)
  fraction := by
    intro digits hm
    by_cases hf : fraction = []
    · simp [ofChars, hf] at hm
    · obtain rfl : fraction.map asciiByte = digits := by simpa [ofChars, hf] using hm
      exact digits_map hf fun c hc => h.isDigit c (List.mem_append_right _ hc)
  exponent := by
    intro part hm
    obtain ⟨e, _, rfl⟩ := Option.mem_map.mp hm
    exact digits_digits _

theorem encoded_exponentChars (exponent : Option Int) :
    encoded (exponentChars exponent) = exponentBytes (exponent.map fun e =>
      (decide (e < 0), (Nat.toDigits 10 e.natAbs).map asciiByte)) := by
  cases exponent with
  | none => rfl
  | some e =>
    have hs : encoded ['e', if e < 0 then '-' else '+'] =
        [101, if decide (e < 0) then 45 else 43] := by
      by_cases he : e < 0 <;> simp only [he, ↓reduceIte, decide_true, decide_false,
        Bool.false_eq_true] <;> rfl
    rw [exponentChars, encoded_append, encoded_toDigits, hs]
    rfl

theorem bytes_ofChars (h : Spells d whole fraction exponent) :
    (ofChars d.negative whole fraction exponent).bytes = encoded d.text.toList := by
  have hwhole := encoded_digits fun c hc => h.isDigit c (List.mem_append_left fraction hc)
  have hfraction := encoded_digits fun c hc => h.isDigit c (List.mem_append_right whole hc)
  have hsign : encoded (if d.negative then ['-'] else []) = if d.negative then [45] else [] := by
    cases d.negative <;> rfl
  have hpoint : encoded (if fraction = [] then [] else '.' :: fraction) =
      fractionBytes (if fraction = [] then none else some (fraction.map asciiByte)) := by
    by_cases hf : fraction = []
    · simp [hf, fractionBytes]
    · rw [if_neg hf, if_neg hf, encoded_cons (by decide), hfraction]
      rfl
  rw [h.text, numberChars, encoded_append, encoded_append, encoded_append, hsign, hwhole, hpoint,
    encoded_exponentChars]
  rfl

theorem decimal_ofChars (negative : Bool) (whole fraction : List Char) (exponent : Option Int) :
    (ofChars negative whole fraction exponent).decimal = ⟨negative,
      digitsValue ((whole ++ fraction).map asciiByte), exponent.getD 0 - fraction.length⟩ := by
  have hf : (if fraction = [] then none else some (fraction.map asciiByte)).getD [] =
      fraction.map asciiByte := by
    by_cases hf : fraction = []
    · simp [hf]
    · rw [if_neg hf, Option.getD_some]
  cases exponent with
  | none =>
    simp only [decimal, ofChars, hf, List.length_map, List.map_append, Option.map_none,
      Option.getD_none]
  | some e =>
    have hdigits := digitsValue_digits e.natAbs
    by_cases hn : e < 0
    · have he : -(e.natAbs : Int) = e := by omega
      simp only [decimal, ofChars, hf, List.length_map, List.map_append, Option.map_some,
        Option.getD_some, hn, decide_true, hdigits, he]
    · have he : (e.natAbs : Int) = e := by omega
      simp only [decimal, ofChars, hf, List.length_map, List.map_append, Option.map_some,
        Option.getD_some, hn, decide_false, hdigits, he]

theorem normalize_decimal_ofChars (h : Spells d whole fraction exponent) :
    (ofChars d.negative whole fraction exponent).decimal.normalize = d := by
  rw [decimal_ofChars, digitsValue_asciiByte h.isDigit, h.value]

theorem token_ofChars {x : Binary64} (h : Spells d whole fraction exponent)
    (hx : d.toBinary64? = some x) :
    (ofChars d.negative whole fraction exponent).token = .float x := by
  have hi : (ofChars d.negative whole fraction exponent).integer? = none := by
    rw [integer?, if_pos]
    rcases h.float with hf | he
    · simp [ofChars, hf]
    · simp [ofChars, he]
  rw [token, hi]
  simp only [normalize_decimal_ofChars h, hx]

end NumberText

end LinkedSchema.Json
