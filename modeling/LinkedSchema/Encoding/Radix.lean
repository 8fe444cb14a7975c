namespace LinkedSchema.Encoding

/-- The number with the given digits, the first one the most significant. -/
def valueOf (base : Nat) (digits : List Nat) : Nat :=
  digits.foldl (fun n digit => n * base + digit) 0

/-- The digits of a number without zeros in front; zero has none. -/
def digitsOf (base n : Nat) : List Nat :=
  go (n.log2 + 1) n []
where
  go : Nat → Nat → List Nat → List Nat
    | 0, _, later => later
    | most + 1, n, later => if n = 0 then later else go most (n / base) (n % base :: later)

theorem valueOf_digitsOf_go {base most n : Nat} (hb : 1 < base) (hn : n < Nat.pow 2 most)
    (later : List Nat) :
    valueOf base (digitsOf.go base most n later) =
      later.foldl (fun n digit => n * base + digit) n := by
  induction most generalizing n later with
  | zero =>
    have h0 : n = 0 := Nat.lt_one_iff.mp hn
    subst h0
    rfl
  | succ most ih =>
    unfold digitsOf.go
    split
    · rename_i h0
      subst h0
      rfl
    · have hlt : n / base < Nat.pow 2 most := by
        have h2 : n / base ≤ n / 2 := Nat.div_le_div_left hb (by omega)
        have hp : Nat.pow 2 (most + 1) = Nat.pow 2 most * 2 := rfl
        omega
      rw [ih hlt, List.foldl_cons, Nat.div_add_mod']

/-- The digits of a number stand for it. -/
theorem valueOf_digitsOf {base : Nat} (hb : 1 < base) (n : Nat) :
    valueOf base (digitsOf base n) = n :=
  valueOf_digitsOf_go hb Nat.lt_log2_self []

/-- The same big number in another base, with its zeros in front. -/
def changeBase (source target : Nat) (digits : List Nat) : List Nat :=
  List.replicate (digits.takeWhile (· = 0)).length 0 ++ digitsOf target (valueOf source digits)

def writeRadix (alphabet : List Char) (bytes : List UInt8) : List Char :=
  (changeBase 256 alphabet.length (bytes.map UInt8.toNat)).map fun digit => alphabet.getD digit '?'

def readRadix? (alphabet : List Char) (symbols : List Char) : Option (List UInt8) := do
  let digits ← symbols.mapM fun symbol => alphabet.idxOf? symbol
  return (changeBase alphabet.length 256 digits).map UInt8.ofNat

end LinkedSchema.Encoding
