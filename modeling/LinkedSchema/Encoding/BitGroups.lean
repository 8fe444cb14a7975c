namespace LinkedSchema.Encoding

/-- The lowest bits of a number, the highest of them first. -/
def bits (width n : Nat) : List Bool :=
  (List.range width).map fun i => n.testBit (width - 1 - i)

def ofBits (row : List Bool) : Nat :=
  row.foldl (fun n bit => 2 * n + bit.toNat) 0

theorem bits_succ (width n : Nat) : bits (width + 1) n = n.testBit width :: bits width n := by
  simp only [bits, List.range_succ_eq_map, List.map_cons, List.map_map]
  congr 1
  apply List.map_congr_left
  intro i _
  simp only [Function.comp]
  congr 1
  omega

theorem foldl_bits (width n start : Nat) :
    (bits width n).foldl (fun n bit => 2 * n + bit.toNat) start =
      start * Nat.pow 2 width + n % Nat.pow 2 width := by
  induction width generalizing start with
  | zero => simp [bits, Nat.mod_one]
  | succ width ih =>
    have hp : Nat.pow 2 (width + 1) = Nat.pow 2 width * 2 := rfl
    have hm : n % (Nat.pow 2 width * 2) =
        n % Nat.pow 2 width + Nat.pow 2 width * (n / Nat.pow 2 width % 2) := Nat.mod_mul
    have ht : (n.testBit width).toNat = n / Nat.pow 2 width % 2 := Nat.toNat_testBit ..
    rw [bits_succ, List.foldl_cons, ih, hp, hm, ht, Nat.add_mul, Nat.mul_comm 2 start,
      Nat.mul_assoc, Nat.mul_comm 2 (Nat.pow 2 width), Nat.mul_comm (n / _ % 2)]
    omega

/-- Bits that are wide enough keep the number. -/
theorem ofBits_bits {width n : Nat} (h : n < Nat.pow 2 width) : ofBits (bits width n) = n := by
  rw [ofBits, foldl_bits, Nat.mod_eq_of_lt h, Nat.zero_mul, Nat.zero_add]

/-- Consecutive pieces of the given length, of which only the last may be shorter. -/
def pieces {α : Type} (length : Nat) (items : List α) : List (List α) :=
  go items.length items
where
  go : Nat → List α → List (List α)
    | 0, _ => []
    | _, [] => []
    | most + 1, first :: rest =>
      (first :: rest).take length :: go most ((first :: rest).drop length)

/-- The symbols of a row of bytes. -/
def writeGroups (width : Nat) (alphabet : List Char) (bytes : List UInt8) : List Char :=
  (pieces width (bytes.flatMap fun byte => bits 8 byte.toNat)).map fun group =>
    alphabet.getD (ofBits (group ++ List.replicate (width - group.length) false)) '?'

/-- The bytes of a row of bits whose spare bits are fewer than a group and all zero. -/
def bytesOfBits? (width : Nat) (row : List Bool) : Option (List UInt8) :=
  let spare := row.length % 8
  let used := row.take (row.length - spare)
  if spare < width && (row.drop (row.length - spare)).all (· = false) then
    some ((pieces 8 used).map fun group => UInt8.ofNat (ofBits group))
  else none

/-- The bytes that symbols of the alphabet stand for. -/
def readGroups? (width : Nat) (alphabet : List Char) (symbols : List Char) :
    Option (List UInt8) := do
  let values ← symbols.mapM fun symbol => alphabet.idxOf? symbol
  bytesOfBits? width (values.flatMap (bits width))

/-- As `readGroups?`, for text in blocks of which each is filled up with `=`. -/
def readPadded? (width block : Nat) (alphabet : List Char) (symbols : List Char) :
    Option (List UInt8) := do
  let parts ← (pieces block symbols).mapM fun part =>
    let body := (part.reverse.dropWhile (· = '=')).reverse
    if part.length = block && body ≠ [] then readGroups? width alphabet body else none
  return parts.flatten

end LinkedSchema.Encoding
