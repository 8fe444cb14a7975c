import LinkedSchema.Encoding.BitGroups
import LinkedSchema.Proofs.Lists
import Mathlib.Data.List.GetD
import Mathlib.Data.List.Induction
import Mathlib.Data.List.Nodup

namespace LinkedSchema.Encoding

@[simp] theorem length_bits (width n : Nat) : (bits width n).length = width := by
  simp [bits]

theorem bits_append_low (width n : Nat) :
    bits (width + 1) n = bits width (n / 2) ++ [n.testBit 0] := by
  simp only [bits, List.range_succ, List.map_append, List.map_cons, List.map_nil]
  congr 1
  · apply List.map_congr_left
    intro i hi
    have hi := List.mem_range.mp hi
    rw [Nat.testBit_div_two]
    congr 1
    omega
  · congr 2
    omega

theorem ofBits_append_low (row : List Bool) (bit : Bool) :
    ofBits (row ++ [bit]) = 2 * ofBits row + bit.toNat := by
  simp [ofBits]

/-- The number that a row of bits stands for has just these bits. -/
theorem bits_ofBits (row : List Bool) : bits row.length (ofBits row) = row := by
  induction row using List.reverseRecOn with
  | nil => rfl
  | append_singleton row bit ih =>
    have hb := bit.toNat_lt
    have hh : (2 * ofBits row + bit.toNat) / 2 = ofBits row := by omega
    have hl : (2 * ofBits row + bit.toNat).testBit 0 = bit := by
      cases bit <;> simp [Nat.testBit_zero]
    rw [List.length_append, List.length_singleton, ofBits_append_low, bits_append_low, hh, ih, hl]

theorem ofBits_lt (row : List Bool) : ofBits row < Nat.pow 2 row.length := by
  induction row using List.reverseRecOn with
  | nil => decide
  | append_singleton row bit ih =>
    have hb := bit.toNat_lt
    have hp : Nat.pow 2 (row.length + 1) = Nat.pow 2 row.length * 2 := rfl
    rw [List.length_append, List.length_singleton, ofBits_append_low]
    omega

section Pieces

variable {α : Type} {length : Nat}

theorem pieces_go_eq (hl : 0 < length) {most : Nat} {items : List α}
    (hm : items.length ≤ most) :
    pieces.go length most items = pieces length items := by
  suffices h : ∀ {a b : Nat} {items : List α}, items.length ≤ a → items.length ≤ b →
      pieces.go length a items = pieces.go length b items from h hm (Nat.le_refl _)
  intro a b items ha hb
  induction a generalizing b items with
  | zero =>
    have hn : items = [] := List.eq_nil_of_length_eq_zero (by omega)
    subst hn
    cases b <;> rfl
  | succ a ih =>
    cases items with
    | nil => cases b <;> rfl
    | cons first rest =>
      cases b with
      | zero => simp at hb
      | succ b =>
        simp only [List.length_cons] at ha hb
        simp only [pieces.go]
        congr 1
        exact ih (by simp only [List.length_drop, List.length_cons]; omega)
          (by simp only [List.length_drop, List.length_cons]; omega)

@[simp] theorem pieces_nil : pieces length ([] : List α) = [] := rfl

theorem pieces_of_ne_nil (hl : 0 < length) {items : List α} (h : items ≠ []) :
    pieces length items = items.take length :: pieces length (items.drop length) := by
  cases items with
  | nil => exact absurd rfl h
  | cons first rest =>
    rw [pieces, List.length_cons, pieces.go, pieces_go_eq hl]
    simp only [List.length_drop, List.length_cons]
    omega

theorem pieces_append {piece : List α} (hl : 0 < length) (hp : piece.length = length)
    (items : List α) : pieces length (piece ++ items) = piece :: pieces length items := by
  have hn : piece ++ items ≠ [] := by
    intro h
    have hn := List.append_eq_nil_iff.mp h
    rw [hn.1] at hp
    simp at hp
    omega
  rw [pieces_of_ne_nil hl hn, List.take_left' hp, List.drop_left' hp]

/-- Pieces of the right length are found again. -/
theorem pieces_flatten (hl : 0 < length) {rows : List (List α)}
    (h : ∀ row ∈ rows, row.length = length) : pieces length rows.flatten = rows := by
  induction rows with
  | nil => rfl
  | cons row rows ih =>
    rw [List.flatten_cons, pieces_append hl (h row (List.mem_cons_self ..)),
      ih fun other ho => h other (List.mem_cons_of_mem _ ho)]

end Pieces

/-- A group with the zeros that fill it up. -/
def filled (width : Nat) (group : List Bool) : List Bool :=
  group ++ List.replicate (width - group.length) false

/-- The number of zeros that fill up the last group. -/
def padding (width length : Nat) : Nat :=
  (width - length % width) % width

theorem padding_lt {width : Nat} (hw : 0 < width) (length : Nat) : padding width length < width :=
  Nat.mod_lt _ hw

theorem length_filled {width : Nat} {group : List Bool} (h : group.length ≤ width) :
    (filled width group).length = width := by
  rw [filled, List.length_append, List.length_replicate]
  omega

theorem flatMap_filled_pieces {width : Nat} (hw : 0 < width) (row : List Bool) :
    (pieces width row).flatMap (filled width) =
      row ++ List.replicate (padding width row.length) false := by
  induction hn : row.length using Nat.strongRecOn generalizing row with
  | ind n ih =>
    subst hn
    by_cases hr : row = []
    · subst hr
      simp [padding]
    have hpos := List.length_pos_iff.mpr hr
    rw [pieces_of_ne_nil hw hr, List.flatMap_cons]
    by_cases hle : row.length ≤ width
    · have hd : row.drop width = [] := List.drop_eq_nil_of_le hle
      have hp : padding width row.length = width - row.length := by
        unfold padding
        rcases Nat.lt_or_eq_of_le hle with hlt | he
        · rw [Nat.mod_eq_of_lt hlt, Nat.mod_eq_of_lt (by omega)]
        · rw [he, Nat.mod_self, Nat.sub_zero, Nat.mod_self, Nat.sub_self]
      rw [hd, pieces_nil, List.flatMap_nil, List.append_nil, List.take_of_length_le hle, filled, hp]
    · have hlen : (row.drop width).length = row.length - width := List.length_drop ..
      have hp : padding width (row.length - width) = padding width row.length := by
        unfold padding
        rw [Nat.mod_eq_sub_mod (show width ≤ row.length by omega)]
      have hf : filled width (row.take width) = row.take width := by
        have ht : (row.take width).length = width := by
          rw [List.length_take]
          omega
        rw [filled, ht, Nat.sub_self, List.replicate_zero, List.append_nil]
      rw [ih _ (by omega) _ hlen, hf, ← List.append_assoc, List.take_append_drop, hp]

theorem length_le_of_mem_pieces {width : Nat} (hw : 0 < width) {row group : List Bool}
    (h : group ∈ pieces width row) : group.length ≤ width := by
  induction hn : row.length using Nat.strongRecOn generalizing row with
  | ind n ih =>
    subst hn
    by_cases hr : row = []
    · subst hr
      simp at h
    have hpos := List.length_pos_iff.mpr hr
    rw [pieces_of_ne_nil hw hr] at h
    rcases List.mem_cons.mp h with rfl | h
    · rw [List.length_take]
      omega
    · exact ih _ (by rw [List.length_drop]; omega) h rfl

/-- The values of the symbols that bytes are written as. -/
def groupValues (width : Nat) (bytes : List UInt8) : List Nat :=
  (pieces width (bytes.flatMap fun byte => bits 8 byte.toNat)).map fun group =>
    ofBits (filled width group)

theorem writeGroups_eq (width : Nat) (alphabet : List Char) (bytes : List UInt8) :
    writeGroups width alphabet bytes = (groupValues width bytes).map fun value =>
      alphabet.getD value '?' := by
  rw [groupValues, List.map_map]
  rfl

theorem groupValues_lt {width : Nat} (hw : 0 < width) {bytes : List UInt8} {value : Nat}
    (h : value ∈ groupValues width bytes) : value < Nat.pow 2 width := by
  obtain ⟨group, hg, rfl⟩ := List.mem_map.mp h
  have hl := ofBits_lt (filled width group)
  rwa [length_filled (length_le_of_mem_pieces hw hg)] at hl

theorem length_bits_bytes (bytes : List UInt8) :
    (bytes.flatMap fun byte => bits 8 byte.toNat).length = 8 * bytes.length := by
  induction bytes with
  | nil => rfl
  | cons byte bytes ih =>
    rw [List.flatMap_cons, List.length_append, length_bits, ih, List.length_cons]
    omega

theorem flatMap_bits_groupValues {width : Nat} (hw : 0 < width) (bytes : List UInt8) :
    (groupValues width bytes).flatMap (bits width) =
      (bytes.flatMap fun byte => bits 8 byte.toNat) ++
        List.replicate (padding width (8 * bytes.length)) false := by
  have hb : ∀ group ∈ pieces width (bytes.flatMap fun byte => bits 8 byte.toNat),
      bits width (ofBits (filled width group)) = filled width group := by
    intro group hg
    have hl := length_filled (length_le_of_mem_pieces hw hg)
    have hi := bits_ofBits (filled width group)
    rwa [hl] at hi
  have hf := flatMap_filled_pieces hw (bytes.flatMap fun byte => bits 8 byte.toNat)
  rw [length_bits_bytes] at hf
  rw [← hf, groupValues, List.flatMap_map]
  exact List.flatMap_congr hb

/-- Fewer zeros than a group are cut off. -/
theorem bytesOfBits?_filled {width spare : Nat} (h8 : width ≤ 8) (hs : spare < width)
    (bytes : List UInt8) :
    bytesOfBits? width ((bytes.flatMap fun byte => bits 8 byte.toNat) ++
      List.replicate spare false) = some bytes := by
  have hl := length_bits_bytes bytes
  have hp : pieces 8 (bytes.flatMap fun byte => bits 8 byte.toNat) =
      bytes.map fun byte => bits 8 byte.toNat := by
    rw [List.flatMap_def]
    apply pieces_flatten (by decide)
    intro row hr
    obtain ⟨byte, _, rfl⟩ := List.mem_map.mp hr
    exact length_bits ..
  have hb : ∀ byte : UInt8, UInt8.ofNat (ofBits (bits 8 byte.toNat)) = byte := fun byte => by
    rw [ofBits_bits byte.toNat_lt, UInt8.ofNat_toNat]
  have hm : (8 * bytes.length + spare) % 8 = spare := by omega
  have hz : (List.replicate spare false).all (· = false) = true := by simp
  simp only [bytesOfBits?, List.length_append, hl, List.length_replicate, hm, Nat.add_sub_cancel,
    List.take_left' hl, List.drop_left' hl, hz, hs, hp, decide_true, Bool.and_true, ↓reduceIte,
    List.map_map, Function.comp_def, hb, List.map_id']

/-- Among different symbols each is found in its own place. -/
theorem idxOf?_getD {symbols : List Char} (hn : symbols.Nodup) {value : Nat}
    (h : value < symbols.length) : symbols.idxOf? (symbols.getD value '?') = some value := by
  have hg : symbols.getD value '?' = symbols[value] := List.getD_eq_getElem _ _ h
  rw [hg, List.idxOf?_eq_some_iff]
  refine ⟨h, rfl, fun place hp he => ?_⟩
  have hi : place = value := hn.getElem_inj_iff.mp he
  omega

/-- Every symbol of the alphabet has one place, and there is a symbol for each group of bits. -/
structure Alphabet (width : Nat) (symbols : List Char) : Prop where
  positive : 0 < width
  le_eight : width ≤ 8
  length_eq : symbols.length = Nat.pow 2 width
  nodup : symbols.Nodup

section Symbols

variable {width : Nat} {symbols : List Char}

/-- What was written is read back. -/
theorem Alphabet.readGroups?_writeGroups (ha : Alphabet width symbols) (bytes : List UInt8) :
    readGroups? width symbols (writeGroups width symbols bytes) = some bytes := by
  have hv : (writeGroups width symbols bytes).mapM (fun symbol => symbols.idxOf? symbol) =
      some (groupValues width bytes) := by
    rw [writeGroups_eq]
    exact mapM_map_of_leftInverse fun value hm =>
      idxOf?_getD ha.nodup (ha.length_eq ▸ groupValues_lt ha.positive hm)
  have hb : bytesOfBits? width ((groupValues width bytes).flatMap (bits width)) = some bytes := by
    rw [flatMap_bits_groupValues ha.positive]
    exact bytesOfBits?_filled ha.le_eight (padding_lt ha.positive _) bytes
  rw [readGroups?, hv]
  exact hb

end Symbols

end LinkedSchema.Encoding
