import LinkedSchema.Proofs.Json.Floats
import LinkedSchema.Proofs.Json.Strings

namespace LinkedSchema.Json

/-- The bytes are cut into the given tokens. -/
def Lexes (bytes : List UInt8) (tokens : List Token) : Prop :=
  ∀ most, bytes.length ≤ most → tokensUpTo most bytes = tokens

theorem Lexes.tokens_eq {bytes : List UInt8} {later : List Token} (h : Lexes bytes later) :
    tokens bytes = later :=
  h _ (Nat.le_refl _)

theorem lexes_nil : Lexes [] [] := fun most _ => by
  cases most <;> rfl

theorem Lexes.cons {byte : UInt8} {after rest : List UInt8} {token : Token} {later : List Token}
    (h : Lexes rest later) (hb : isBlank byte = false)
    (ht : readToken byte after = (token, some rest)) (hl : rest.length ≤ after.length) :
    Lexes (byte :: after) (token :: later) := by
  intro most hm
  cases most with
  | zero => simp at hm
  | succ most =>
    have hd : (byte :: after).dropWhile isBlank = byte :: after := by simp [hb]
    rw [List.length_cons] at hm
    rw [tokensUpTo, hd]
    simp only [ht, h most (by omega)]

theorem Lexes.append {byte : UInt8} {front rest : List UInt8} {token : Token} {later : List Token}
    (h : Lexes rest later) (hb : isBlank byte = false)
    (ht : readToken byte (front ++ rest) = (token, some rest)) :
    Lexes (byte :: (front ++ rest)) (token :: later) :=
  h.cons hb ht (by simp)

section Tokens

variable {rest : List UInt8} {later : List Token}

theorem Lexes.openList (h : Lexes rest later) : Lexes (91 :: rest) (.openList :: later) :=
  h.cons (by decide) rfl (Nat.le_refl _)

theorem Lexes.closeList (h : Lexes rest later) : Lexes (93 :: rest) (.closeList :: later) :=
  h.cons (by decide) rfl (Nat.le_refl _)

theorem Lexes.openObject (h : Lexes rest later) : Lexes (123 :: rest) (.openObject :: later) :=
  h.cons (by decide) rfl (Nat.le_refl _)

theorem Lexes.closeObject (h : Lexes rest later) : Lexes (125 :: rest) (.closeObject :: later) :=
  h.cons (by decide) rfl (Nat.le_refl _)

theorem Lexes.comma (h : Lexes rest later) : Lexes (44 :: rest) (.comma :: later) :=
  h.cons (by decide) rfl (Nat.le_refl _)

theorem Lexes.colon (h : Lexes rest later) : Lexes (58 :: rest) (.colon :: later) :=
  h.cons (by decide) rfl (Nat.le_refl _)

theorem Lexes.null (h : Lexes rest later) :
    Lexes (encoded "null".toList ++ rest) (.null :: later) := by
  have hr : readToken 110 (encoded "ull".toList ++ rest) = (.null, some rest) := rfl
  exact h.append (by decide) hr

theorem Lexes.bool (h : Lexes rest later) (b : Bool) :
    Lexes (encoded (if b then "true" else "false").toList ++ rest) (.bool b :: later) := by
  cases b with
  | true =>
    have hr : readToken 116 (encoded "rue".toList ++ rest) = (.bool true, some rest) := rfl
    exact h.append (by decide) hr
  | false =>
    have hr : readToken 102 (encoded "alse".toList ++ rest) = (.bool false, some rest) := rfl
    exact h.append (by decide) hr

theorem Lexes.string (h : Lexes rest later) (s : String) :
    Lexes (encoded (renderString s) ++ rest) (.string (.ok s) :: later) := by
  have hs := readString_renderString s rest
  have he : encoded (renderString s) = 34 :: encoded (s.toList.flatMap escapeChar ++ ['"']) :=
    encoded_cons (by decide) _
  rw [he, List.cons_append]
  refine h.append (by decide) ?_
  have hq : symbol 34 = '"' := by decide
  simp only [readToken, hq, hs]

/-- The first byte of a number is not that of another token. -/
theorem readToken_eq_number {byte : UInt8} (h : symbol byte = '-' ∨ isDigit byte = true)
    (after : List UInt8) :
    readToken byte after = match readNumber (byte :: after) with
      | .ok (number, rest) => (number.token, some rest)
      | .error cause => (.broken cause, none) := by
  unfold isDigit at h
  unfold readToken
  split
  case h_11 => exact if_pos (by simpa using h)
  all_goals simp_all

theorem isBlank_eq_false {byte : UInt8} (h : symbol byte = '-' ∨ isDigit byte = true) :
    isBlank byte = false := by
  unfold isDigit at h
  unfold isBlank
  split <;> simp_all

theorem NumberText.WellFormed.head_bytes {n : NumberText} (h : n.WellFormed) :
    ∃ byte after, n.bytes = byte :: after ∧ (symbol byte = '-' ∨ isDigit byte = true) := by
  obtain ⟨negative, whole, fraction, exponent⟩ := n
  cases negative with
  | true => exact ⟨45, _, rfl, .inl (by decide)⟩
  | false =>
    cases whole with
    | nil => exact absurd rfl h.whole.ne_nil
    | cons byte others =>
      exact ⟨byte, _, rfl, .inr (h.whole.isDigit byte (List.mem_cons_self ..))⟩

theorem Lexes.number {n : NumberText} (hn : n.WellFormed) (hr : Stops rest) (h : Lexes rest later) :
    Lexes (n.bytes ++ rest) (n.token :: later) := by
  have hread := NumberText.readNumber_bytes hn hr
  obtain ⟨byte, after, hb, hfirst⟩ := hn.head_bytes
  rw [hb, List.cons_append] at hread ⊢
  refine h.append (isBlank_eq_false hfirst) ?_
  rw [readToken_eq_number hfirst, hread]

end Tokens

section Trees

mutual

/-- The tokens of a tree. A number that is not finite is written as null. -/
def treeTokens : Json Empty → List Token
  | .null => [.null]
  | .bool b => [.bool b]
  | .int n => [(NumberText.ofInt n).token]
  | .float x => [if x.isFinite then .float x else .null]
  | .string s => [.string (.ok s)]
  | .list items => .openList :: itemTokens items ++ [.closeList]
  | .object entries _ => .openObject :: entryTokens entries ++ [.closeObject]
  | .fault f => f.elim

def itemTokens : List (Json Empty) → List Token
  | [] => []
  | [item] => treeTokens item
  | item :: items => treeTokens item ++ .comma :: itemTokens items

def entryTokens : List (String × Json Empty) → List Token
  | [] => []
  | [(key, value)] => .string (.ok key) :: .colon :: treeTokens value
  | (key, value) :: entries =>
    .string (.ok key) :: .colon :: treeTokens value ++ .comma :: entryTokens entries

end

theorem renderItems_cons (item other : Json Empty) (items : List (Json Empty)) :
    renderItems (item :: other :: items) = item.render ++ ',' :: renderItems (other :: items) := by
  rw [renderItems]
  nofun

theorem itemTokens_cons (item other : Json Empty) (items : List (Json Empty)) :
    itemTokens (item :: other :: items) =
      treeTokens item ++ .comma :: itemTokens (other :: items) := by
  rw [itemTokens]
  nofun

theorem renderEntries_cons (key : String) (value : Json Empty) (other : String × Json Empty)
    (entries : List (String × Json Empty)) :
    renderEntries ((key, value) :: other :: entries) =
      renderString key ++ ':' :: value.render ++ ',' :: renderEntries (other :: entries) := by
  rw [renderEntries]
  nofun

theorem entryTokens_cons (key : String) (value : Json Empty) (other : String × Json Empty)
    (entries : List (String × Json Empty)) :
    entryTokens ((key, value) :: other :: entries) =
      .string (.ok key) :: .colon :: treeTokens value ++
        .comma :: entryTokens (other :: entries) := by
  rw [entryTokens]
  nofun

theorem stops_nil : Stops [] := nofun

theorem stops_cons {byte : UInt8} (h : byte = 44 ∨ byte = 93 ∨ byte = 125) (rest : List UInt8) :
    Stops (byte :: rest) := by
  intro first hf
  obtain rfl := Option.some.inj hf
  rcases h with rfl | rfl | rfl <;> decide

mutual

theorem lexes_render : (j : Json Empty) → {rest : List UInt8} → {later : List Token} →
    Stops rest → Lexes rest later → Lexes (encoded j.render ++ rest) (treeTokens j ++ later)
  | .null, _, _, _, h => h.null
  | .bool true, _, _, _, h => h.bool true
  | .bool false, _, _, _, h => h.bool false
  | .int n, rest, later, hr, h => by
    have hl := h.number (NumberText.wellFormed_ofInt n) hr
    rwa [← NumberText.encoded_toString] at hl
  | .float x, rest, later, hr, h => by
    by_cases hf : x.isFinite = true
    · obtain ⟨hn, hx⟩ := Binary64.shortest_spec hf
      obtain ⟨whole, fraction, exponent, hs⟩ := exists_spells hn
      have hl := h.number (NumberText.wellFormed_ofChars hs) hr
      rw [NumberText.token_ofChars hs hx, NumberText.bytes_ofChars hs] at hl
      rw [render, treeTokens, if_pos hf, if_pos hf]
      exact hl
    · rw [render, treeTokens, if_neg hf, if_neg hf]
      exact h.null
  | .string s, _, _, _, h => h.string s
  | .list items, rest, later, _, h => by
    have hl := (lexes_renderItems items h.closeList).openList
    have he : encoded (render (.list items)) = 91 :: (encoded (renderItems items) ++ [93]) := by
      rw [render, List.cons_append, encoded_cons (by decide), encoded_append]
      rfl
    rw [he, treeTokens]
    simpa using hl
  | .object entries ending, rest, later, _, h => by
    have hl := (lexes_renderEntries entries h.closeObject).openObject
    have he : encoded (render (.object entries ending)) =
        123 :: (encoded (renderEntries entries) ++ [125]) := by
      rw [render, List.cons_append, encoded_cons (by decide), encoded_append]
      rfl
    rw [he, treeTokens]
    simpa using hl
  | .fault f, _, _, _, _ => f.elim

theorem lexes_renderItems : (items : List (Json Empty)) → {rest : List UInt8} →
    {later : List Token} → Lexes (93 :: rest) later →
      Lexes (encoded (renderItems items) ++ 93 :: rest) (itemTokens items ++ later)
  | [], _, _, h => h
  | [item], rest, _, h => lexes_render item (stops_cons (by decide) rest) h
  | item :: other :: items, rest, later, h => by
    have hl := (lexes_renderItems (other :: items) h).comma
    have hf := lexes_render item (stops_cons (by decide) _) hl
    have he : encoded (renderItems (item :: other :: items)) =
        encoded item.render ++ 44 :: encoded (renderItems (other :: items)) := by
      rw [renderItems_cons, encoded_append, encoded_cons (by decide)]
      rfl
    rw [he, itemTokens_cons]
    simpa using hf

theorem lexes_renderEntries : (entries : List (String × Json Empty)) →
    {rest : List UInt8} → {later : List Token} → Lexes (125 :: rest) later →
      Lexes (encoded (renderEntries entries) ++ 125 :: rest) (entryTokens entries ++ later)
  | [], _, _, h => h
  | [(key, value)], rest, later, h => by
    have hl := (lexes_render value (stops_cons (by decide) rest) h).colon.string key
    have he : encoded (renderEntries [(key, value)]) =
        encoded (renderString key) ++ 58 :: encoded value.render := by
      rw [renderEntries, encoded_append, encoded_cons (by decide)]
      rfl
    rw [he, entryTokens]
    simpa using hl
  | (key, value) :: other :: entries, rest, later, h => by
    have hl := (lexes_renderEntries (other :: entries) h).comma
    have hf := (lexes_render value (stops_cons (by decide) _) hl).colon.string key
    have he : encoded (renderEntries ((key, value) :: other :: entries)) =
        encoded (renderString key) ++ 58 :: (encoded value.render ++
          44 :: encoded (renderEntries (other :: entries))) := by
      rw [renderEntries_cons, List.append_assoc, encoded_append, List.cons_append,
        encoded_cons (by decide), encoded_append, encoded_cons (by decide)]
      rfl
    rw [he, entryTokens_cons]
    simpa using hf

end

end Trees

end LinkedSchema.Json
