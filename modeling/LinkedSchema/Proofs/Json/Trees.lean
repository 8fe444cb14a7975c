import LinkedSchema.Json.Reading
import LinkedSchema.Proofs.Json.Tokens

namespace LinkedSchema.Json

/-- What an integer is read as: a floating-point number or a fault if it has more than 64 bits. -/
def readBackInt (n : Int) : Json JsonFault :=
  (NumberText.ofInt n).token.scalar?.getD .null

theorem scalar?_token_ofInt (n : Int) :
    (NumberText.ofInt n).token.scalar? = some (readBackInt n) := by
  obtain ⟨value, hv⟩ := Option.isSome_iff_exists.mp (NumberText.isSome_scalar?_token (.ofInt n))
  rw [readBackInt, hv, Option.getD_some]

theorem readBackInt_of_fits {n : Int} (h : IntFits n) : readBackInt n = .int n := by
  rw [readBackInt, NumberText.token_ofInt h]
  rfl

theorem readBackInt_of_not_fits {n : Int} (h : ¬ IntFits n) :
    (∃ x, readBackInt n = .float x) ∨ readBackInt n = .fault .numberOutOfRange := by
  rw [readBackInt, NumberText.token, NumberText.integer?_ofInt, if_neg h]
  cases (NumberText.ofInt n).decimal.normalize.toBinary64? with
  | some x => exact .inl ⟨x, rfl⟩
  | none => exact .inr rfl

mutual

/-- The tree as it is read when the given number of lists and objects may lie within one another. -/
def readBack (room : Nat) : Json Empty → Json JsonFault
  | .null => .null
  | .bool b => .bool b
  | .int n => readBackInt n
  | .float x => if x.isFinite then .float x else .null
  | .string s => .string s
  | .list items => if room = 0 then .fault .tooDeep else .list (readBackItems (room - 1) items)
  | .object entries _ =>
    if room = 0 then .fault .tooDeep else .ofEntries (readBackEntries (room - 1) entries)
  | .fault f => f.elim

def readBackItems (room : Nat) : List (Json Empty) → List (Json JsonFault)
  | [] => []
  | item :: items => readBack room item :: readBackItems room items

def readBackEntries (room : Nat) : List (String × Json Empty) → List (String × Json JsonFault)
  | [] => []
  | (key, value) :: entries => (key, readBack room value) :: readBackEntries room entries

end

section Steps

variable {limit : Nat} {frames outer : List Frame} {rest : List Token}

theorem readValue_scalar {token : Token} {value : Json JsonFault} (h : token.scalar? = some value) :
    readValue limit frames (token :: rest) = readAfter limit value frames rest := by
  cases token <;> simp_all [readValue, Token.scalar?]

theorem readFirstItem_eq {token : Token} (h : token ≠ .closeList) :
    readFirstItem limit outer (token :: rest) =
      readValue limit (.list [] :: outer) (token :: rest) := by
  cases token <;> simp_all [readFirstItem, readValue]

theorem readNextItem_eq {token : Token} (h : token ≠ .closeList) :
    readNextItem limit frames (token :: rest) = readValue limit frames (token :: rest) := by
  cases token <;> simp_all [readNextItem, readValue]

theorem readFirstKey_eq (key : Except JsonFault String) :
    readFirstKey limit outer (.string key :: rest) =
      readNextKey limit [] none outer (.string key :: rest) := by
  rw [readFirstKey, readNextKey]

theorem treeTokens_head (j : Json Empty) :
    ∃ token later, treeTokens j = token :: later ∧ token ≠ .closeList := by
  cases j with
  | float x => exact ⟨_, _, rfl, by cases x.isFinite <;> simp⟩
  | int n =>
    refine ⟨_, _, rfl, fun h => ?_⟩
    have hs := scalar?_token_ofInt n
    rw [h] at hs
    cases hs
  | fault f => exact f.elim
  | _ => exact ⟨_, _, rfl, by simp⟩

theorem itemTokens_head (item : Json Empty) (items : List (Json Empty)) :
    ∃ token later, itemTokens (item :: items) = token :: later ∧ token ≠ .closeList := by
  obtain ⟨token, later, ht, hne⟩ := treeTokens_head item
  cases items with
  | nil => exact ⟨token, later, by rw [itemTokens, ht], hne⟩
  | cons other items => exact ⟨token, _, by rw [itemTokens_cons, ht, List.cons_append], hne⟩

theorem entryTokens_head (entry : String × Json Empty) (entries : List (String × Json Empty)) :
    ∃ later, entryTokens (entry :: entries) = .string (.ok entry.1) :: later := by
  cases entries with
  | nil => exact ⟨_, rfl⟩
  | cons other entries => exact ⟨_, entryTokens_cons entry.1 entry.2 other entries⟩

/-- A tree with the given room, as one more item of a list or value of an object is finished. -/
theorem sealed_eq (limit : Nat) (outer : List Frame) (value : Json JsonFault) :
    sealed limit outer value =
      if limit - outer.length = 0 then .fault .tooDeep else value := by
  unfold sealed
  split <;> split <;> first | rfl | omega

end Steps

mutual

/-- A tree is read up to its last token, and reading goes on after it. -/
theorem readValue_treeTokens (limit : Nat) : (j : Json Empty) → (frames : List Frame) →
    (rest : List Token) → readValue limit frames (treeTokens j ++ rest) =
      readAfter limit (readBack (limit - frames.length) j) frames rest
  | .null, _, _ => readValue_scalar rfl
  | .bool _, _, _ => readValue_scalar rfl
  | .int n, _, _ => readValue_scalar (scalar?_token_ofInt n)
  | .float x, _, _ => by
    rw [readBack, treeTokens]
    cases x.isFinite <;> exact readValue_scalar rfl
  | .string _, _, _ => readValue_scalar rfl
  | .list [], frames, rest => by
    rw [readBack, readBackItems, ← sealed_eq]
    rfl
  | .list (item :: items), frames, rest => by
    have hl := readValue_itemTokens limit (item :: items) (List.cons_ne_nil _ _) [] frames rest
    have he : treeTokens (.list (item :: items)) ++ rest =
        .openList :: (itemTokens (item :: items) ++ .closeList :: rest) := by
      simp [treeTokens]
    obtain ⟨token, later, ht, hne⟩ := itemTokens_head item items
    rw [ht, List.cons_append] at hl
    rw [he, readValue, ht, List.cons_append, readFirstItem_eq hne, hl, readBack, ← sealed_eq]
    rfl
  | .object [] _, frames, rest => by
    rw [readBack, readBackEntries, ← sealed_eq]
    rfl
  | .object (entry :: entries) ending, frames, rest => by
    have hl :=
      readNextKey_entryTokens limit (entry :: entries) (List.cons_ne_nil _ _) [] frames rest
    have he : treeTokens (.object (entry :: entries) ending) ++ rest =
        .openObject :: (entryTokens (entry :: entries) ++ .closeObject :: rest) := by
      simp [treeTokens]
    obtain ⟨later, ht⟩ := entryTokens_head entry entries
    rw [ht, List.cons_append] at hl
    rw [he, readValue, ht, List.cons_append, readFirstKey_eq, hl, readBack, ← sealed_eq,
      sealedObject, List.append_nil, List.reverse_reverse]
    rfl
  | .fault f, _, _ => f.elim

/-- The items of a list are read after those before them, and the list is closed. -/
theorem readValue_itemTokens (limit : Nat) : (items : List (Json Empty)) → items ≠ [] →
    (before : List (Json JsonFault)) → (outer : List Frame) → (rest : List Token) →
      readValue limit (.list before :: outer) (itemTokens items ++ .closeList :: rest) =
        readAfter limit (sealed limit outer (.list (before.reverse ++
          readBackItems (limit - outer.length - 1) items))) outer rest
  | [], h, _, _, _ => absurd rfl h
  | [item], _, before, outer, rest => by
    have hv := readValue_treeTokens limit item (.list before :: outer) (.closeList :: rest)
    rw [itemTokens, hv, List.length_cons, Nat.sub_add_eq, readAfter, List.reverse_cons]
    rfl
  | item :: other :: items, _, before, outer, rest => by
    have hv := readValue_treeTokens limit item (.list before :: outer)
      (.comma :: (itemTokens (other :: items) ++ .closeList :: rest))
    have hl := readValue_itemTokens limit (other :: items) (List.cons_ne_nil _ _)
      (readBack (limit - outer.length - 1) item :: before) outer rest
    obtain ⟨token, later, ht, hne⟩ := itemTokens_head other items
    rw [ht, List.cons_append] at hl hv
    rw [itemTokens_cons, List.append_assoc, List.cons_append, ht, List.cons_append, hv, readAfter,
      readNextItem_eq hne, List.length_cons, Nat.sub_add_eq, hl, List.reverse_cons,
      List.append_assoc]
    rfl

/-- The entries of an object are read after those before them, and the object is closed. -/
theorem readNextKey_entryTokens (limit : Nat) : (entries : List (String × Json Empty)) →
    entries ≠ [] → (before : List (String × Json JsonFault)) → (outer : List Frame) →
      (rest : List Token) →
        readNextKey limit before none outer (entryTokens entries ++ .closeObject :: rest) =
          readAfter limit (sealedObject limit outer ((readBackEntries (limit - outer.length - 1)
            entries).reverse ++ before) none) outer rest
  | [], h, _, _, _ => absurd rfl h
  | [(key, value)], _, before, outer, rest => by
    have hv := readValue_treeTokens limit value (.object before none key :: outer)
      (.closeObject :: rest)
    have he : entryTokens [(key, value)] ++ .closeObject :: rest =
        .string (.ok key) :: .colon :: (treeTokens value ++ .closeObject :: rest) := rfl
    rw [he, readNextKey, readColon]
    change readValue limit (.object before none key :: outer) _ = _
    rw [hv, List.length_cons, Nat.sub_add_eq, readAfter]
    rfl
  | (key, value) :: other :: entries, _, before, outer, rest => by
    have hv := readValue_treeTokens limit value (.object before none key :: outer)
      (.comma :: (entryTokens (other :: entries) ++ .closeObject :: rest))
    have hl := readNextKey_entryTokens limit (other :: entries) (List.cons_ne_nil _ _)
      ((key, readBack (limit - outer.length - 1) value) :: before) outer rest
    have he : entryTokens ((key, value) :: other :: entries) ++ .closeObject :: rest =
        .string (.ok key) :: .colon :: (treeTokens value ++
          .comma :: (entryTokens (other :: entries) ++ .closeObject :: rest)) := by
      simp [entryTokens_cons]
    rw [he, readNextKey, readColon]
    change readValue limit (.object before none key :: outer) _ = _
    rw [hv, List.length_cons, Nat.sub_add_eq, readAfter]
    simp only [addEntry, Option.isSome_none, Bool.false_eq_true, ↓reduceIte]
    have hr : readBackEntries (limit - outer.length - 1) ((key, value) :: other :: entries) =
        (key, readBack (limit - outer.length - 1) value) ::
          readBackEntries (limit - outer.length - 1) (other :: entries) := rfl
    rw [hl, hr, List.reverse_cons, List.append_assoc]
    rfl

end

/-- The text of a tree is read as the tree, to its end. -/
theorem readUpTo_text (limit : Nat) (j : Json Empty) :
    readUpTo limit (Text.utf8 j.text) = ⟨readBack limit j, none⟩ := by
  have ht : tokens (Text.utf8 j.text) = treeTokens j := by
    have hl := (lexes_render j stops_nil lexes_nil).tokens_eq
    rw [List.append_nil, List.append_nil] at hl
    rw [text, Text.utf8_ofList]
    exact hl
  have hv := readValue_treeTokens limit j [] []
  rw [List.append_nil] at hv
  rw [readUpTo, ht, hv]
  rfl

end LinkedSchema.Json
