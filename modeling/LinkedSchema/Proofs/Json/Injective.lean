import LinkedSchema.Proofs.Json.Tokens

namespace LinkedSchema.Json

mutual

/-- The tree as its text has it: a number that is not finite is null. -/
def written : Json Empty → Json Empty
  | .float x => if x.isFinite then .float x else .null
  | .list items => .list (writtenItems items)
  | .object entries _ => .ofEntries (writtenEntries entries)
  | .null => .null
  | .bool b => .bool b
  | .int n => .int n
  | .string s => .string s
  | .fault f => f.elim

def writtenItems : List (Json Empty) → List (Json Empty)
  | [] => []
  | item :: items => written item :: writtenItems items

def writtenEntries : List (String × Json Empty) → List (String × Json Empty)
  | [] => []
  | (key, value) :: entries => (key, written value) :: writtenEntries entries

end

section Forms

/-- What can be told from the first byte of a text. -/
inductive Form where
  | null
  | bool (b : Bool)
  | number
  | string
  | list
  | object
  deriving DecidableEq

def Form.ofByte? (byte : UInt8) : Option Form :=
  match symbol byte with
  | 'n' => some .null
  | 't' => some (.bool true)
  | 'f' => some (.bool false)
  | '"' => some .string
  | '[' => some .list
  | '\x7b' => some .object
  | c => if c = '-' || c.isDigit then some .number else none

theorem Form.ofByte?_number {byte : UInt8} (h : symbol byte = '-' ∨ isDigit byte = true) :
    ofByte? byte = some .number := by
  unfold isDigit at h
  unfold ofByte?
  split
  case h_7 => exact if_pos (by simpa using h)
  all_goals simp_all

def form : Json Empty → Form
  | .null => .null
  | .bool b => .bool b
  | .int _ => .number
  | .float x => if x.isFinite then .number else .null
  | .string _ => .string
  | .list _ => .list
  | .object _ _ => .object
  | .fault f => f.elim

variable {j : Json Empty}

theorem written_of_null (h : j.form = .null) :
    j.written = .null ∧ j.render = "null".toList := by
  cases j with
  | null => exact ⟨rfl, rfl⟩
  | float x =>
    by_cases hx : x.isFinite = true
    · simp [form, hx] at h
    · simp only [written, render, if_neg hx, and_self]
  | fault f => exact f.elim
  | _ => cases h

theorem eq_of_bool {b : Bool} (h : j.form = .bool b) : j = .bool b := by
  cases j with
  | bool =>
    cases h
    rfl
  | float x => by_cases hx : x.isFinite = true <;> simp [form, hx] at h
  | fault f => exact f.elim
  | _ => cases h

theorem exists_string (h : j.form = .string) : ∃ s, j = .string s := by
  cases j with
  | string s => exact ⟨s, rfl⟩
  | float x => by_cases hx : x.isFinite = true <;> simp [form, hx] at h
  | fault f => exact f.elim
  | _ => cases h

theorem exists_list (h : j.form = .list) : ∃ items, j = .list items := by
  cases j with
  | list items => exact ⟨items, rfl⟩
  | float x => by_cases hx : x.isFinite = true <;> simp [form, hx] at h
  | fault f => exact f.elim
  | _ => cases h

theorem exists_object (h : j.form = .object) : ∃ entries ending, j = .object entries ending := by
  cases j with
  | object entries ending => exact ⟨entries, ending, rfl⟩
  | float x => by_cases hx : x.isFinite = true <;> simp [form, hx] at h
  | fault f => exact f.elim
  | _ => cases h

/-- The tree of a number with all its digits, which tells integers of any size from other
numbers by the point or the exponent of the latter. -/
def NumberText.exact (n : NumberText) : Json Empty :=
  if n.fraction.isSome || n.exponent.isSome then
    (n.decimal.normalize.toBinary64?.map .float).getD .null
  else .int (if n.negative then -digitsValue n.whole else digitsValue n.whole)

theorem NumberText.exact_ofInt (k : Int) : (ofInt k).exact = .int k := by
  have hv : digitsValue (ofInt k).whole = k.natAbs := digitsValue_digits _
  have hn : ¬ ((ofInt k).fraction.isSome || (ofInt k).exponent.isSome) = true := by simp [ofInt]
  have hs : (ofInt k).negative = decide (k < 0) := rfl
  rw [exact, if_neg hn, hv, hs, Json.int.injEq]
  by_cases hk : k < 0
  · rw [if_pos (decide_eq_true hk)]
    omega
  · rw [if_neg (by simpa using hk)]
    omega

theorem NumberText.exact_ofChars {d : Decimal} {whole fraction : List Char} {exponent : Option Int}
    {x : Binary64} (h : Spells d whole fraction exponent) (hx : d.toBinary64? = some x) :
    (ofChars d.negative whole fraction exponent).exact = .float x := by
  rw [exact, if_pos, normalize_decimal_ofChars h, hx]
  · rfl
  · rcases h.float with hf | he
    · simp [ofChars, hf]
    · simp [ofChars, he]

theorem exists_number (h : j.form = .number) :
    ∃ n : NumberText, n.WellFormed ∧ encoded j.render = n.bytes ∧ n.exact = j.written := by
  cases j with
  | int k => exact ⟨.ofInt k, NumberText.wellFormed_ofInt k, NumberText.encoded_toString k,
      NumberText.exact_ofInt k⟩
  | float x =>
    by_cases hx : x.isFinite = true
    · obtain ⟨hn, hb⟩ := Binary64.shortest_spec hx
      obtain ⟨whole, fraction, exponent, hs⟩ := exists_spells hn
      refine ⟨_, NumberText.wellFormed_ofChars hs, ?_, ?_⟩
      · rw [render, if_pos hx]
        exact (NumberText.bytes_ofChars hs).symm
      · rw [written, if_pos hx]
        exact NumberText.exact_ofChars hs hb
    · simp [form, hx] at h
  | fault f => exact f.elim
  | _ => cases h

/-- The first byte of a text shows the form of the tree. -/
theorem ofByte?_form (j : Json Empty) :
    ∃ byte after, encoded j.render = byte :: after ∧ Form.ofByte? byte = some j.form := by
  cases hf : j.form with
  | null =>
    rw [(written_of_null hf).2]
    exact ⟨110, _, rfl, by decide⟩
  | bool b =>
    obtain rfl := eq_of_bool hf
    cases b with
    | true => exact ⟨116, _, rfl, by decide⟩
    | false => exact ⟨102, _, rfl, by decide⟩
  | number =>
    obtain ⟨n, hw, hb, _⟩ := exists_number hf
    obtain ⟨byte, after, hn, hfirst⟩ := hw.head_bytes
    exact ⟨byte, after, hb.trans hn, Form.ofByte?_number hfirst⟩
  | string =>
    obtain ⟨s, rfl⟩ := exists_string hf
    exact ⟨34, _, encoded_cons (by decide) _, by decide⟩
  | list =>
    obtain ⟨items, rfl⟩ := exists_list hf
    exact ⟨91, _, encoded_cons (by decide) _, by decide⟩
  | object =>
    obtain ⟨entries, ending, rfl⟩ := exists_object hf
    exact ⟨123, _, encoded_cons (by decide) _, by decide⟩

theorem form_eq_of_append {j other : Json Empty} {rest tail : List UInt8}
    (h : encoded j.render ++ rest = encoded other.render ++ tail) : other.form = j.form := by
  obtain ⟨byte, after, hb, hf⟩ := ofByte?_form j
  obtain ⟨first, later, hl, ho⟩ := ofByte?_form other
  rw [hb, hl, List.cons_append, List.cons_append] at h
  rw [(List.cons.inj h).1, ho] at hf
  exact Option.some.inj hf

end Forms

section Rows

variable {α β : Type} {f : α → List UInt8} {g : α → β} {close : UInt8} {rest tail : List UInt8}

/-- Texts with commas between them. -/
def row (f : α → List UInt8) : List α → List UInt8
  | [] => []
  | part :: parts => f part ++ parts.flatMap fun part => 44 :: f part

/-- Between the parts of a row and at its end a number stops. -/
theorem stops_later (hc : close = 93 ∨ close = 125) (parts : List α) (rest : List UInt8) :
    Stops ((parts.flatMap fun part => 44 :: f part) ++ close :: rest) := by
  cases parts with
  | nil => exact stops_cons (.inr hc) rest
  | cons part parts => exact stops_cons (.inl rfl) _

/-- The parts of a row are determined if each of them is, whatever stops it. -/
theorem later_append_inj (hc : close = 93 ∨ close = 125) {parts others : List α}
    (hd : ∀ part ∈ parts, ∀ ⦃other rest tail⦄, Stops rest → Stops tail →
      f part ++ rest = f other ++ tail → g part = g other ∧ rest = tail)
    (h : (parts.flatMap fun part => 44 :: f part) ++ close :: rest =
      (others.flatMap fun part => 44 :: f part) ++ close :: tail) :
    parts.map g = others.map g ∧ rest = tail := by
  have hne : (44 : UInt8) ≠ close := by
    rcases hc with rfl | rfl <;> decide
  induction parts generalizing others with
  | nil =>
    cases others with
    | nil => exact ⟨rfl, (List.cons.inj h).2⟩
    | cons other others => exact absurd (List.cons.inj h).1.symm hne
  | cons part parts ih =>
    cases others with
    | nil => exact absurd (List.cons.inj h).1 hne
    | cons other others =>
      rw [List.flatMap_cons, List.flatMap_cons, List.append_assoc, List.append_assoc] at h
      obtain ⟨hpart, h⟩ := hd part (List.mem_cons_self ..) (stops_later hc parts rest)
        (stops_later hc others tail) (List.cons.inj h).2
      obtain ⟨hparts, hrest⟩ := ih (fun part hp => hd part (List.mem_cons_of_mem _ hp)) h
      exact ⟨by rw [List.map_cons, List.map_cons, hpart, hparts], hrest⟩

theorem row_append_inj (hc : close = 93 ∨ close = 125) {parts others : List α}
    (hf : ∀ part rest tail, f part ++ rest ≠ close :: tail)
    (hd : ∀ part ∈ parts, ∀ ⦃other rest tail⦄, Stops rest → Stops tail →
      f part ++ rest = f other ++ tail → g part = g other ∧ rest = tail)
    (h : row f parts ++ close :: rest = row f others ++ close :: tail) :
    parts.map g = others.map g ∧ rest = tail := by
  cases parts with
  | nil =>
    cases others with
    | nil => exact ⟨rfl, (List.cons.inj h).2⟩
    | cons other others =>
      rw [row, row, List.append_assoc] at h
      exact absurd h.symm (hf other _ _)
  | cons part parts =>
    cases others with
    | nil =>
      rw [row, row, List.append_assoc] at h
      exact absurd h (hf part _ _)
    | cons other others =>
      rw [row, row] at h
      exact later_append_inj hc hd (congrArg (44 :: ·) h)

end Rows

section Parts

variable {rest tail : List UInt8}

theorem renderString_append_inj {s t : String}
    (h : encoded (renderString s) ++ rest = encoded (renderString t) ++ tail) :
    s = t ∧ rest = tail := by
  have hopen : ∀ s, encoded (renderString s) =
      34 :: encoded (s.toList.flatMap escapeChar ++ ['"']) := fun s => encoded_cons (by decide) _
  rw [hopen, hopen, List.cons_append, List.cons_append] at h
  have hr := congrArg (readString .plain [] none) (List.cons.inj h).2
  rw [readString_renderString, readString_renderString] at hr
  injection hr with hs hrest
  exact ⟨Except.ok.inj hs, hrest⟩

def entryBytes (entry : String × Json Empty) : List UInt8 :=
  encoded (renderString entry.1) ++ 58 :: encoded entry.2.render

theorem encoded_renderItems (items : List (Json Empty)) :
    encoded (renderItems items) = row (fun item => encoded item.render) items := by
  induction items with
  | nil => rfl
  | cons item items ih =>
    cases items with
    | nil => simp [renderItems, row]
    | cons other items =>
      rw [renderItems_cons, encoded_append, encoded_cons (by decide), ih]
      rfl

theorem encoded_renderEntries (entries : List (String × Json Empty)) :
    encoded (renderEntries entries) = row entryBytes entries := by
  have hentry : ∀ key value, encoded (renderString key ++ ':' :: render value) =
      entryBytes (key, value) := fun key value => by
    rw [encoded_append, encoded_cons (by decide)]
    rfl
  induction entries with
  | nil => rfl
  | cons entry entries ih =>
    obtain ⟨key, value⟩ := entry
    cases entries with
    | nil =>
      rw [renderEntries, hentry]
      simp [row]
    | cons other entries =>
      rw [renderEntries_cons, encoded_append, hentry, encoded_cons (by decide), ih]
      rfl

theorem encoded_render_list (items : List (Json Empty)) (rest : List UInt8) :
    encoded (render (.list items)) ++ rest =
      91 :: (row (fun item => encoded item.render) items ++ 93 :: rest) := by
  rw [render, List.cons_append, encoded_cons (by decide), encoded_append, encoded_renderItems,
    List.cons_append, List.append_assoc]
  rfl

theorem encoded_render_object (entries : List (String × Json Empty)) (ending : Option Empty)
    (rest : List UInt8) : encoded (render (.object entries ending)) ++ rest =
      123 :: (row entryBytes entries ++ 125 :: rest) := by
  rw [render, List.cons_append, encoded_cons (by decide), encoded_append, encoded_renderEntries,
    List.cons_append, List.append_assoc]
  rfl

theorem writtenItems_eq (items : List (Json Empty)) : writtenItems items = items.map written := by
  induction items with
  | nil => rfl
  | cons item items ih => rw [writtenItems, ih, List.map_cons]

theorem writtenEntries_eq (entries : List (String × Json Empty)) :
    writtenEntries entries = entries.map fun entry => (entry.1, entry.2.written) := by
  induction entries with
  | nil => rfl
  | cons entry entries ih => rw [writtenEntries, ih, List.map_cons]

end Parts

section Trees

/-- Whatever follows it where a number stops, the text shows the tree and where it ends. -/
def Determined (j : Json Empty) : Prop :=
  ∀ ⦃other : Json Empty⦄ ⦃rest tail : List UInt8⦄, Stops rest → Stops tail →
    encoded j.render ++ rest = encoded other.render ++ tail →
      j.written = other.written ∧ rest = tail

variable {j : Json Empty}

theorem determined_of_flat (hl : j.form ≠ .list) (ho : j.form ≠ .object) : Determined j := by
  intro other rest tail hr ht h
  have hform := form_eq_of_append h
  cases hf : j.form with
  | null =>
    obtain ⟨hj, hjr⟩ := written_of_null hf
    obtain ⟨hother, hotherr⟩ := written_of_null (hform.trans hf)
    rw [hjr, hotherr] at h
    exact ⟨hj.trans hother.symm, List.append_cancel_left h⟩
  | bool b =>
    obtain rfl := eq_of_bool hf
    obtain rfl := eq_of_bool (hform.trans hf)
    exact ⟨rfl, List.append_cancel_left h⟩
  | number =>
    obtain ⟨m, hm, hmb, hme⟩ := exists_number hf
    obtain ⟨n, hn, hnb, hne⟩ := exists_number (hform.trans hf)
    rw [hmb, hnb] at h
    have hread := congrArg readNumber h
    rw [NumberText.readNumber_bytes hm hr, NumberText.readNumber_bytes hn ht] at hread
    obtain ⟨rfl, hrest⟩ := Prod.mk.inj (Except.ok.inj hread)
    exact ⟨hme.symm.trans hne, hrest⟩
  | string =>
    obtain ⟨s, rfl⟩ := exists_string hf
    obtain ⟨t, rfl⟩ := exists_string (hform.trans hf)
    obtain ⟨rfl, hrest⟩ := renderString_append_inj h
    exact ⟨rfl, hrest⟩
  | list => exact absurd hf hl
  | object => exact absurd hf ho

theorem determined_list {items : List (Json Empty)} (hd : ∀ item ∈ items, Determined item) :
    Determined (.list items) := by
  intro other rest tail _ _ h
  obtain ⟨others, rfl⟩ := exists_list (form_eq_of_append h)
  rw [encoded_render_list, encoded_render_list] at h
  have hf : ∀ (item : Json Empty) rest tail, encoded item.render ++ rest ≠ 93 :: tail := by
    intro item rest tail he
    obtain ⟨byte, after, hb, hform⟩ := ofByte?_form item
    rw [hb, List.cons_append] at he
    rw [(List.cons.inj he).1] at hform
    cases hform
  obtain ⟨hitems, hrest⟩ := row_append_inj (.inl rfl) hf hd (List.cons.inj h).2
  exact ⟨by rw [written, written, writtenItems_eq, writtenItems_eq, hitems], hrest⟩

theorem determined_object {entries : List (String × Json Empty)} {ending : Option Empty}
    (hd : ∀ entry ∈ entries, Determined entry.2) : Determined (.object entries ending) := by
  intro other rest tail _ _ h
  obtain ⟨others, otherEnding, rfl⟩ := exists_object (form_eq_of_append h)
  rw [encoded_render_object, encoded_render_object] at h
  have hf : ∀ entry rest tail, entryBytes entry ++ rest ≠ 125 :: tail := by
    intro entry rest tail he
    rw [entryBytes, renderString, List.cons_append, encoded_cons (by decide)] at he
    exact absurd (List.cons.inj he).1 (by decide)
  have hentry : ∀ entry ∈ entries, ∀ ⦃other rest tail⦄, Stops rest → Stops tail →
      entryBytes entry ++ rest = entryBytes other ++ tail →
        (entry.1, entry.2.written) = (other.1, other.2.written) ∧ rest = tail := by
    intro entry he other rest tail hr ht h
    rw [entryBytes, entryBytes, List.append_assoc, List.append_assoc] at h
    obtain ⟨hkey, h⟩ := renderString_append_inj h
    obtain ⟨hvalue, hrest⟩ := hd entry he hr ht (List.cons.inj h).2
    exact ⟨Prod.ext hkey hvalue, hrest⟩
  obtain ⟨hentries, hrest⟩ := row_append_inj (.inr rfl) hf hentry (List.cons.inj h).2
  exact ⟨by rw [written, written, writtenEntries_eq, writtenEntries_eq, hentries], hrest⟩

mutual

theorem determined : (j : Json Empty) → Determined j
  | .list items => determined_list (determined_items items)
  | .object entries _ => determined_object (determined_entries entries)
  | .null => determined_of_flat nofun nofun
  | .bool _ => determined_of_flat nofun nofun
  | .int _ => determined_of_flat nofun nofun
  | .float x => by
    apply determined_of_flat <;> by_cases hx : x.isFinite = true <;> simp [form, hx]
  | .string _ => determined_of_flat nofun nofun
  | .fault f => f.elim

theorem determined_items : (items : List (Json Empty)) → ∀ item ∈ items, Determined item
  | [] => nofun
  | item :: items => List.forall_mem_cons.mpr ⟨determined item, determined_items items⟩

theorem determined_entries :
    (entries : List (String × Json Empty)) → ∀ entry ∈ entries, Determined entry.2
  | [] => nofun
  | (_, value) :: entries =>
    List.forall_mem_cons.mpr ⟨determined value, determined_entries entries⟩

end

mutual

theorem render_written : (j : Json Empty) → j.written.render = j.render
  | .float x => by
    by_cases hx : x.isFinite = true
    · rw [written, if_pos hx]
    · rw [written, if_neg hx, render, render, if_neg hx]
  | .list items => by rw [written, render, render, renderItems_written items]
  | .object entries _ => by rw [written, ofEntries, render, render, renderEntries_written entries]
  | .null => rfl
  | .bool _ => rfl
  | .int _ => rfl
  | .string _ => rfl
  | .fault f => f.elim

theorem renderItems_written :
    (items : List (Json Empty)) → renderItems (writtenItems items) = renderItems items
  | [] => rfl
  | [item] => by rw [writtenItems, writtenItems, renderItems, renderItems, render_written item]
  | item :: other :: items => by
    rw [renderItems_cons, ← render_written item, ← renderItems_written (other :: items),
      writtenItems, writtenItems, renderItems_cons]

theorem renderEntries_written : (entries : List (String × Json Empty)) →
    renderEntries (writtenEntries entries) = renderEntries entries
  | [] => rfl
  | [(key, value)] => by
    rw [writtenEntries, writtenEntries, renderEntries, renderEntries, render_written value]
  | (key, value) :: (other, found) :: entries => by
    rw [renderEntries_cons, ← render_written value,
      ← renderEntries_written ((other, found) :: entries), writtenEntries, writtenEntries,
      renderEntries_cons]

end

/-- Two trees have the same text just if they are the same tree once numbers that are not finite
have become null. -/
theorem text_eq_text_iff {j other : Json Empty} :
    j.text = other.text ↔ j.written = other.written := by
  constructor
  · intro h
    have hr : j.render = other.render := String.ofList_injective h
    exact (determined j stops_nil stops_nil (by rw [hr])).1
  · intro h
    rw [text, text, ← render_written j, ← render_written other, h]

end Trees

end LinkedSchema.Json
