import LinkedSchema.Proofs.Json.Merging

namespace LinkedSchema

/-- Two outcomes do not differ where both are there, and on a condition the first is there with the
second. -/
structure Concur {ε ε' α : Type} (apart : Prop) (direct : Except ε α) (careful : Except ε' α) :
    Prop where
  same {a b : α} : direct = .ok a → careful = .ok b → a = b
  accepts {a : α} : apart → careful = .ok a → direct = .ok a

namespace Concur

variable {ε ε' α β γ δ : Type} {apart other : Prop} {direct : Except ε α} {careful : Except ε' α}

theorem ok (a : α) : Concur apart (.ok a : Except ε α) (.ok a : Except ε' α) :=
  ⟨fun hd hc => (Except.ok.inj hd).symm.trans (Except.ok.inj hc),
    fun _ hc => congrArg Except.ok (Except.ok.inj hc)⟩

theorem of_refused (h : ∀ a, careful ≠ .ok a) : Concur apart direct careful :=
  ⟨fun _ h' => absurd h' (h _), fun _ h' => absurd h' (h _)⟩

theorem refused (error : ε') : Concur apart direct (.error error) :=
  of_refused fun _ h => by cases h

theorem of_not (hd : ∀ a, direct ≠ .ok a) (h : ¬ apart) : Concur apart direct careful :=
  ⟨fun h' => absurd h' (hd _), fun h' => absurd h' h⟩

theorem mono (h : Concur other direct careful) (hi : apart → other) :
    Concur apart direct careful :=
  ⟨h.same, fun ha => h.accepts (hi ha)⟩

theorem bind {f : α → Except ε β} {g : α → Except ε' β} (h : Concur apart direct careful)
    (hf : ∀ a, Concur apart (f a) (g a)) : Concur apart (direct >>= f) (careful >>= g) := by
  constructor
  · intro b c hd hc
    obtain ⟨a, ha, hd⟩ := Outcome.bind_eq_ok.mp hd
    obtain ⟨a', ha', hc⟩ := Outcome.bind_eq_ok.mp hc
    cases h.same ha ha'
    exact (hf a).same hd hc
  · intro b hp hc
    obtain ⟨a, ha, hc⟩ := Outcome.bind_eq_ok.mp hc
    exact Outcome.bind_eq_ok.mpr ⟨a, h.accepts hp ha, (hf a).accepts hp hc⟩

theorem map (f : α → β) (h : Concur apart direct careful) :
    Concur apart (f <$> direct) (f <$> careful) :=
  (h.bind fun a => .ok (f a) : Concur apart (direct >>= fun a => .ok (f a)) _)

theorem mapError {η η' : Type} (f : ε → η) (g : ε' → η') (h : Concur apart direct careful) :
    Concur apart (direct.mapError f) (careful.mapError g) :=
  ⟨fun hd hc => h.same (Outcome.mapError_eq_ok.mp hd) (Outcome.mapError_eq_ok.mp hc),
    fun ha hc => Outcome.mapError_eq_ok.mpr (h.accepts ha (Outcome.mapError_eq_ok.mp hc))⟩

theorem mapM {f : γ → Except ε α} {g : δ → Except ε' α} {items : List γ} {others : List δ}
    (h : List.Forall₂ (fun item other => Concur apart (f item) (g other)) items others) :
    Concur apart (items.mapM f) (others.mapM g) := by
  induction h with
  | nil => exact .ok []
  | cons hfirst _ ih =>
    rw [List.mapM_cons, List.mapM_cons]
    exact hfirst.bind fun a => ih.bind fun rest => .ok (a :: rest)

end Concur

namespace Json

variable {Fault α β : Type}

namespace Shape

/-- The two shapes agree on every tree that can be cleaned. -/
structure Agrees (direct : Shape Fault α) (careful : Shape Empty α) : Prop where
  concur {j : Json Fault} {tree : Json Empty} : j.clean = .ok tree →
    Concur (j.keysApart = true) (direct j) (careful tree)

/-- The two shapes concur on trees of every form, whose parts can be cleaned; where nothing is said
of a form, the careful one refuses it. -/
structure Forms (direct : Shape Fault α) (careful : Shape Empty α) : Prop where
  null : Concur True (direct .null) (careful .null) := by exact .refused _
  bool (b : Bool) : Concur True (direct (.bool b)) (careful (.bool b)) := by
    intros
    exact .refused _
  int (n : Int) : Concur True (direct (.int n)) (careful (.int n)) := by
    intros
    exact .refused _
  float (x : Binary64) : Concur True (direct (.float x)) (careful (.float x)) := by
    intros
    exact .refused _
  string (s : String) : Concur True (direct (.string s)) (careful (.string s)) := by
    intros
    exact .refused _
  list {items : List (Json Fault)} {cleaned : List (Json Empty)}
    (h : List.Forall₂ (fun item tree => item.clean = .ok tree) items cleaned) :
    Concur (∀ item ∈ items, item.keysApart = true) (direct (.list items))
      (careful (.list cleaned)) := by
    intros
    exact .refused _
  object {entries : List (String × Json Fault)} {cleaned : List (String × Json Empty)}
    (h : List.Forall₂ (Keyed fun value tree => value.clean = .ok tree) entries cleaned) :
    Concur ((entries.map Prod.fst).Nodup ∧ ∀ entry ∈ entries, entry.2.keysApart = true)
      (direct (.object entries none)) (careful (.object (Table.ofList cleaned).entries none)) := by
    intros
    exact .refused _

section Combinators

variable {direct : Shape Fault α} {careful : Shape Empty α}

theorem Forms.agrees (h : Forms direct careful) : Agrees direct careful := by
  refine ⟨fun {j tree} hj => ?_⟩
  cases j with
  | list items =>
    obtain ⟨cleaned, hc, rfl⟩ := clean_list_eq_ok.mp hj
    exact (h.list hc).mono keysApartItems_iff.mp
  | object entries ending =>
    obtain ⟨rfl, cleaned, hc, rfl⟩ := clean_object_eq_ok.mp hj
    exact (h.object hc).mono keysApart_object.mp
  | fault f => cases hj
  | null =>
    cases hj
    exact h.null.mono fun _ => trivial
  | bool b =>
    cases hj
    exact (h.bool b).mono fun _ => trivial
  | int n =>
    cases hj
    exact (h.int n).mono fun _ => trivial
  | float x =>
    cases hj
    exact (h.float x).mono fun _ => trivial
  | string s =>
    cases hj
    exact (h.string s).mono fun _ => trivial

theorem agrees_string : Agrees (string : Shape Fault String) string :=
  Forms.agrees { string := fun s => .ok s }

theorem agrees_bool : Agrees (bool : Shape Fault Bool) bool :=
  Forms.agrees { bool := fun b => .ok b }

theorem agrees_int64 : Agrees (int64 : Shape Fault Int64) int64 := by
  refine Forms.agrees { int := fun n => ?_ }
  simp only [int64]
  split
  · exact .ok _
  · exact .refused _

theorem agrees_anything : Agrees (anything : Shape Fault (Json Empty)) anything := by
  refine ⟨fun {j tree} hj => ?_⟩
  rw [anything_of_keysApart (keysApart_of_clean hj)]
  simp only [anything, hj]
  exact .ok tree

theorem Agrees.map (f : α → β) (h : Agrees direct careful) :
    Agrees (fun j => f <$> direct j) fun j => f <$> careful j :=
  ⟨fun hj => (h.concur hj).map f⟩

theorem optional_eq_map {shape : Shape Fault α} {j : Json Fault} (h : j ≠ .null) :
    optional shape j = some <$> shape j := by
  cases j with
  | null => exact absurd rfl h
  | _ => rfl

theorem Agrees.optional (h : Agrees direct careful) : Agrees direct.optional careful.optional := by
  refine ⟨fun {j tree} hj => ?_⟩
  by_cases hn : j = .null
  · subst hn
    cases hj
    exact .ok none
  · have ht : tree ≠ .null := fun ht => hn (clean_eq_null.mp (ht ▸ hj))
    rw [optional_eq_map hn, optional_eq_map ht]
    exact (h.concur hj).map some

theorem Agrees.listOf (h : Agrees direct careful) :
    Agrees (listOf direct) (listOf careful) := by
  refine Forms.agrees { list := fun hc => ?_ }
  refine Concur.mapM (forall₂_imp_of_mem hc fun item hm tree ht => ?_)
  exact (h.concur ht).mono fun hk => hk item hm

theorem tableOf_object_eq_ok {shape : Shape Fault α} {entries : List (String × Json Fault)}
    {t : Table α} :
    tableOf shape (.object entries none) = .ok t ↔
      ∃ results, List.Forall₂ (Keyed fun value a => shape value = .ok a) entries results ∧
        Table.ofList results = t := by
  have hstep : ∀ (entry : String × Json Fault) (result : String × α),
      (entry.1, ·) <$> shape entry.2 = .ok result ↔
        Keyed (fun value a => shape value = .ok a) entry result := by
    rintro ⟨key, value⟩ ⟨key', a⟩
    cases hf : shape value <;> simp [Keyed, hf]
  have hmap := Outcome.map_eq_ok (f := Table.ofList) (b := t)
    (x := entries.mapM fun entry => (entry.1, ·) <$> shape entry.2)
  simp only [Outcome.mapM_eq_ok, hstep] at hmap
  exact hmap

/-- Where keys are apart, the entries of the table are those of the object. -/
theorem tableOf_of_nodup {shape : Shape Fault α} {entries : List (String × Json Fault)}
    {t : Table α} (hn : (entries.map Prod.fst).Nodup) :
    tableOf shape (.object entries none) = .ok t ↔
      List.Forall₂ (Keyed fun value a => shape value = .ok a) entries t.entries := by
  rw [tableOf_object_eq_ok]
  constructor
  · rintro ⟨results, hr, rfl⟩
    rw [Table.entries_ofList (Keyed.keys_eq hr ▸ hn)]
    exact hr
  · exact fun h => ⟨t.entries, h, Table.ext_entries (Table.entries_ofList t.nodup)⟩

/-- Of a repeated key the direct way takes the last value, as cleaning does. -/
theorem Agrees.tableOf (h : Agrees direct careful) :
    Agrees (tableOf direct) (tableOf careful) := by
  refine Forms.agrees { object := fun {entries cleaned} hc => ?_ }
  constructor
  · intro t u hd hu
    obtain ⟨results, hresults, rfl⟩ := tableOf_object_eq_ok.mp hd
    have hu := (tableOf_of_nodup (Table.ofList cleaned).nodup).mp hu
    have hmade : List.Forall₂ (Keyed fun a tree => ∀ b, careful tree = .ok b → a = b)
        results cleaned := by
      refine (forall₂_comp (List.Forall₂.flip hresults) hc).imp fun result other he => ?_
      obtain ⟨entry, ⟨hkey, ha⟩, hkey', ht⟩ := he
      exact ⟨hkey.symm.trans hkey', fun b hb => (h.concur ht).same ha hb⟩
    have hsame : List.Forall₂ (· = ·) (Table.ofList results).entries u.entries := by
      refine (forall₂_comp (Table.forall₂_ofList hmade) hu).imp fun result other he => ?_
      obtain ⟨entry, ⟨hkey, ha⟩, hkey', hb⟩ := he
      exact Prod.ext (hkey.trans hkey') (ha _ hb)
    exact Table.ext_entries (List.forall₂_eq_eq_eq ▸ hsame)
  · intro u hk hu
    obtain ⟨hn, hk⟩ := hk
    have hu := (tableOf_of_nodup (Table.ofList cleaned).nodup).mp hu
    rw [Table.entries_ofList (Keyed.keys_eq hc ▸ hn)] at hu
    have hparts : List.Forall₂ (Keyed fun value tree => ∀ a, careful tree = .ok a →
        direct value = .ok a) entries cleaned :=
      forall₂_imp_of_mem hc fun entry hm other he =>
        ⟨he.1, fun a => (h.concur he.2).accepts (hk entry hm)⟩
    refine (tableOf_of_nodup hn).mpr ((forall₂_comp hparts hu).imp fun entry result he => ?_)
    obtain ⟨other, ⟨hkey, ha⟩, hkey', hb⟩ := he
    exact ⟨hkey.trans hkey', ha _ hb⟩

end Combinators

namespace Located

/-- The outcomes of two readings concur, whatever comes first among their errors. -/
def Concur (apart : Prop) (direct careful : Located α) : Prop :=
  LinkedSchema.Concur apart direct.outcome careful.outcome

theorem outcome_seq_eq_ok {f : Located (α → β)} {x : Located α} {b : β} :
    (f <*> x).outcome = .ok b ↔ ∃ g a, f.outcome = .ok g ∧ x.outcome = .ok a ∧ g a = b := by
  obtain ⟨f⟩ := f
  obtain ⟨x⟩ := x
  cases f <;> cases x <;> simp [Seq.seq]

variable {apart : Prop} {direct careful : Located α}

theorem Concur.pure (a : α) : Concur apart (pure a) (pure a) :=
  .ok a

theorem Concur.seq {f g : Located (α → β)} (hf : Concur apart f g)
    (h : Concur apart direct careful) : Concur apart (f <*> direct) (g <*> careful) := by
  constructor
  · intro b b' hd hc
    obtain ⟨p, a, hp, ha, rfl⟩ := outcome_seq_eq_ok.mp hd
    obtain ⟨p', a', hp', ha', rfl⟩ := outcome_seq_eq_ok.mp hc
    rw [hf.same hp hp', h.same ha ha']
  · intro b hk hc
    obtain ⟨p, a, hp, ha, rfl⟩ := outcome_seq_eq_ok.mp hc
    exact outcome_seq_eq_ok.mpr ⟨p, a, hf.accepts hk hp, h.accepts hk ha, rfl⟩

theorem Concur.map (f : α → β) (h : Concur apart direct careful) :
    Concur apart (f <$> direct) (f <$> careful) :=
  .seq (.pure f) h

end Located

theorem Fields.lookup_ofEntries {names : List String} {name : String} (hm : name ∈ names)
    (title : String) (entries : List (String × Json Fault)) :
    (Fields.ofEntries title names entries).entries.lookup name = entries.lookup name :=
  (lookup_filter entries names.contains name).trans (if_pos (List.contains_iff_mem.mpr hm))

/-- The same fields are there, each with a part and what that part is cleaned to. -/
def Fields.Corresponds (apart : Prop) (fields : Fields Fault) (cleaned : Fields Empty) : Prop :=
  ∀ name, Option.Rel (fun j tree => j.clean = .ok tree ∧ (apart → j.keysApart = true))
    (fields.entries.lookup name) (cleaned.entries.lookup name)

namespace Fields.Corresponds

variable {apart : Prop} {fields : Fields Fault} {cleaned : Fields Empty}
  {direct : Shape Fault α} {careful : Shape Empty α}

theorem read (h : fields.Corresponds apart cleaned) (hs : Agrees direct careful) (name : String)
    (absent : Option α) :
    Located.Concur apart (fields.read name direct absent) (cleaned.read name careful absent) := by
  have hname := h name
  cases hj : fields.entries.lookup name with
  | some j =>
    cases ht : cleaned.entries.lookup name with
    | some tree =>
      rw [hj, ht] at hname
      cases hname with
      | some hpart =>
        obtain ⟨place, hdirect⟩ := read_of_lookup_eq_some hj
        obtain ⟨place', hcareful⟩ := read_of_lookup_eq_some ht
        rw [hdirect, hcareful]
        exact ((hs.concur hpart.1).mono hpart.2).mapError _ _
    | none =>
      rw [hj, ht] at hname
      cases hname
  | none =>
    cases ht : cleaned.entries.lookup name with
    | some tree =>
      rw [hj, ht] at hname
      cases hname
    | none =>
      rw [read_of_lookup_eq_none hj, read_of_lookup_eq_none ht]
      cases absent with
      | some a => exact .pure a
      | none => exact .refused _

theorem required (h : fields.Corresponds apart cleaned) (hs : Agrees direct careful)
    {name : String} :
    Located.Concur apart (fields.required name direct) (cleaned.required name careful) :=
  h.read hs name none

theorem defaulted (h : fields.Corresponds apart cleaned) (hs : Agrees direct careful)
    {name : String} {default : α} :
    Located.Concur apart (fields.defaulted name direct default)
      (cleaned.defaulted name careful default) :=
  h.read hs name (some default)

theorem optional (h : fields.Corresponds apart cleaned) (hs : Agrees direct careful)
    {name : String} :
    Located.Concur apart (fields.optional name direct) (cleaned.optional name careful) :=
  h.defaulted hs.optional

/-- The parts of a list correspond to their cleaned forms in the same places. -/
theorem of_items {items : List (Json Fault)} {others : List (Json Empty)}
    (h : List.Forall₂ (fun item tree => item.clean = .ok tree) items others) (title : String)
    (names : List String) :
    (ofItems title names items).Corresponds (∀ item ∈ items, item.keysApart = true)
      (ofItems title names others) := by
  have hparts : List.Forall₂ (fun item tree => item.clean = .ok tree ∧
      ((∀ item ∈ items, item.keysApart = true) → item.keysApart = true)) items others :=
    forall₂_imp_of_mem h fun item hm _ ht => ⟨ht, fun hk => hk item hm⟩
  exact Keyed.lookup (Keyed.zip names hparts)

/-- Fields that are not repeated correspond to those of the merged entries. -/
theorem of_entries {entries : List (String × Json Fault)} {others : List (String × Json Empty)}
    (h : List.Forall₂ (Keyed fun value tree => value.clean = .ok tree) entries others)
    (title : String) {names : List String}
    (hn : ((entries.filter fun entry => names.contains entry.1).map Prod.fst).Nodup) :
    (ofEntries title names entries).Corresponds (∀ entry ∈ entries, entry.2.keysApart = true)
      (ofEntries title names (Table.ofList others).entries) := by
  have hparts : List.Forall₂ (Keyed fun value tree => value.clean = .ok tree ∧
      ((∀ entry ∈ entries, entry.2.keysApart = true) → value.keysApart = true)) entries others :=
    forall₂_imp_of_mem h fun entry hm _ he => ⟨he.1, he.2, fun hk => hk entry hm⟩
  have hkept := Keyed.filter names.contains hparts
  intro name
  have hmerged := Table.lookup_filter_ofList (Keyed.keys_eq hkept ▸ hn) name
  simp only [ofEntries, hmerged]
  exact Keyed.lookup hkept name

end Fields.Corresponds

theorem outcome_once_ne_ok {fields : Fields Fault} {record : Located α} {a : α}
    (h : ¬ (fields.entries.map Prod.fst).Nodup) : (fields.once record).outcome ≠ .ok a := by
  unfold Fields.once
  split
  · rename_i hnone
    exact absurd (firstRepeat?_eq_none.mp hnone).1 h
  · intro ha
    obtain ⟨p, b, hp, -⟩ := Located.outcome_seq_eq_ok.mp ha
    cases hp

/-- Records agree if what they read from fields that correspond does. Only the careful one may
refuse to read a list. -/
theorem agrees_recordFrom {title expected : String} {names : List String} {positional : Bool}
    {read : Fields Fault → Located α} {read' : Fields Empty → Located α}
    (h : ∀ {apart fields cleaned}, fields.Corresponds apart cleaned →
      Located.Concur apart (read fields) (read' cleaned)) :
    Agrees (recordFrom title names read true expected)
      (recordFrom title names read' positional expected) := by
  refine Forms.agrees {
    list := fun {items cleaned} hc => ?list
    object := fun {entries cleaned} hc => ?object }
  case list =>
    cases positional with
    | false => exact .refused _
    | true =>
      simp only [recordFrom, ↓reduceIte, hc.length_eq]
      refine Concur.bind (Concur.mapError _ _ (h (.of_items hc title names))) fun a => ?_
      split
      · exact .refused _
      · exact .ok a
  case object =>
    have hmerged : ((Fields.ofEntries title names (Table.ofList cleaned).entries).entries.map
        Prod.fst).Nodup :=
      (Table.ofList cleaned).nodup.sublist (List.filter_sublist.map _)
    simp only [recordFrom, once_of_nodup _ hmerged]
    refine Concur.mapError _ _ ?_
    by_cases hn : ((entries.filter fun entry => names.contains entry.1).map Prod.fst).Nodup
    · rw [once_of_nodup _ hn]
      exact Concur.mono (h (.of_entries hc title hn)) fun hk => hk.2
    · refine .of_not (fun a => outcome_once_ne_ok hn) fun hk => hn ?_
      exact hk.1.sublist (List.filter_sublist.map _)

theorem agrees_record {title : String} {names : List String}
    {read : Fields Fault → Located α} {read' : Fields Empty → Located α}
    (h : ∀ {apart fields cleaned}, fields.Corresponds apart cleaned →
      Located.Concur apart (read fields) (read' cleaned)) :
    Agrees (record title names read) (record title names read') :=
  agrees_recordFrom h

namespace Variant

/-- Two variants with the same tag, whose contents agree. -/
structure Agrees (direct : Variant Fault α) (careful : Variant Empty α) : Prop where
  tag : direct.tag = careful.tag
  shape : Shape.Agrees direct.shape careful.shape

theorem Agrees.holding {direct : Shape Fault α} {careful : Shape Empty α} {tag : String}
    (h : Shape.Agrees direct careful) : Agrees (holding tag direct) (holding tag careful) :=
  ⟨rfl, h⟩

theorem Agrees.withFields {tag : String} {names : List String} {positional : Bool}
    {read : Fields Fault → Located α} {read' : Fields Empty → Located α}
    (h : ∀ {apart fields cleaned}, fields.Corresponds apart cleaned →
      Located.Concur apart (read fields) (read' cleaned)) :
    Agrees (withFields true tag names read) (withFields positional tag names read') :=
  ⟨rfl, agrees_recordFrom h⟩

theorem Agrees.bare {tag : String} {positional : Bool} (a : α) :
    Agrees (bare true tag a : Variant Fault α) (bare positional tag a) :=
  .withFields fun _ => .pure a

end Variant

theorem concur_find {variants : List (Variant Fault α)} {others : List (Variant Empty α)}
    (h : List.Forall₂ Variant.Agrees variants others) (tag : String) {content : Json Fault}
    {tree : Json Empty} (hc : content.clean = .ok tree) :
    Concur (content.keysApart = true)
      (oneOf.find variants tag >>= fun variant => variant.shape content)
      (oneOf.find others tag >>= fun variant => variant.shape tree) := by
  have hfound : Option.Rel Variant.Agrees (variants.find? fun variant => variant.tag = tag)
      (others.find? fun variant => variant.tag = tag) := by
    induction h with
    | nil => exact .none
    | @cons variant other _ _ hfirst _ ih =>
      rw [List.find?_cons, List.find?_cons, hfirst.tag]
      cases decide (other.tag = tag) with
      | true => exact .some hfirst
      | false => exact ih
  unfold oneOf.find
  cases hv : variants.find? fun variant => variant.tag = tag with
  | some variant =>
    cases ho : others.find? fun variant => variant.tag = tag with
    | some other =>
      rw [hv, ho] at hfound
      cases hfound with
      | some hshapes => exact hshapes.shape.concur hc
    | none => exact .refused _
  | none =>
    cases ho : others.find? fun variant => variant.tag = tag with
    | some other =>
      rw [hv, ho] at hfound
      cases hfound
    | none => exact .refused _

/-- A tree with one entry has one when it is cleaned; so has one with several entries of one key,
which only the direct way refuses. -/
theorem agrees_oneOf {variants : List (Variant Fault α)} {others : List (Variant Empty α)}
    (h : List.Forall₂ Variant.Agrees variants others) : Agrees (oneOf variants) (oneOf others) := by
  refine Forms.agrees {
    string := fun tag => ?string
    object := fun {entries cleaned} hc => ?object }
  case string =>
    refine .of_refused fun a ha => ?_
    obtain ⟨variant, -, ha⟩ := Outcome.bind_eq_ok.mp ha
    cases ha
  case object =>
    match entries, cleaned, hc with
    | [], _, .nil => exact .refused _
    | [(tag, content)], [(_, tree)], .cons ⟨rfl, ht⟩ .nil =>
      exact (concur_find h tag ht).mono fun hk => hk.2 _ (List.mem_cons_self ..)
    | first :: second :: rest, first' :: second' :: rest', hc =>
      by_cases hn : ((first :: second :: rest).map Prod.fst).Nodup
      · rw [Table.entries_ofList (Keyed.keys_eq hc ▸ hn)]
        exact .refused _
      · exact .of_not (fun _ hd => by cases hd) fun hk => hn hk.1

end Shape

end Json

end LinkedSchema
