import LinkedSchema.Proofs.Compile.Names
import LinkedSchema.Proofs.Json.Shapes
import LinkedSchema.Schema.Text

namespace LinkedSchema

open Json Json.Shape

theorem Table.eq_empty_of_isEmpty {α : Type} {t : Table α} (h : t.isEmpty = true) : t = ∅ :=
  Table.ext_entries (List.isEmpty_iff.mp h)

/-- An order of fields is written where there is one. -/
theorem gives_names {fields : Fields Empty} {name : String} {order : Option (List String)}
    (hl : fields.entries.lookup name = order.map namesToJson) :
    (fields.optional name (listOf string)).Gives order :=
  Fields.gives_optional namesToJson hl fun names _ => ⟨nofun, listOf_names names⟩

theorem gives_string {fields : Fields Empty} {name : String} {text : Option String}
    (hl : fields.entries.lookup name = text.map .string) :
    (fields.optional name string).Gives text :=
  Fields.gives_optional .string hl fun _ _ => ⟨nofun, rfl⟩

namespace MapRepresentation

theorem shape_toJson (positional : Bool) (representation : MapRepresentation) :
    MapRepresentation.shape positional representation.toJson = .ok representation := by
  cases representation with
  | map => exact oneOf_tagged rfl (bare_ofEntries positional "map" map)
  | stringPairs inner entry =>
    refine oneOf_tagged rfl (withFields_ofEntries (by decide) (.refl _) ?_)
    exact .seq (.map _ (Fields.gives_required rfl rfl)) (Fields.gives_required rfl rfl)
  | listPairs => exact oneOf_tagged rfl (bare_ofEntries positional "listpairs" listPairs)
  | advanced layout => exact oneOf_tagged rfl rfl

end MapRepresentation

namespace ListRepresentation

theorem shape_toJson (positional : Bool) (representation : ListRepresentation) :
    ListRepresentation.shape positional representation.toJson = .ok representation := by
  cases representation with
  | list => exact oneOf_tagged rfl (bare_ofEntries positional "list" list)
  | advanced layout => exact oneOf_tagged rfl rfl

end ListRepresentation

theorem FieldDetails.shape_toJson {details : FieldDetails}
    (h : ∀ j, details.implicit = some j → j ≠ .null ∧ j.keysApart = true) :
    FieldDetails.shape details.toJson = .ok details := by
  have hkeys : ((entryIf "rename" (details.rename.map .string) ++
      entryIf "implicit" details.implicit).map Prod.fst).Sublist ["rename", "implicit"] := by
    rw [List.map_append]
    exact (map_fst_entryIf_sublist _ _).append (map_fst_entryIf_sublist _ _)
  refine record_ofEntries (by decide) hkeys ?_
  refine .seq (.map _ (gives_string ?_)) (Fields.gives_optional id ?_ fun j hj => ?_)
  · rw [List.lookup_append, lookup_entryIf_self, lookup_entryIf_of_ne (by decide), Option.or_none]
  · rw [List.lookup_append, lookup_entryIf_self, lookup_entryIf_of_ne (by decide), Option.none_or]
    exact (Option.map_id_fun ▸ rfl)
  · exact ⟨(h j hj).1, anything_of_keysApart (h j hj).2⟩

namespace StructRepresentation

theorem shape_toJson (positional : Bool) {representation : StructRepresentation}
    (h : ∀ details, representation = .map details →
      ∀ j ∈ details.values.filterMap FieldDetails.implicit, j ≠ .null ∧ j.keysApart = true) :
    StructRepresentation.shape positional representation.toJson = .ok representation := by
  cases representation with
  | map fields =>
    refine oneOf_tagged rfl ?_
    cases he : fields.isEmpty with
    | true =>
      rw [if_pos rfl, Table.eq_empty_of_isEmpty he]
      exact withFields_ofEntries (by decide) (List.nil_sublist _)
        (.map _ (Fields.gives_default rfl))
    | false =>
      rw [if_neg Bool.false_ne_true]
      refine withFields_ofEntries (by decide) (.refl _) (.map _ (Fields.gives_defaulted rfl ?_))
      refine tableOf_toJson fun entry hm => FieldDetails.shape_toJson fun j hj =>
        h fields rfl j ?_
      exact List.mem_filterMap.mpr ⟨entry.2, List.mem_map_of_mem hm, hj⟩
  | tuple order =>
    refine oneOf_tagged rfl (withFields_ofEntries (by decide) (map_fst_entryIf_sublist _ _) ?_)
    exact .map _ (gives_names (lookup_entryIf_self _ _))
  | stringPairs inner entry =>
    refine oneOf_tagged rfl (withFields_ofEntries (by decide) (.refl _) ?_)
    exact .seq (.map _ (Fields.gives_required rfl rfl)) (Fields.gives_required rfl rfl)
  | stringJoin delimiter order =>
    refine oneOf_tagged rfl (withFields_ofEntries (by decide)
      ((map_fst_entryIf_sublist _ _).cons_cons _) ?_)
    refine .seq (.map _ (Fields.gives_required rfl rfl)) (gives_names ?_)
    exact lookup_entryIf_self "fieldOrder" _
  | listPairs => exact oneOf_tagged rfl (bare_ofEntries positional "listpairs" listPairs)
  | advanced layout => exact oneOf_tagged rfl rfl

end StructRepresentation

theorem UnionRepresentation.shape_toJson (positional : Bool)
    (representation : UnionRepresentation) :
    UnionRepresentation.shape positional representation.toJson = .ok representation := by
  have htable : ∀ table : Table String, tableOf string (table.toJson .string) = .ok table :=
    fun _ => tableOf_toJson fun _ _ => rfl
  cases representation with
  | kinded table => exact oneOf_tagged rfl (congrArg (kinded <$> ·) (htable table))
  | keyed table => exact oneOf_tagged rfl (congrArg (keyed <$> ·) (htable table))
  | envelope discriminantKey contentKey table =>
    refine oneOf_tagged rfl (withFields_ofEntries (by decide) (.refl _) ?_)
    exact .seq (.seq (.map _ (Fields.gives_required rfl rfl)) (Fields.gives_required rfl rfl))
      (Fields.gives_required rfl (htable table))
  | inlined discriminantKey table =>
    refine oneOf_tagged rfl (withFields_ofEntries (by decide) (.refl _) ?_)
    exact .seq (.map _ (Fields.gives_required rfl rfl)) (Fields.gives_required rfl (htable table))
  | stringPrefix table =>
    refine oneOf_tagged rfl (withFields_ofEntries (by decide) (.refl _) ?_)
    exact .map _ (Fields.gives_required rfl (htable table))
  | bytesPrefix table =>
    refine oneOf_tagged rfl (withFields_ofEntries (by decide) (.refl _) ?_)
    exact .map _ (Fields.gives_required rfl (htable table))

theorem EnumRepresentation.shape_toJson (representation : EnumRepresentation) :
    EnumRepresentation.shape representation.toJson = .ok representation := by
  cases representation with
  | string table =>
    exact oneOf_tagged rfl (congrArg (string <$> ·) (tableOf_toJson fun _ _ => rfl))
  | int table =>
    exact oneOf_tagged rfl (congrArg (int <$> ·) (tableOf_toJson fun _ _ => int64_toInt _))

theorem LinkDefn.shape_toJson (defn : LinkDefn) : LinkDefn.shape defn.toJson = .ok defn :=
  record_ofEntries (by decide) (map_fst_entryIf_sublist _ _)
    (.map _ (gives_string (lookup_entryIf_self _ _)))

section Terms

variable {Term : Type} {term : Shape Empty Term} {j : Json Empty}

theorem MapDefn.shape_ofEntries (positional : Bool) (defn : MapDefn Term)
    (h : term j = .ok defn.valueType) :
    MapDefn.shape positional term (.ofEntries [("keyType", .string defn.keyType), ("valueType", j),
      ("valueNullable", .bool defn.valueNullable),
      ("representation", defn.representation.toJson)]) = .ok defn := by
  obtain ⟨keyType, valueType, valueNullable, representation⟩ := defn
  refine record_ofEntries (by decide) (.refl _) ?_
  exact .seq (.seq (.seq (.map _ (Fields.gives_required rfl rfl)) (Fields.gives_required rfl h))
    (Fields.gives_defaulted rfl rfl))
    (Fields.gives_defaulted rfl (representation.shape_toJson positional))

theorem ListDefn.shape_ofEntries (positional : Bool) (defn : ListDefn Term)
    (h : term j = .ok defn.valueType) :
    ListDefn.shape positional term (.ofEntries [("valueType", j),
      ("valueNullable", .bool defn.valueNullable),
      ("representation", defn.representation.toJson)]) = .ok defn := by
  obtain ⟨valueType, valueNullable, representation⟩ := defn
  refine record_ofEntries (by decide) (.refl _) ?_
  exact .seq (.seq (.map _ (Fields.gives_required rfl h)) (Fields.gives_defaulted rfl rfl))
    (Fields.gives_defaulted rfl (representation.shape_toJson positional))

end Terms

namespace TypeTerm

/-- A definition in the place of a reference is read from an object, in one step more than what lies
in it. -/
theorem shapeUpTo_tagged {most : Nat} {variant : Variant Empty TypeTerm} {tag : String}
    {content : Json Empty} {term : TypeTerm}
    (hf : [Variant.holding "map" fun j => map <$> MapDefn.shape true (shapeUpTo most) j,
        .holding "list" fun j => list <$> ListDefn.shape true (shapeUpTo most) j,
        .holding "link" fun j => link <$> LinkDefn.shape j].find?
      (fun variant => variant.tag = tag) = some variant)
    (h : variant.shape content = .ok term) :
    shapeUpTo (most + 1) (tagged tag content) = .ok term := by
  have hone := oneOf_tagged hf h
  unfold tagged ofEntries at hone ⊢
  rw [shapeUpTo, if_pos (isClean_eq_true _), hone]
  · rfl
  · exact nofun

/-- A reference is read back in as many steps as its tree is deep. -/
theorem shapeUpTo_toJson : (term : TypeTerm) → (most : Nat) → term.toJson.depth ≤ most →
    shapeUpTo most term.toJson = .ok term
  | named _, most, _ => by cases most <;> rfl
  | map ⟨keyType, valueType, valueNullable, representation⟩, most, h => by
    obtain ⟨most, rfl, hd⟩ : ∃ m, most = m + 1 ∧ valueType.toJson.depth ≤ m := by
      simp only [toJson, tagged, ofEntries, depth, depthEntries] at h
      exact ⟨most - 1, by omega, by omega⟩
    exact shapeUpTo_tagged rfl (congrArg (map <$> ·)
      (MapDefn.shape_ofEntries true ⟨keyType, valueType, valueNullable, representation⟩
        (shapeUpTo_toJson valueType most hd)))
  | list ⟨valueType, valueNullable, representation⟩, most, h => by
    obtain ⟨most, rfl, hd⟩ : ∃ m, most = m + 1 ∧ valueType.toJson.depth ≤ m := by
      simp only [toJson, tagged, ofEntries, depth, depthEntries] at h
      exact ⟨most - 1, by omega, by omega⟩
    exact shapeUpTo_tagged rfl (congrArg (list <$> ·)
      (ListDefn.shape_ofEntries true ⟨valueType, valueNullable, representation⟩
        (shapeUpTo_toJson valueType most hd)))
  | link defn, most, h => by
    obtain ⟨most, rfl⟩ : ∃ m, most = m + 1 := by
      simp only [toJson, tagged, ofEntries, depth] at h
      exact ⟨most - 1, by omega⟩
    exact shapeUpTo_tagged rfl (congrArg (link <$> ·) defn.shape_toJson)

theorem shape_toJson (term : TypeTerm) : TypeTerm.shape term.toJson = .ok term :=
  shapeUpTo_toJson term _ (Nat.le_refl _)

end TypeTerm

theorem StructField.shape_toJson (field : StructField) :
    StructField.shape field.toJson = .ok field := by
  obtain ⟨type, isOptional, nullable⟩ := field
  refine record_ofEntries (by decide) (.refl _) ?_
  exact .seq (.seq (.map _ (Fields.gives_required rfl type.shape_toJson))
    (Fields.gives_defaulted rfl rfl)) (Fields.gives_defaulted rfl rfl)

theorem StructDefn.shape_ofEntries (positional : Bool) {defn : StructDefn}
    (h : ∀ j ∈ (TypeDefn.struct defn).implicits, j ≠ .null ∧ j.keysApart = true) :
    StructDefn.shape positional (.ofEntries [("fields", defn.fields.toJson StructField.toJson),
      ("representation", defn.representation.toJson)]) = .ok defn := by
  obtain ⟨fields, representation⟩ := defn
  have hrepresentation : StructRepresentation.shape positional representation.toJson =
      .ok representation := by
    refine StructRepresentation.shape_toJson positional fun details he => ?_
    rw [he] at h
    exact h
  refine record_ofEntries (by decide) (.refl _) ?_
  exact .seq (.map _ (Fields.gives_defaulted rfl
    (tableOf_toJson fun entry _ => entry.2.shape_toJson)))
    (Fields.gives_defaulted rfl hrepresentation)

theorem UnionDefn.shape_ofEntries (positional : Bool) (defn : UnionDefn) :
    UnionDefn.shape positional (.ofEntries [("members", namesToJson defn.members),
      ("representation", defn.representation.toJson)]) = .ok defn := by
  obtain ⟨members, representation⟩ := defn
  refine record_ofEntries (by decide) (.refl _) ?_
  exact .seq (.map _ (Fields.gives_required rfl (listOf_names members)))
    (Fields.gives_required rfl (representation.shape_toJson positional))

theorem EnumDefn.shape_ofEntries (defn : EnumDefn) :
    EnumDefn.shape (.ofEntries [("members", namesToJson defn.members),
      ("representation", defn.representation.toJson)]) = .ok defn := by
  obtain ⟨members, representation⟩ := defn
  refine record_ofEntries (by decide) (.refl _) ?_
  exact .seq (.map _ (Fields.gives_required rfl (listOf_names members)))
    (Fields.gives_defaulted rfl representation.shape_toJson)

namespace TypeDefn

/-- A definition is an object with one entry, from the word for its kind. -/
theorem exists_content (defn : TypeDefn) :
    ∃ content, defn.toJson = tagged defn.keyword content := by
  cases defn <;> exact ⟨_, rfl⟩

theorem shape_toJson (positional : Bool) {defn : TypeDefn}
    (h : ∀ j ∈ defn.implicits, j ≠ .null ∧ j.keysApart = true) :
    TypeDefn.shape positional defn.toJson = .ok defn := by
  cases defn with
  | map defn =>
    exact oneOf_tagged rfl (congrArg (map <$> ·)
      (MapDefn.shape_ofEntries positional defn defn.valueType.shape_toJson))
  | list defn =>
    exact oneOf_tagged rfl (congrArg (list <$> ·)
      (ListDefn.shape_ofEntries positional defn defn.valueType.shape_toJson))
  | link defn => exact oneOf_tagged rfl (congrArg (link <$> ·) defn.shape_toJson)
  | union defn => exact oneOf_tagged rfl (congrArg (union <$> ·) (defn.shape_ofEntries positional))
  | struct defn =>
    exact oneOf_tagged rfl (congrArg (struct <$> ·) (StructDefn.shape_ofEntries positional h))
  | enum defn => exact oneOf_tagged rfl (congrArg (enum <$> ·) defn.shape_ofEntries)
  | copy fromType =>
    refine oneOf_holding rfl (record_ofEntries (by decide) (.refl _) ?_)
    exact .map _ (Fields.gives_required rfl rfl)
  | _ => exact oneOf_holding rfl (record_ofEntries .nil (.refl _) (Located.gives_pure _))

theorem ofJson_of_implicits (name : String) {defn : TypeDefn}
    (h : ∀ j ∈ defn.implicits, j ≠ .null ∧ j.keysApart = true) :
    TypeDefn.ofJson name defn.toJson = .ok defn := by
  have hshape := shape_toJson false h
  obtain ⟨content, hc⟩ := defn.exists_content
  rw [hc] at hshape ⊢
  exact Outcome.mapError_eq_ok.mpr hshape

end TypeDefn

namespace Schema

/-- The implicit values of the fields of all definitions. -/
def implicits (schema : Schema) : List (Json Empty) :=
  schema.types.values.flatMap TypeDefn.implicits

/-- Types are added one by one, each behind those before it. -/
theorem insertAll_toJson {entries : List (String × TypeDefn)} (schema : Schema)
    (h : ∀ entry ∈ entries, ∀ j ∈ entry.2.implicits, j ≠ .null ∧ j.keysApart = true) :
    schema.insertAll (entries.map fun entry => (entry.1, entry.2.toJson)) =
      .ok { schema with
        types := entries.foldl (fun t entry => t.insert entry.1 entry.2) schema.types } := by
  induction entries generalizing schema with
  | nil => rfl
  | cons entry rest ih =>
    have hfirst := TypeDefn.ofJson_of_implicits entry.1 (h entry (List.mem_cons_self ..))
    have hrest := ih (schema.insert entry.1 entry.2) fun other ho =>
      h other (List.mem_cons_of_mem _ ho)
    rw [List.map_cons, insertAll, hfirst, Outcome.ok_bind, hrest]
    rfl

variable {schema loaded : Schema} {root types : List (String × Json Empty)}

theorem ofJson_of_lookup_eq_none (ht : root.lookup "types" = some (.ofEntries types))
    (hi : insertAll ∅ types = .ok loaded) (ha : root.lookup "advanced" = none) :
    ofJson (.ofEntries root) = .ok loaded := by
  rw [ofEntries] at ht
  simp only [ofEntries, ofJson, ht, ha, hi, Outcome.ok_bind, Outcome.pure_eq]

theorem ofJson_of_lookup_eq_some {j : Json Empty} {advanced : Table AdvancedLayout}
    (ht : root.lookup "types" = some (.ofEntries types)) (hi : insertAll ∅ types = .ok loaded)
    (ha : root.lookup "advanced" = some j) (hj : tableOf AdvancedLayout.shape j = .ok advanced) :
    ofJson (.ofEntries root) = .ok { loaded with advanced := advanced } := by
  rw [ofEntries] at ht
  simp only [ofEntries, ofJson, ht, ha, hi, hj, Except.mapError, Outcome.ok_bind, Outcome.pure_eq]

/-- Loading what a schema is written as gives the schema, in which no implicit value is null. -/
theorem ofJson_toJson (hn : ∀ j ∈ schema.implicits, j ≠ .null)
    (hk : ∀ j ∈ schema.implicits, j.keysApart = true) : ofJson schema.toJson = .ok schema := by
  have hall : ∀ entry ∈ schema.types.entries, ∀ j ∈ entry.2.implicits,
      j ≠ .null ∧ j.keysApart = true := by
    intro entry hm j hj
    have hj : j ∈ schema.implicits :=
      List.mem_flatMap.mpr ⟨entry.2, List.mem_map_of_mem hm, hj⟩
    exact ⟨hn j hj, hk j hj⟩
  have htypes : insertAll ∅ (schema.types.entries.map fun entry => (entry.1, entry.2.toJson)) =
      .ok ⟨schema.types, ∅⟩ := by
    rw [insertAll_toJson ∅ hall]
    exact congrArg (fun types => Except.ok (Schema.mk types ∅))
      (Table.ext_entries (Table.entries_ofList schema.types.nodup))
  have hadvanced : tableOf AdvancedLayout.shape (schema.advanced.toJson fun _ => .ofEntries []) =
      .ok schema.advanced :=
    tableOf_toJson fun _ _ => record_ofEntries .nil (.refl _) (Located.gives_pure _)
  rw [toJson]
  -- An empty table of layouts is not written, and nothing is loaded in its place.
  cases he : schema.advanced.isEmpty with
  | true =>
    rw [if_pos rfl, ofJson_of_lookup_eq_none rfl htypes rfl, ← Table.eq_empty_of_isEmpty he]
  | false =>
    rw [if_neg Bool.false_ne_true, ofJson_of_lookup_eq_some rfl htypes rfl hadvanced]

end Schema

/-- Entries of a catalogue, with strategies that can be converted by and others that cannot,
definitions in the place of references, and implicit values of several kinds. -/
def catalogueSchema : Schema where
  types := Table.ofList [
    ("Entry", .struct ⟨Table.ofList [
        ("title", ⟨.named "String", false, false⟩),
        ("copies", ⟨.named "Int", false, false⟩),
        ("places", ⟨.map ⟨"String", .list ⟨.link ⟨some "Shelf"⟩, true, .list⟩, false, .listPairs⟩,
          true, true⟩),
        ("marks", ⟨.named "Marks", true, false⟩)],
      .map (Table.ofList [("title", ⟨some "t", none⟩), ("copies", ⟨none, some (.int 1)⟩),
        ("marks", ⟨some "m", some (.ofEntries [("a", .list [.null, .bool true])])⟩)])⟩),
    ("Shelf", .struct ⟨Table.ofList [("row", ⟨.named "Int", false, false⟩),
        ("room", ⟨.named "String", false, false⟩)], .stringJoin ":" (some ["room", "row"])⟩),
    ("Marks", .map ⟨"String", .named "Mark", false, .stringPairs "=" ","⟩),
    ("Mark", .union ⟨["Int", "Colour"],
      .envelope "kind" "mark" (Table.ofList [("c", "Colour"), ("i", "Int")])⟩),
    ("Colour", .enum ⟨["Red", "Blue"], .int (Table.ofList [("Blue", 2), ("Red", -1)])⟩),
    ("Book", .copy "Entry")]
  advanced := Table.ofList [("Sorted", {})]

/-- The catalogue is read back as it was written. -/
theorem ofJson_toJson_catalogue : catalogueSchema.implicits.length = 2 ∧
    Schema.ofJson catalogueSchema.toJson = .ok catalogueSchema :=
  ⟨by decide +kernel, Schema.ofJson_toJson (by decide +kernel) (by decide +kernel)⟩

end LinkedSchema
