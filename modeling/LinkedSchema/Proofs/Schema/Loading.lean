import LinkedSchema.Proofs.Json.Agreement
import LinkedSchema.Schema.Text

namespace LinkedSchema

open Json Json.Shape

variable {Fault : Type} (positional : Bool)

theorem MapRepresentation.agrees_shape :
    Agrees (MapRepresentation.shape true : Shape Fault MapRepresentation)
      (MapRepresentation.shape positional) :=
  -- As in all shapes below, the proof has the variants and the fields of the shape in their order.
  agrees_oneOf <|
    .cons (.bare _) <|
    .cons (.withFields fun h => .seq (.map _ (h.required agrees_string))
      (h.required agrees_string)) <|
    .cons (.bare _) <|
    .cons (.holding (agrees_string.map _)) .nil

theorem ListRepresentation.agrees_shape :
    Agrees (ListRepresentation.shape true : Shape Fault ListRepresentation)
      (ListRepresentation.shape positional) :=
  agrees_oneOf <| .cons (.bare _) <| .cons (.holding (agrees_string.map _)) .nil

theorem FieldDetails.agrees_shape :
    Agrees (FieldDetails.shape : Shape Fault FieldDetails) FieldDetails.shape :=
  agrees_record fun h => .seq (.map _ (h.optional agrees_string)) (h.optional agrees_anything)

theorem StructRepresentation.agrees_shape :
    Agrees (StructRepresentation.shape true : Shape Fault StructRepresentation)
      (StructRepresentation.shape positional) :=
  agrees_oneOf <|
    .cons (.withFields fun h => .map _ (h.defaulted FieldDetails.agrees_shape.tableOf)) <|
    .cons (.withFields fun h => .map _ (h.optional agrees_string.listOf)) <|
    .cons (.withFields fun h => .seq (.map _ (h.required agrees_string))
      (h.required agrees_string)) <|
    .cons (.withFields fun h => .seq (.map _ (h.required agrees_string))
      (h.optional agrees_string.listOf)) <|
    .cons (.bare _) <|
    .cons (.holding (agrees_string.map _)) .nil

theorem UnionRepresentation.agrees_shape :
    Agrees (UnionRepresentation.shape true : Shape Fault UnionRepresentation)
      (UnionRepresentation.shape positional) :=
  agrees_oneOf <|
    .cons (.holding (agrees_string.tableOf.map _)) <|
    .cons (.holding (agrees_string.tableOf.map _)) <|
    .cons (.withFields fun h => .seq (.seq (.map _ (h.required agrees_string))
      (h.required agrees_string)) (h.required agrees_string.tableOf)) <|
    .cons (.withFields fun h => .seq (.map _ (h.required agrees_string))
      (h.required agrees_string.tableOf)) <|
    .cons (.withFields fun h => .map _ (h.required agrees_string.tableOf)) <|
    .cons (.withFields fun h => .map _ (h.required agrees_string.tableOf)) .nil

theorem EnumRepresentation.agrees_shape :
    Agrees (EnumRepresentation.shape : Shape Fault EnumRepresentation) EnumRepresentation.shape :=
  agrees_oneOf <|
    .cons (.holding (agrees_string.tableOf.map _)) <|
    .cons (.holding (agrees_int64.tableOf.map _)) .nil

theorem MapDefn.agrees_shape {Term : Type} {direct : Shape Fault Term} {careful : Shape Empty Term}
    (h : Agrees direct careful) :
    Agrees (MapDefn.shape true direct) (MapDefn.shape positional careful) :=
  agrees_record fun hc =>
    .seq (.seq (.seq (.map _ (hc.required agrees_string)) (hc.required h))
      (hc.defaulted agrees_bool))
      (hc.defaulted (MapRepresentation.agrees_shape positional))

theorem ListDefn.agrees_shape {Term : Type} {direct : Shape Fault Term}
    {careful : Shape Empty Term} (h : Agrees direct careful) :
    Agrees (ListDefn.shape true direct) (ListDefn.shape positional careful) :=
  agrees_record fun hc =>
    .seq (.seq (.map _ (hc.required h)) (hc.defaulted agrees_bool))
      (hc.defaulted (ListRepresentation.agrees_shape positional))

theorem LinkDefn.agrees_shape : Agrees (LinkDefn.shape : Shape Fault LinkDefn) LinkDefn.shape :=
  agrees_record fun h => .map _ (h.optional agrees_string)

namespace TypeTerm

theorem shapeUpTo_string (most : Nat) (name : String) :
    shapeUpTo most (.string name : Json Fault) = .ok (.named name) := by
  cases most <;> rfl

theorem shapeUpTo_zero {j : Json Fault} (h : ∀ name, j ≠ .string name) :
    shapeUpTo 0 j = .error (.noVariant "TypeTerm") := by
  rw [shapeUpTo]
  · rfl
  · exact h

theorem shapeUpTo_succ {most : Nat} {j : Json Fault} (h : ∀ name, j ≠ .string name)
    (hc : j.isClean = true) :
    shapeUpTo (most + 1) j =
      (oneOf [
        .holding "map" fun j => .map <$> MapDefn.shape true (shapeUpTo most) j,
        .holding "list" fun j => .list <$> ListDefn.shape true (shapeUpTo most) j,
        .holding "link" fun j => .link <$> LinkDefn.shape j] j).mapError
        fun _ => .noVariant "TypeTerm" := by
  rw [shapeUpTo, if_pos hc]
  exact h

/-- A name is read however deep definitions may lie. -/
theorem agrees_of_unnamed {more most : Nat}
    (h : ∀ {j : Json Fault} {tree : Json Empty}, j.clean = .ok tree →
      (∀ name, tree ≠ .string name) →
        Concur (j.keysApart = true) (shapeUpTo more j) (shapeUpTo most tree)) :
    Agrees (shapeUpTo more : Shape Fault TypeTerm) (shapeUpTo most) := by
  refine ⟨fun {j tree} hj => ?_⟩
  by_cases hs : ∃ name, tree = .string name
  · obtain ⟨name, rfl⟩ := hs
    rw [clean_eq_string.mp hj, shapeUpTo_string, shapeUpTo_string]
    exact .ok _
  · exact h hj (not_exists.mp hs)

/-- The direct way may go deeper, since there may be more to go through before repeated keys are
merged. -/
theorem agrees_shapeUpTo {most more : Nat} (hle : most ≤ more) :
    Agrees (shapeUpTo more : Shape Fault TypeTerm) (shapeUpTo most) := by
  induction most generalizing more with
  | zero =>
    refine agrees_of_unnamed fun _ hs => ?_
    rw [shapeUpTo_zero hs]
    exact .refused _
  | succ most ih =>
    obtain ⟨more, rfl⟩ := Nat.exists_eq_add_of_le' (Nat.one_le_of_lt hle)
    have hparts := ih (Nat.le_of_succ_le_succ hle)
    refine agrees_of_unnamed fun {j tree} hj hs => ?_
    have hs' : ∀ name, j ≠ .string name := by
      rintro name rfl
      exact hs name (Except.ok.inj hj).symm
    rw [shapeUpTo_succ hs' (isClean_of_clean hj), shapeUpTo_succ hs tree.isClean_eq_true]
    refine Concur.mapError _ _ (Agrees.concur (agrees_oneOf ?_) hj)
    exact .cons (.holding ((MapDefn.agrees_shape true hparts).map map)) <|
      .cons (.holding ((ListDefn.agrees_shape true hparts).map list)) <|
      .cons (.holding (LinkDefn.agrees_shape.map link)) .nil

theorem agrees_shape : Agrees (shape : Shape Fault TypeTerm) shape :=
  ⟨fun hj => (agrees_shapeUpTo (depth_le_of_clean hj)).concur hj⟩

end TypeTerm

theorem StructField.agrees_shape :
    Agrees (StructField.shape : Shape Fault StructField) StructField.shape :=
  agrees_record fun h =>
    .seq (.seq (.map _ (h.required TypeTerm.agrees_shape)) (h.defaulted agrees_bool))
      (h.defaulted agrees_bool)

theorem StructDefn.agrees_shape :
    Agrees (StructDefn.shape true : Shape Fault StructDefn) (StructDefn.shape positional) :=
  agrees_record fun h =>
    .seq (.map _ (h.defaulted StructField.agrees_shape.tableOf))
      (h.defaulted (StructRepresentation.agrees_shape positional))

theorem UnionDefn.agrees_shape :
    Agrees (UnionDefn.shape true : Shape Fault UnionDefn) (UnionDefn.shape positional) :=
  agrees_record fun h =>
    .seq (.map _ (h.required agrees_string.listOf))
      (h.required (UnionRepresentation.agrees_shape positional))

theorem EnumDefn.agrees_shape : Agrees (EnumDefn.shape : Shape Fault EnumDefn) EnumDefn.shape :=
  agrees_record fun h =>
    .seq (.map _ (h.required agrees_string.listOf)) (h.defaulted EnumRepresentation.agrees_shape)

theorem TypeDefn.agrees_shape :
    Agrees (TypeDefn.shape true : Shape Fault TypeDefn) (TypeDefn.shape positional) :=
  have hbare (title : String) (defn : TypeDefn) :
      Agrees (record title [] (fun _ => pure defn) : Shape Fault TypeDefn)
        (record title [] fun _ => pure defn) :=
    agrees_record fun _ => .pure defn
  agrees_oneOf <|
    .cons (.holding (hbare _ _)) <|
    .cons (.holding (hbare _ _)) <|
    .cons (.holding (hbare _ _)) <|
    .cons (.holding (hbare _ _)) <|
    .cons (.holding (hbare _ _)) <|
    .cons (.holding (hbare _ _)) <|
    .cons (.holding ((MapDefn.agrees_shape positional TypeTerm.agrees_shape).map _)) <|
    .cons (.holding ((ListDefn.agrees_shape positional TypeTerm.agrees_shape).map _)) <|
    .cons (.holding (LinkDefn.agrees_shape.map _)) <|
    .cons (.holding ((UnionDefn.agrees_shape positional).map _)) <|
    .cons (.holding ((StructDefn.agrees_shape positional).map _)) <|
    .cons (.holding (EnumDefn.agrees_shape.map _)) <|
    .cons (.holding (agrees_record fun h => .map _ (h.required agrees_string))) .nil

theorem AdvancedLayout.agrees_shape :
    Agrees (AdvancedLayout.shape : Shape Fault AdvancedLayout) AdvancedLayout.shape :=
  agrees_record fun _ => .pure _

theorem Schema.agrees_shape :
    Agrees (Schema.shape true : Shape Fault Schema) (Schema.shape positional) :=
  agrees_record fun h =>
    .seq (.map _ (h.required (TypeDefn.agrees_shape positional).tableOf))
      (h.defaulted AdvancedLayout.agrees_shape.tableOf)

theorem TypeDefn.shape_of_ofJson {name : String} {j : Json Empty} {defn : TypeDefn}
    (h : TypeDefn.ofJson name j = .ok defn) : TypeDefn.shape false j = .ok defn := by
  unfold TypeDefn.ofJson at h
  split at h
  · cases h
  · exact Outcome.mapError_eq_ok.mp h
  · cases h
  · cases h

namespace Schema

/-- Definitions that are added have their shapes, and are added in their order. -/
theorem exists_of_insertAll {types : List (String × Json Empty)} {schema loaded : Schema}
    (h : schema.insertAll types = .ok loaded) :
    ∃ defns, List.Forall₂ (Keyed fun j defn => TypeDefn.shape false j = .ok defn) types defns ∧
      loaded = { schema with
        types := defns.foldl (fun t entry => t.insert entry.1 entry.2) schema.types } := by
  induction types generalizing schema with
  | nil =>
    cases h
    exact ⟨[], .nil, rfl⟩
  | cons entry rest ih =>
    obtain ⟨defn, hd, h⟩ := Outcome.bind_eq_ok.mp h
    obtain ⟨defns, hdefns, rfl⟩ := ih h
    exact ⟨(entry.1, defn) :: defns, .cons ⟨rfl, TypeDefn.shape_of_ofJson hd⟩ hdefns, rfl⟩

/-- What the careful way makes of a tree has the shape of a schema. The checks that it makes before
only refuse. -/
theorem shape_of_ofJson {tree : Json Empty} {schema : Schema} (hk : tree.keysApart = true)
    (h : ofJson tree = .ok schema) : Schema.shape false tree = .ok schema := by
  unfold ofJson at h
  split at h
  · rename_i root ending
    split at h
    · rename_i types ending' ht
      have hend : ending = none := Option.eq_none_iff_forall_ne_some.mpr fun f => f.elim
      have hend' : ending' = none := Option.eq_none_iff_forall_ne_some.mpr fun f => f.elim
      subst hend hend'
      obtain ⟨loaded, hi, h⟩ := Outcome.bind_eq_ok.mp h
      obtain ⟨defns, hdefns, rfl⟩ := exists_of_insertAll hi
      have hfield : ∀ name ∈ ["types", "advanced"],
          (Fields.ofEntries "struct Schema" ["types", "advanced"] root).entries.lookup name =
            root.lookup name :=
        fun name hm => Fields.lookup_ofEntries hm _ root
      have htypes := Fields.gives_required ((hfield "types" (by decide)).trans ht)
        (tableOf_object_eq_ok.mpr ⟨defns, hdefns, rfl⟩)
      refine record_of_nodup (keysApart_object.mp hk).1 ?_
      split at h
      · rename_i ha
        cases h
        exact .seq (.map _ htypes)
          (Fields.gives_default ((hfield "advanced" (by decide)).trans ha))
      · rename_i j ha
        obtain ⟨advanced, hadvanced, h⟩ := Outcome.bind_eq_ok.mp h
        cases h
        exact .seq (.map _ htypes) (Fields.gives_defaulted
          ((hfield "advanced" (by decide)).trans ha) (Outcome.mapError_eq_ok.mp hadvanced))
    · cases h
  · cases h

theorem ofText_eq_ok {text : String} {schema : Schema} :
    ofText text = .ok schema ↔
      (Json.read (Text.utf8 text)).stop = none ∧
        ∃ tree, (Json.read (Text.utf8 text)).root.clean = .ok tree ∧ ofJson tree = .ok schema := by
  rw [ofText, Outcome.bind_eq_ok]
  simp only [Outcome.mapError_eq_ok, Reading.tree, Outcome.bind_eq_ok]
  cases (Json.read (Text.utf8 text)).stop with
  | none => simp
  | some cause => simp

theorem ofTextByShape?_eq_some {text : String} {schema : Schema} :
    ofTextByShape? text = some schema ↔
      (Json.read (Text.utf8 text)).stop = none ∧
        Schema.shape true (Json.read (Text.utf8 text)).root = .ok schema := by
  simp only [ofTextByShape?]
  cases (Json.read (Text.utf8 text)).stop with
  | none => cases Schema.shape true (Json.read (Text.utf8 text)).root <;> simp
  | some cause => simp

/-- The two ways never load different schemas from a text, not even schemas that differ in the order
of their tables; and a text without repeated keys that the careful way loads is loaded directly,
too. -/
theorem loads_alike (text : String) :
    (∀ careful direct, ofText text = .ok careful → ofTextByShape? text = some direct →
      careful = direct) ∧
    ∀ schema, ofText text = .ok schema → (Json.read (Text.utf8 text)).root.keysApart = true →
      ofTextByShape? text = some schema := by
  have hagrees : Agrees (Schema.shape true : Shape JsonFault Schema) (Schema.shape false) :=
    Schema.agrees_shape false
  constructor
  · intro careful direct hc hd
    obtain ⟨-, tree, htree, hc⟩ := ofText_eq_ok.mp hc
    obtain ⟨-, hd⟩ := ofTextByShape?_eq_some.mp hd
    have hc := shape_of_ofJson (keysApart_of_clean htree) hc
    exact ((hagrees.concur htree).same hd hc).symm
  · intro schema hc hk
    obtain ⟨hstop, tree, htree, hc⟩ := ofText_eq_ok.mp hc
    have hc := shape_of_ofJson (keysApart_of_clean htree) hc
    exact ofTextByShape?_eq_some.mpr ⟨hstop, (hagrees.concur htree).accepts hk hc⟩

end Schema

/-- A list of shelves; each leads from names to numbers. -/
def shelvesSchema : Schema where
  types := Table.ofList [
    ("Shelves", .list ⟨.map ⟨"String", .named "Int", false, .map⟩, true, .list⟩)]

def shelvesDefinition : String :=
  "\x7b\"list\":\x7b\"valueType\":\x7b\"map\":\x7b\"keyType\":\"String\",\"valueType\":\"Int\"" ++
    "\x7d\x7d,\"valueNullable\":true\x7d\x7d"

def shelvesText : String :=
  "\x7b\"types\":\x7b\"Shelves\":" ++ shelvesDefinition ++ "\x7d\x7d"

/-- A text that defines the type twice. -/
def repeatedText : String :=
  "\x7b\"types\":\x7b\"Shelves\":\x7b\"bool\":\x7b\x7d\x7d,\"Shelves\":" ++ shelvesDefinition ++
    "\x7d\x7d"

/-- Without repeated keys both ways load the schema; of two definitions both take the last. -/
theorem loads_alike_shelves :
    Schema.ofTextByShape? shelvesText = some shelvesSchema ∧
      (Schema.ofText repeatedText).toOption = Schema.ofTextByShape? repeatedText := by
  constructor
  · have hloaded : (Schema.ofText shelvesText).toOption = some shelvesSchema := by decide +kernel
    exact (Schema.loads_alike shelvesText).2 shelvesSchema (Outcome.toOption_eq_some.mp hloaded)
      (by decide +kernel)
  · have hcareful : (Schema.ofText repeatedText).toOption.isSome = true := by decide +kernel
    have hdirect : (Schema.ofTextByShape? repeatedText).isSome = true := by decide +kernel
    obtain ⟨careful, hc⟩ := Option.isSome_iff_exists.mp hcareful
    obtain ⟨direct, hd⟩ := Option.isSome_iff_exists.mp hdirect
    rw [hc, hd, (Schema.loads_alike repeatedText).1 careful direct
      (Outcome.toOption_eq_some.mp hc) hd]

end LinkedSchema
