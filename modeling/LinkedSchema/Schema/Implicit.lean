import LinkedSchema.Schema.Basic

namespace LinkedSchema

/-- The names of the implicit types. -/
def implicitTypeNames : List String :=
  ["Null", "Bool", "Int", "Float", "String", "Bytes", "Link", "AnyScalar", "AnyMap", "AnyList",
    "Any"]

/-- A union whose members are selected by the kind of the value. -/
def kindedUnion (table : List (String × String)) : TypeDefn :=
  .union ⟨table.map Prod.snd, .kinded (Table.ofList table)⟩

/-- The union of the scalars that are neither null nor links. -/
def scalarMembers : List (String × String) :=
  [("bool", "Bool"), ("string", "String"), ("bytes", "Bytes"), ("int", "Int"), ("float", "Float")]

/-- The definition of an implicit type. -/
def implicitType? : String → Option TypeDefn
  | "Null" => some .null
  | "Bool" => some .bool
  | "Int" => some .int
  | "Float" => some .float
  | "String" => some .string
  | "Bytes" => some .bytes
  | "Link" => some (.link {})
  | "AnyScalar" => some (kindedUnion scalarMembers)
  | "AnyMap" => some (.map ⟨"String", .named "Any", true, .map⟩)
  | "AnyList" => some (.list ⟨.named "Any", true, .list⟩)
  | "Any" =>
    some (kindedUnion (scalarMembers ++
      [("null", "Null"), ("link", "Link"), ("map", "AnyMap"), ("list", "AnyList")]))
  | _ => none

theorem mem_implicitTypeNames {name : String} {defn : TypeDefn}
    (h : implicitType? name = some defn) : name ∈ implicitTypeNames := by
  unfold implicitType? at h
  split at h <;> first | decide | cases h

end LinkedSchema
