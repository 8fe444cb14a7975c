import LinkedSchema.Compilation
import LinkedSchema.Proofs.Numbers.Inside
import LinkedSchema.Proofs.Plain.Steps
import LinkedSchema.Proofs.RoundTrip.Entries
import LinkedSchema.Proofs.RoundTrip.Fields
import LinkedSchema.Proofs.RoundTrip.Members

namespace LinkedSchema

/-- A value that a schema can give for an absent field. -/
structure Value.IsLiteral (value : Value) : Prop where
  scalar : (Kind.of value).isScalar = true
  ne_null : value ≠ .null

theorem isLiteral_of_scalar? {json : Json Empty} {literal : Value}
    (h : scalar? json = some literal) : literal.IsLiteral := by
  unfold scalar? at h
  split at h <;> cases h <;> exact ⟨rfl, nofun⟩

namespace Plain

variable {part : PartOutcome} {fields : List Field} {convert : Value → Outcome}
  {value result : Value}

theorem exists_map_of_readStruct {rules : List FieldRule}
    (h : readStruct rules value = .ok result) : ∃ given, value = .map given := by
  cases value with
  | map given => exact ⟨given, rfl⟩
  | _ => cases h

theorem exists_map_of_writeStruct {rules : List FieldRule}
    (h : writeStruct rules value = .ok result) : ∃ typed, value = .map typed := by
  cases value with
  | map typed => exact ⟨typed, rfl⟩
  | _ => cases h

end Plain

theorem Strategy.admits_of_select? {strategy : Strategy} {value content : Value} {place : Nat}
    (h : strategy.select? value = some (place, content)) : (Kind.of value).admits value = true := by
  cases selects_of_select? h with
  | kinded ha => exact ha
  | _ => rfl

theorem Strategy.isScalar_of_select? {strategy : Strategy} {value content : Value} {place : Nat}
    (h : strategy.select? value = some (place, content)) (hv : (Kind.of value).isScalar = true) :
    (Kind.of content).isScalar = true := by
  cases selects_of_select? h with
  | kinded => exact hv
  | stringPrefix => rfl
  | bytesPrefix => rfl
  | _ => cases hv

namespace Node

/-- An absent field of a struct has the value. -/
def Implies (node : Node) (field : Field) (value : Value) : Prop :=
  match node with
  | structMap layout => field ∈ layout.fields.values ∧ field.implicit = some value
  | _ => False

variable {node : Node} {part : PartOutcome} {value result : Value}

/-- Nothing but null is read as null. -/
theorem eq_null_of_read (hw : node.WellFormed) (hu : node.Untransformed)
    (h : node.plain .toTyped part value = .ok .null) : value = .null := by
  cases node with
  | kind member => exact (plain_kind_eq_ok_iff.mp h).2.symm
  | list items =>
    obtain ⟨_, _, _, hr, _⟩ := Plain.list_eq_ok_iff.mp h
    cases hr
  | map values =>
    obtain ⟨_, _, _, hr, _⟩ := Plain.map_eq_ok_iff.mp h
    cases hr
  | pairs values =>
    obtain ⟨_, _, _, hr, _⟩ := Plain.readPairs_eq_ok_iff.mp h
    cases hr
  | structMap layout =>
    obtain ⟨given, rfl⟩ := Plain.exists_map_of_readStruct h
    obtain ⟨_, hr, _⟩ := Plain.readStruct_eq_ok hw.names hw.keys h
    cases hr
  | structTuple fields =>
    obtain ⟨_, _, _, hr, _⟩ := Plain.readTuple_eq_ok hw.1 h
    cases hr
  | union members strategy =>
    obtain ⟨_, _, _, _, _, _, _, hr⟩ := readPlainUnion_eq_ok_iff.mp h
    cases hr
  | enum members =>
    obtain ⟨_, _, hr⟩ := (readPlainEnum_eq_ok_iff hw).mp h
    cases hr
  | custom name transform => exact hu.elim

/-- What can be read is no number that is not finite. -/
theorem admits_of_read (hw : node.WellFormed) (hu : node.Untransformed)
    (h : node.plain .toTyped part value = .ok result) : (Kind.of value).admits value = true := by
  cases node with
  | kind member => exact (Kind.admits_iff.mp (plain_kind_eq_ok_iff.mp h).1).2
  | list items =>
    obtain ⟨_, _, rfl, _, _⟩ := Plain.list_eq_ok_iff.mp h
    rfl
  | map values =>
    obtain ⟨_, _, rfl, _, _⟩ := Plain.map_eq_ok_iff.mp h
    rfl
  | pairs values =>
    obtain ⟨_, _, rfl, _, _⟩ := Plain.readPairs_eq_ok_iff.mp h
    rfl
  | structMap layout =>
    obtain ⟨given, rfl⟩ := Plain.exists_map_of_readStruct h
    rfl
  | structTuple fields =>
    obtain ⟨_, _, rfl, _, _⟩ := Plain.readTuple_eq_ok hw.1 h
    rfl
  | union members strategy =>
    obtain ⟨_, _, _, _, hs, _⟩ := readPlainUnion_eq_ok_iff.mp h
    exact Strategy.admits_of_select? hs
  | enum members =>
    obtain ⟨name, hm, _⟩ := (readPlainEnum_eq_ok_iff hw).mp h
    rcases hw.scalars _ hm with ⟨s, hs⟩ | ⟨n, hn⟩
    · rw [show value = .string s from hs]
      rfl
    · rw [show value = .int n from hn]
      rfl
  | custom name transform => exact hu.elim

/-- How a scalar is read: as it is, as the name of a member of an enum, or as a member of a union
that reads a scalar in its turn. -/
inductive ReadsScalar (part : PartOutcome) (value : Value) : Node → Value → Prop where
  | kind {kind : Kind} (hk : kind.isScalar = true) (ha : kind.admits value = true) :
      ReadsScalar part value (.kind kind) value
  | enum {members : List (String × Value)} {name : String} (hm : (name, value) ∈ members) :
      ReadsScalar part value (.enum members) (.string name)
  | union {members : List Member} {strategy : Strategy} {place : Nat} {content converted : Value}
      {member : Member} (hs : strategy.select? value = some (place, content))
      (hm : members[place]? = some member) (hc : part member.slot content = .ok converted)
      (hk : (Kind.of content).isScalar = true) :
      ReadsScalar part value (.union members strategy)
        (.map (SortedMap.singleton member.name converted))

theorem readsScalar (hw : node.WellFormed) (hu : node.Untransformed)
    (hv : (Kind.of value).isScalar = true) (h : node.plain .toTyped part value = .ok result) :
    ReadsScalar part value node result := by
  cases node with
  | kind member =>
    obtain ⟨ha, rfl⟩ := plain_kind_eq_ok_iff.mp h
    exact .kind hw ha
  | list items =>
    obtain ⟨_, _, rfl, _, _⟩ := Plain.list_eq_ok_iff.mp h
    cases hv
  | map values =>
    obtain ⟨_, _, rfl, _, _⟩ := Plain.map_eq_ok_iff.mp h
    cases hv
  | pairs values =>
    obtain ⟨_, _, rfl, _, _⟩ := Plain.readPairs_eq_ok_iff.mp h
    cases hv
  | structMap layout =>
    obtain ⟨given, rfl⟩ := Plain.exists_map_of_readStruct h
    cases hv
  | structTuple fields =>
    obtain ⟨_, _, rfl, _, _⟩ := Plain.readTuple_eq_ok hw.1 h
    cases hv
  | union members strategy =>
    obtain ⟨place, content, member, converted, hs, hm, hc, rfl⟩ := readPlainUnion_eq_ok_iff.mp h
    exact .union hs hm hc (Strategy.isScalar_of_select? hs hv)
  | enum members =>
    obtain ⟨name, hm, rfl⟩ := (readPlainEnum_eq_ok_iff hw).mp h
    exact .enum hm
  | custom name transform => exact hu.elim

end Node

namespace Registry

/-- No transform takes part, and every implicit value is the reading of a scalar. -/
structure Sound (registry : Registry) : Prop where
  wellFormed : registry.WellFormed
  untransformed : ∀ slot node, registry.node? slot = some node → node.Untransformed
  implicit : ∀ slot node field value, registry.node? slot = some node → node.Implies field value →
    ∃ literal : Value, literal.IsLiteral ∧
      ∃ most, registry.outcomeUpTo .toTyped most field.type.slot literal = .ok value

variable {registry : Registry} {direction : Direction} {most : Nat} {slot : Slot}
  {value result : Value}

theorem WellFormed.exists_of_outcomeUpTo (hw : registry.WellFormed)
    (h : registry.outcomeUpTo direction most slot value = .ok result) :
    ∃ less node, most = less + 1 ∧ registry.node? slot = some node ∧
      node.plain direction (registry.outcomeUpTo direction less) value = .ok result := by
  cases most with
  | zero => cases h
  | succ most =>
    cases hn : registry.node? slot with
    | none =>
      rw [outcomeUpTo_succ_of_none hn] at h
      cases h
    | some node =>
      rw [hw.outcomeUpTo_succ hn] at h
      exact ⟨most, node, rfl, rfl, h⟩

namespace Sound

theorem eq_null_of_read (hs : registry.Sound)
    (h : registry.outcomeUpTo .toTyped most slot value = .ok .null) : value = .null := by
  obtain ⟨_, node, _, hn, h⟩ := hs.wellFormed.exists_of_outcomeUpTo h
  exact Node.eq_null_of_read (hs.wellFormed slot node hn) (hs.untransformed slot node hn) h

theorem admits_of_read (hs : registry.Sound)
    (h : registry.outcomeUpTo .toTyped most slot value = .ok result) :
    (Kind.of value).admits value = true := by
  obtain ⟨_, node, _, hn, h⟩ := hs.wellFormed.exists_of_outcomeUpTo h
  exact Node.admits_of_read (hs.wellFormed slot node hn) (hs.untransformed slot node hn) h

theorem readsScalar (hs : registry.Sound) (hv : (Kind.of value).isScalar = true)
    (h : registry.outcomeUpTo .toTyped most slot value = .ok result) :
    ∃ less node, most = less + 1 ∧ registry.node? slot = some node ∧
      node.ReadsScalar (registry.outcomeUpTo .toTyped less) value result := by
  obtain ⟨less, node, he, hn, h⟩ := hs.wellFormed.exists_of_outcomeUpTo h
  exact ⟨less, node, he, hn,
    Node.readsScalar (hs.wellFormed slot node hn) (hs.untransformed slot node hn) hv h⟩

/-- A value that is read from a scalar is finite. -/
theorem finite_of_scalar (hs : registry.Sound) (hv : (Kind.of value).isScalar = true)
    (h : registry.outcomeUpTo .toTyped most slot value = .ok result) : result.Finite := by
  induction most generalizing slot value result with
  | zero => cases h
  | succ most ih =>
    obtain ⟨less, node, he, _, h⟩ := hs.readsScalar hv h
    cases he
    cases h with
    | kind hk ha => exact Value.finite_of_admits hk ha
    | enum => exact Value.finite_string _
    | union _ _ hc hk => exact Value.finite_singleton_iff.mpr (ih hk hc)

/-- The implicit values are finite, as they were read from scalars. -/
theorem finite_of_implies (hs : registry.Sound) {node : Node} {field : Field}
    (hn : registry.node? slot = some node) (hi : node.Implies field value) : value.Finite := by
  obtain ⟨literal, hl, most, h⟩ := hs.implicit slot node field value hn hi
  exact hs.finite_of_scalar hl.scalar h

theorem same_self_of_implies (hs : registry.Sound) {node : Node} {field : Field}
    (hn : registry.node? slot = some node) (hi : node.Implies field value) :
    value.same value = true :=
  (hs.finite_of_implies hn hi).same_self

end Sound

end Registry

end LinkedSchema
