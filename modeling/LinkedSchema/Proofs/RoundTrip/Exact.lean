import LinkedSchema.Proofs.RoundTrip.Likeness
import LinkedSchema.Proofs.RoundTrip.Schema
import LinkedSchema.Proofs.RoundTrip.Undoing

namespace LinkedSchema

/-- Whether null is among the representations of the type: it is of kind null, or a union that may
have such a member. -/
def Node.writesNull : Node → Bool
  | kind member => member = .null
  | union _ (.kinded _) => true
  | _ => false

theorem Strategy.exists_kinded_of_wrap? {strategy : Strategy} {place : Nat} {content : Value}
    (h : strategy.wrap? place content = some .null) : ∃ table, strategy = kinded table := by
  cases strategy with
  | kinded table => exact ⟨table, rfl⟩
  | keyed table => simp [wrap?] at h
  | envelope discriminantKey contentKey table => simp [wrap?] at h
  | inlined discriminantKey table =>
    simp only [wrap?] at h
    split at h
    · split at h <;> cases h
    · cases h
  | stringPrefix table =>
    simp only [wrap?] at h
    split at h <;> cases h
  | bytesPrefix table =>
    simp only [wrap?] at h
    split at h <;> cases h

theorem Node.writesNull_of_write {node : Node} {part : PartOutcome} {typed : Value}
    (hw : node.WellFormed) (hu : node.Untransformed)
    (h : node.plain .toRepresentation part typed = .ok .null) : node.writesNull = true := by
  cases node with
  | kind member =>
    obtain ⟨ha, rfl⟩ := plain_kind_eq_ok_iff.mp h
    exact decide_eq_true (Kind.of_eq_of_admits ha).symm
  | list items =>
    obtain ⟨_, _, _, hr, _⟩ := Plain.list_eq_ok_iff.mp h
    cases hr
  | map values =>
    obtain ⟨_, _, _, hr, _⟩ := Plain.map_eq_ok_iff.mp h
    cases hr
  | pairs values =>
    obtain ⟨_, _, _, hr, _⟩ := Plain.writePairs_eq_ok_iff.mp h
    cases hr
  | structMap layout =>
    obtain ⟨typed, rfl⟩ := Plain.exists_map_of_writeStruct h
    obtain ⟨_, hr, _⟩ := Plain.writeStruct_eq_ok hw.names hw.keys h
    cases hr
  | structTuple fields =>
    obtain ⟨_, _, _, hr, _⟩ := Plain.writeTuple_eq_ok_iff.mp h
    cases hr
  | union members strategy =>
    obtain ⟨_, _, _, _, _, _, _, hwrap⟩ := (writePlainUnion_eq_ok_iff hw.1).mp h
    obtain ⟨table, rfl⟩ := Strategy.exists_kinded_of_wrap? hwrap
    rfl
  | enum members =>
    obtain ⟨_, _, hm⟩ := (writePlainEnum_eq_ok_iff hw.names).mp h
    rcases hw.scalars _ hm with ⟨_, hs⟩ | ⟨_, hs⟩ <;> cases hs
  | custom name transform => exact hu.elim

namespace Registry

variable {registry : Registry}

/-- Null may stand only in the place of types that have no null of their own. -/
theorem Sound.nullApart (hs : registry.Sound)
    (h : ∀ slot node, registry.node? slot = some node → ∀ type ∈ node.parts,
      type.nullable = true → ∀ target, registry.node? type.slot = some target →
        target.writesNull = false) : registry.NullApart := by
  intro slot node hn type hm hnull typed hw
  obtain ⟨most, hw⟩ := hs.wellFormed.outcome_eq_ok_iff.mp hw
  obtain ⟨_, target, _, ht, hw⟩ := hs.wellFormed.exists_of_outcomeUpTo hw
  have := Node.writesNull_of_write (hs.wellFormed _ target ht) (hs.untransformed _ target ht) hw
  rw [h slot node hn type hm hnull target ht] at this
  cases this

/-- What holds of all types in slots. -/
theorem forall_node?_of_all {p : Node → Bool}
    (h : registry.nodes.all (fun node => node.all p) = true) (slot : Slot) (node : Node)
    (hn : registry.node? slot = some node) : p node = true := by
  obtain ⟨hlt, he⟩ := Array.getElem?_eq_some_iff.mp (Option.join_eq_some_iff.mp hn)
  have := Array.all_eq_true.mp h slot hlt
  rwa [he] at this

end Registry

/-- A figure with a note under swapped keys, a mark by number and maybe another figure behind it;
figures in a list of pairs, with nothing in the place of some. -/
def figureSchema : Schema where
  types := Table.ofList [
    ("Mark", .enum ⟨["Plain", "Bold"], .int (Table.ofList [("Plain", 0), ("Bold", 1)])⟩),
    ("Circle", .struct ⟨Table.ofList [("radius", ⟨.named "Int", false, false⟩)], .map ∅⟩),
    ("Point", .struct ⟨∅, .map ∅⟩),
    ("Shape", .union ⟨["Circle", "Point"],
      .inlined "shape" (Table.ofList [("circle", "Circle"), ("point", "Point")])⟩),
    ("Figure", .struct ⟨Table.ofList [("title", ⟨.named "String", false, false⟩),
      ("note", ⟨.named "Mark", true, false⟩), ("shape", ⟨.named "Shape", false, false⟩),
      ("behind", ⟨.named "Figure", true, true⟩)],
      .map (Table.ofList [("title", ⟨some "note", none⟩), ("note", ⟨some "title", none⟩)])⟩),
    ("Gallery", .map ⟨"String", .named "Figure", true, .listPairs⟩)]

def figureGiven : Value :=
  .map (.ofList [("note", .string "a"), ("title", .int 1), ("behind", .null),
    ("shape", .map (.ofList [("shape", .string "circle"), ("radius", .int 2)]))])

def figureTyped : Value :=
  .map (.ofList [("title", .string "a"), ("note", .string "Bold"), ("behind", .null),
    ("shape", .map (.ofList [("Circle", .map (.ofList [("radius", .int 2)]))]))])

variable {schema : Schema} {root : String} {transformer : Transformer} {given typed : Value}

/-- What is read is written as it was given. -/
theorem read_write (h : Source.create ⟨schema, ∅⟩ root = .ok transformer)
    (hp : transformer.registry.Unpaired) (he : transformer.registry.Explicit)
    (hr : (transformer.toTyped given).result given = .ok typed) :
    ∃ shown, (transformer.toRepresentation typed).result typed = .ok shown ∧
      shown = given ∧ shown.same given = true := by
  have hs := Source.sound_create h
  obtain ⟨most, hread⟩ := hs.wellFormed.outcome_eq_ok_iff.mp hr
  exact ⟨given, hs.written_of_read he hp hr, rfl, hs.same_self_of_read hread⟩

/-- Keys are swapped, a discriminant is removed and put back, and an enum gets its number again. -/
theorem read_write_figure : ∃ transformer,
    Source.create ⟨figureSchema, ∅⟩ "Figure" = .ok transformer ∧
      transformer.registry.Unpaired ∧ transformer.registry.Explicit ∧
        (transformer.toTyped figureGiven).result figureGiven = .ok figureTyped ∧
          ∃ shown, (transformer.toRepresentation figureTyped).result figureTyped = .ok shown ∧
            shown = figureGiven ∧ shown.same figureGiven = true := by
  have hrun : (Source.create ⟨figureSchema, ∅⟩ "Figure").toOption.any (fun transformer =>
      transformer.registry.nodes.all (fun node => node.all fun node =>
        (match node with | .pairs _ => false | _ => true) &&
          node.fields.all fun field => field.implicit = none) &&
      (transformer.toTyped figureGiven).result figureGiven = .ok figureTyped) = true := by
    decide +kernel
  cases hc : Source.create ⟨figureSchema, ∅⟩ "Figure" with
  | error error =>
    rw [hc] at hrun
    cases hrun
  | ok transformer =>
    rw [hc] at hrun
    obtain ⟨hnodes, hr⟩ := Bool.and_eq_true_iff.mp hrun
    have hr := of_decide_eq_true hr
    have hnodes := Registry.forall_node?_of_all hnodes
    have hp : transformer.registry.Unpaired := by
      intro slot values hn
      exact absurd (hnodes slot _ hn) nofun
    have he : transformer.registry.Explicit := by
      intro slot node hn field hm
      obtain ⟨-, hfields⟩ := Bool.and_eq_true_iff.mp (hnodes slot node hn)
      exact of_decide_eq_true (List.all_eq_true.mp hfields field hm)
    exact ⟨transformer, rfl, hp, he, hr, read_write hc hp he hr⟩

/-- What is written is read as it was, and typed values with one representation are one value. -/
theorem write_read (h : Source.create ⟨schema, ∅⟩ root = .ok transformer)
    (he : transformer.registry.Explicit) (hn : transformer.registry.NullApart)
    (hw : (transformer.toRepresentation typed).result typed = .ok given) :
    (∃ again, (transformer.toTyped given).result given = .ok again ∧
      again = typed ∧ again.same typed = true) ∧
    ∀ other found, (transformer.toRepresentation other).result other = .ok found →
      (given = found → typed = other) ∧ (given.same found = true → typed.same other = true) := by
  have hs := Source.sound_create h
  have hread := hs.read_of_written he hn hw
  constructor
  · obtain ⟨shown, again, hshown, hagain, hsame⟩ := hs.rereads hread
    obtain rfl : given = shown := Except.ok.inj (hw.symm.trans hshown)
    obtain rfl : typed = again := Except.ok.inj (hread.symm.trans hagain)
    exact ⟨typed, hread, rfl, hsame⟩
  · intro other found hother
    have hfound := hs.read_of_written he hn hother
    refine ⟨fun heq => ?_, fun hsame => hs.same_of_read hsame hread hfound⟩
    subst heq
    exact Except.ok.inj (hread.symm.trans hfound)

/-- The figures of a gallery are listed by their names, those of which there is nothing too. -/
theorem write_read_gallery : ∃ transformer,
    Source.create ⟨figureSchema, ∅⟩ "Gallery" = .ok transformer ∧
      transformer.registry.Explicit ∧ transformer.registry.NullApart ∧
        ∃ typed given, typed = .map (.ofList [("b", figureTyped), ("a", .null)]) ∧
          given = .list [.list [.string "a", .null], .list [.string "b", figureGiven]] ∧
            (transformer.toRepresentation typed).result typed = .ok given ∧
            (∃ again, (transformer.toTyped given).result given = .ok again ∧
              again = typed ∧ again.same typed = true) ∧
            ∀ other found, (transformer.toRepresentation other).result other = .ok found →
              (given = found → typed = other) ∧
                (given.same found = true → typed.same other = true) := by
  have hrun : (Source.create ⟨figureSchema, ∅⟩ "Gallery").toOption.any (fun transformer =>
      transformer.registry.nodes.all (fun node => node.all fun node =>
        (node.fields.all fun field => field.implicit = none) &&
          node.parts.all fun type => !type.nullable ||
            (transformer.registry.node? type.slot).all fun target => !target.writesNull) &&
      (transformer.toRepresentation (.map (.ofList [("b", figureTyped), ("a", .null)]))).result
          (.map (.ofList [("b", figureTyped), ("a", .null)])) =
        .ok (.list [.list [.string "a", .null], .list [.string "b", figureGiven]])) = true := by
    decide +kernel
  cases hc : Source.create ⟨figureSchema, ∅⟩ "Gallery" with
  | error error =>
    rw [hc] at hrun
    cases hrun
  | ok transformer =>
    rw [hc] at hrun
    obtain ⟨hnodes, hw⟩ := Bool.and_eq_true_iff.mp hrun
    have hw := of_decide_eq_true hw
    have hnodes := Registry.forall_node?_of_all hnodes
    have he : transformer.registry.Explicit := by
      intro slot node hn field hm
      obtain ⟨hfields, -⟩ := Bool.and_eq_true_iff.mp (hnodes slot node hn)
      exact of_decide_eq_true (List.all_eq_true.mp hfields field hm)
    have ha : transformer.registry.NullApart := by
      refine (Source.sound_create hc).nullApart fun slot node hn type hm hnull target ht => ?_
      obtain ⟨-, hparts⟩ := Bool.and_eq_true_iff.mp (hnodes slot node hn)
      have := List.all_eq_true.mp hparts type hm
      simpa [hnull, ht] using this
    exact ⟨transformer, rfl, he, ha, _, _, rfl, rfl, hw, write_read hc he ha hw⟩

end LinkedSchema
