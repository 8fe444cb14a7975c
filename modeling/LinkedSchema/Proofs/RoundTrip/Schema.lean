import LinkedSchema.Proofs.Compile.Success
import LinkedSchema.Proofs.Numbers.Passing
import LinkedSchema.Proofs.RoundTrip.Rewriting

namespace LinkedSchema

/-- An implicit value was read from a literal. -/
theorem Built.exists_literal {slotOf : String → Option Slot} {typed : Reading} {owner : String}
    {defn : TypeDefn} {node : Node} {field : Field} {value : Value}
    (h : Built slotOf typed owner defn node) (hi : node.Implies field value) :
    ∃ literal : Value, literal.IsLiteral ∧ typed field.type.slot literal value := by
  cases h with
  | structMap hr hd hf hk =>
    obtain ⟨hm, himplicit⟩ := hi
    rw [StructMap.values_ofFields (by rw [BuiltField.names hf]; exact Table.nodup _)] at hm
    obtain ⟨entry, hb⟩ := exists_of_forall₂ hf.flip field hm
    obtain ⟨_, literal, -, hs, ht⟩ := hb.exists_json himplicit
    exact ⟨literal, isLiteral_of_scalar? hs, ht⟩
  | enum h =>
    obtain ⟨_, _, _, rfl⟩ := EnumDefn.compile_eq_ok_iff.mp h
    exact hi.elim
  | _ => exact hi.elim

/-- Types that were built from definitions take no transform, and implicit values from scalars. -/
theorem Registry.sound_of_built {registry : Registry} (hw : registry.WellFormed)
    (hbuilt : ∀ slot node, registry.node? slot = some node →
      ∃ owner defn, Built registry.slot? registry.Types owner defn node) : registry.Sound := by
  refine ⟨hw, fun slot node hn => ?_, fun slot node field value hn hi => ?_⟩
  · obtain ⟨owner, defn, hb⟩ := hbuilt slot node hn
    exact hb.untransformed
  · obtain ⟨owner, defn, hb⟩ := hbuilt slot node hn
    obtain ⟨literal, hl, ht⟩ := hb.exists_literal hi
    exact ⟨literal, hl, hw.outcome_eq_ok_iff.mp ht⟩

theorem Source.Made.sound {schema : Schema} {registry : Registry}
    (h : Source.Made ⟨schema, ∅⟩ registry) : registry.Sound := by
  refine Registry.sound_of_built h.wellFormed fun slot node hn => ?_
  obtain ⟨owner, _, hc⟩ := h slot node hn
  cases hc with
  | custom hc => cases hc
  | built _ _ hb => exact ⟨owner, _, hb⟩

theorem Source.sound_create {schema : Schema} {root : String} {transformer : Transformer}
    (h : Source.create ⟨schema, ∅⟩ root = .ok transformer) : transformer.registry.Sound :=
  (Made.empty.moves (compiles_create h).moves).sound

/-- Labels in a chain, each with a mark that is known from its absence. -/
def chainSchema : Schema where
  types := Table.ofList [
    ("Mark", .union ⟨["Int", "String"],
      .kinded (Table.ofList [("int", "Int"), ("string", "String")])⟩),
    ("Chain", .struct ⟨Table.ofList [("label", ⟨.named "String", false, false⟩),
      ("mark", ⟨.named "Mark", false, false⟩), ("next", ⟨.named "Chain", true, true⟩)],
      .map (Table.ofList [("label", ⟨some "l", none⟩), ("mark", ⟨none, some (.string "m")⟩)])⟩)]

/-- Two labels, the first with the mark that absence would give it. -/
def chainGiven : Value :=
  .map (.ofList [("l", .string "a"), ("mark", .string "m"),
    ("next", .map (.ofList [("l", .string "b")]))])

/-- A label without its mark. -/
def chainTyped : Value :=
  .map (.ofList [("label", .string "a"), ("next", .null)])

variable {schema : Schema} {root : String} {transformer : Transformer} {given typed : Value}

/-- What is read can be written, and what is written then can be read with an equal result. -/
theorem read_write_read (h : Source.create ⟨schema, ∅⟩ root = .ok transformer)
    (hr : (transformer.toTyped given).result given = .ok typed) :
    ∃ shown again, (transformer.toRepresentation typed).result typed = .ok shown ∧
      (transformer.toTyped shown).result shown = .ok again ∧ again.same typed = true :=
  (Source.sound_create h).rereads hr

/-- The mark that need not be given is left out when it is written. -/
theorem read_write_read_chain : ∃ transformer,
    Source.create ⟨chainSchema, ∅⟩ "Chain" = .ok transformer ∧
      ∃ typed shown again, (transformer.toTyped chainGiven).result chainGiven = .ok typed ∧
        (transformer.toRepresentation typed).result typed = .ok shown ∧
        (transformer.toTyped shown).result shown = .ok again ∧ again.same typed = true := by
  have hrun : (Source.create ⟨chainSchema, ∅⟩ "Chain").toOption.any (fun transformer =>
      (transformer.toTyped chainGiven).result chainGiven =
        .ok (.map (.ofList [("label", .string "a"),
          ("mark", .map (.ofList [("String", .string "m")])),
          ("next", .map (.ofList [("label", .string "b"),
            ("mark", .map (.ofList [("String", .string "m")]))]))]))) = true := by
    decide +kernel
  cases hc : Source.create ⟨chainSchema, ∅⟩ "Chain" with
  | error error =>
    rw [hc] at hrun
    cases hrun
  | ok transformer =>
    rw [hc] at hrun
    have hr := of_decide_eq_true hrun
    obtain ⟨shown, again, hagain⟩ := read_write_read hc hr
    exact ⟨transformer, rfl, _, shown, again, hr, hagain⟩

/-- What is written can be read, and what is read then is written as it was. -/
theorem write_read_write (h : Source.create ⟨schema, ∅⟩ root = .ok transformer)
    (hw : (transformer.toRepresentation typed).result typed = .ok given) :
    ∃ again shown, (transformer.toTyped given).result given = .ok again ∧
      (transformer.toRepresentation again).result again = .ok shown ∧
        shown = given ∧ shown.same given = true := by
  have hs := Source.sound_create h
  obtain ⟨again, hr, hw⟩ := hs.rewrites hw
  obtain ⟨most, hread⟩ := hs.wellFormed.outcome_eq_ok_iff.mp hr
  exact ⟨again, given, hr, hw, rfl, hs.same_self_of_read hread⟩

/-- The value that is read has the mark that the written one lacked. -/
theorem write_read_write_chain : ∃ transformer,
    Source.create ⟨chainSchema, ∅⟩ "Chain" = .ok transformer ∧
      ∃ given again shown,
        (transformer.toRepresentation chainTyped).result chainTyped = .ok given ∧
        (transformer.toTyped given).result given = .ok again ∧
        (transformer.toRepresentation again).result again = .ok shown ∧
          shown = given ∧ shown.same given = true := by
  have hrun : (Source.create ⟨chainSchema, ∅⟩ "Chain").toOption.any (fun transformer =>
      (transformer.toRepresentation chainTyped).result chainTyped =
        .ok (.map (.ofList [("l", .string "a"), ("next", .null)]))) = true := by
    decide +kernel
  cases hc : Source.create ⟨chainSchema, ∅⟩ "Chain" with
  | error error =>
    rw [hc] at hrun
    cases hrun
  | ok transformer =>
    rw [hc] at hrun
    have hw := of_decide_eq_true hrun
    obtain ⟨again, shown, hshown⟩ := write_read_write hc hw
    exact ⟨transformer, rfl, _, again, shown, hw, hshown⟩

end LinkedSchema
