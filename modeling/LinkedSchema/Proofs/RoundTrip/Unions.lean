import LinkedSchema.Proofs.Compile.Provenance
import LinkedSchema.Proofs.RoundTrip.Members

namespace LinkedSchema

/-- A value that is tagged with the name of its member. -/
def Member.tagged (member : Member) (content : Value) : Value :=
  .map (SortedMap.singleton member.name content)

theorem Member.tagged_injective {member other : Member} {content value : Value}
    (h : member.tagged content = other.tagged value) :
    member.name = other.name ∧ content = value := by
  have hu : some (member.name, content) = some (other.name, value) := congrArg Plain.untag? h
  simpa using hu

namespace Node

variable {members : List Member} {strategy : Strategy} {part reading : PartOutcome}
  {typed content shown : Value}

/-- What was written for a member shows this member, and what the member made of its value. -/
theorem exists_given_of_writePlainUnion (hw : (Node.union members strategy).WellFormed)
    {member : Member} (hm : member ∈ members)
    (h : writePlainUnion members strategy part (member.tagged content) = .ok shown) :
    ∃ place given, members[place]? = some member ∧ part member.slot content = .ok given ∧
      strategy.select? shown = some (place, given) := by
  obtain ⟨hn, hs⟩ := hw
  obtain ⟨place, value, other, given, ht, hp, hc, hshown⟩ := (writePlainUnion_eq_ok_iff hn).mp h
  obtain ⟨hname, rfl⟩ := Member.tagged_injective ht
  -- Names tell members apart, so the member that was written is the given one.
  have ho : other ∈ members := List.mem_of_getElem? hp
  have heq : member = other := List.inj_on_of_nodup_map hn hm ho hname
  subst heq
  exact ⟨place, given, hp, hc, Strategy.select?_of_wrap? hs hshown⟩

theorem readPlainUnion_of_select? {place : Nat} {member : Member} {given : Value}
    (hp : members[place]? = some member) (hs : strategy.select? shown = some (place, given)) :
    readPlainUnion members strategy reading shown =
      (reading member.slot given).map member.tagged := by
  simp only [readPlainUnion, hs, hp, Plain.tag, Outcome.pure_eq]
  cases reading member.slot given <;> rfl

end Node

/-- The union in a slot reads what it wrote for a member as the member does, and tags the result. -/
theorem Registry.WellFormed.reads_member {registry : Registry} (hw : registry.WellFormed)
    {slot : Slot} {members : List Member} {strategy : Strategy} {member : Member}
    {content shown : Value} (hn : registry.node? slot = some (.union members strategy))
    (hm : member ∈ members)
    (h : registry.outcome .toRepresentation slot (member.tagged content) = .ok shown) :
    ∃ given, registry.outcome .toRepresentation member.slot content = .ok given ∧
      registry.outcome .toTyped slot shown =
        (registry.outcome .toTyped member.slot given).map member.tagged := by
  rw [hw.outcome_eq_plain hn, Node.plain] at h
  obtain ⟨place, given, hp, hc, hs⟩ :=
    Node.exists_given_of_writePlainUnion (hw slot _ hn) hm h
  refine ⟨given, hc, ?_⟩
  rw [hw.outcome_eq_plain hn]
  exact Node.readPlainUnion_of_select? hp hs

open Compilation

variable {source : Source} {calls : List Call} {after : Registry}

/-- The members of a compiled union are the types of their names. -/
theorem exists_transformer_of_member (h : Gives (calls.forM source.perform) ∅ () after)
    {slot : Slot} {members : List Member} {strategy : Strategy} {member : Member}
    (hn : after.node? slot = some (.union members strategy)) (hm : member ∈ members) :
    after.transformer? member.name = some ⟨member.name, member.slot, after⟩ := by
  obtain ⟨name, hc⟩ := compiledFrom_of_calls h hn
  cases hc with
  | defined _ _ hb =>
    cases hb with
    | union hs hnames hmembers =>
      obtain ⟨other, -, rfl, hslot⟩ := exists_mem_of_forall₂ hmembers.flip member hm
      exact Registry.transformer?_eq_some_iff.mpr ⟨_, hslot, rfl⟩
    | enum he =>
      obtain ⟨_, _, _, hne⟩ := EnumDefn.compile_eq_ok_iff.mp he
      cases hne

/-- What a compiled union writes for a member was made by the conversion of this member, and it is
read as the member reads it, tagged with the member, or not at all for the reason that the member
gives. -/
theorem reads_member_of_writes (h : Gives (calls.forM source.perform) ∅ () after) {name : String}
    {union : Transformer} (hu : after.transformer? name = some union) {members : List Member}
    {strategy : Strategy} (hn : after.node? union.slot = some (.union members strategy))
    {member : Member} (hm : member ∈ members) :
    ∃ own, after.transformer? member.name = some own ∧ ∀ content shown : Value,
      (union.toRepresentation (member.tagged content)).result (member.tagged content) = .ok shown →
        ∃ given, (own.toRepresentation content).result content = .ok given ∧
          (union.toTyped shown).result shown =
            ((own.toTyped given).result given).map member.tagged := by
  obtain ⟨slot, -, rfl⟩ := Registry.transformer?_eq_some_iff.mp hu
  exact ⟨_, exists_transformer_of_member h hn hm, fun content shown hshown =>
    (wellFormed_of_calls h).reads_member hn hm hshown⟩

/-- A seal is shown by a word, and one of the words that may stand for it is refused. -/
def sealTransform : CustomTransform where
  toTyped := some fun
    | .string "whole" => .ok (some (.bool true))
    | .string "broken" => .error "the seal is broken"
    | _ => .ok none
  toRepresentation := some fun
    | .bool true => .ok (some (.string "whole"))
    | .bool false => .ok (some (.string "broken"))
    | _ => .ok none

/-- Marks are notes, or seals that a transform converts. -/
def markSource : Source where
  schema := { types := Table.ofList [
    ("Mark", .union ⟨["Seal", "String"],
      .stringPrefix (Table.ofList [("seal:", "Seal"), ("note:", "String")])⟩)] }
  custom := Table.ofList [("Seal", sealTransform)]

def markRegistry : Registry :=
  (Registry.after ∅ ([Call.all].forM markSource.perform)).2

/-- A broken seal can be written. It is read as a seal, not as a note, and the transform of seals
says what is wrong with it. -/
theorem reads_member_of_writes_seal :
    Gives ([Call.all].forM markSource.perform) ∅ () markRegistry ∧
      ∃ union own : Transformer, ∃ member : Member,
        markRegistry.transformer? "Mark" = some union ∧
        markRegistry.transformer? "Seal" = some own ∧
        (union.toRepresentation (member.tagged (.bool false))).result
          (member.tagged (.bool false)) = .ok (.string "seal:broken") ∧
        ∃ given, (own.toRepresentation (.bool false)).result (.bool false) = .ok given ∧
          (union.toTyped (.string "seal:broken")).result (.string "seal:broken") =
            ((own.toTyped given).result given).map member.tagged := by
  have hok : (Registry.after ∅ ([Call.all].forM markSource.perform)).1 = .ok () := by decide +kernel
  have h : Gives ([Call.all].forM markSource.perform) ∅ () markRegistry := Prod.ext hok rfl
  have hslot : markRegistry.slot? "Mark" = some 0 := by decide +kernel
  have hu := Registry.transformer?_eq_some_iff.mpr ⟨0, hslot, rfl⟩
  have hn : markRegistry.node? 0 = some (.union [⟨"Seal", 1⟩, ⟨"String", 2⟩]
      (.stringPrefix [("seal:", 0), ("note:", 1)])) := rfl
  have hwrite : ((Transformer.mk "Mark" 0 markRegistry).toRepresentation
      (.map (.ofList [("Seal", .bool false)]))).result (.map (.ofList [("Seal", .bool false)])) =
        .ok (.string "seal:broken") := by
    decide +kernel
  obtain ⟨own, ho, hown⟩ := reads_member_of_writes h hu hn (List.mem_cons_self ..)
  exact ⟨h, _, own, ⟨"Seal", 1⟩, hu, ho, hwrite, hown _ _ hwrite⟩

end LinkedSchema
