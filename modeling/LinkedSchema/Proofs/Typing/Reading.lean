import LinkedSchema.Proofs.Compile.Apart
import LinkedSchema.Proofs.Compile.Provenance
import LinkedSchema.Proofs.Typing.Inhabits

namespace LinkedSchema

namespace Source

/-- A made-up name stands for one definition: what is in the place of a reference is all that the
name which is made up for it can have been compiled from. -/
def InlinesApart (source : Source) (registry : Registry) : Prop :=
  ∀ owner outer, source.Entered registry owner outer → (registry.slot? owner).isSome = true →
    source.custom.get? owner = none → ∀ part ∈ outer.parts, ∀ inner,
      part.2.inline? = some inner → ∀ other,
        source.Entered registry (part.2.nameIn owner part.1) other → other = inner

/-- The definition of a registered name: the one that its slot was built from, or that of a copy,
which shares the slot of the name that it copies. -/
inductive Defines (source : Source) (registry : Registry) (name : String) : TypeDefn → Prop where
  | built {defn : TypeDefn} (hd : source.Entered registry name defn)
      (hh : registry.Holds name defn) : Defines source registry name defn
  | copy {next : String} (hc : source.Copies registry name next)
      (hs : registry.slot? name = registry.slot? next) :
      Defines source registry name (.copy next)

/-- The name leads along copies to a definition of which the value has the typed form. -/
def Formed (source : Source) (registry : Registry) (name : String) (value : Value) : Prop :=
  ∃ target defn, Relation.ReflTransGen (source.Copies registry) name target ∧
    source.Entered registry target defn ∧ registry.Holds target defn ∧
      HasForm (source.Defines registry) defn value

variable {source : Source} {registry : Registry} {name next target owner : String}
  {outer defn : TypeDefn} {node : Node} {slot : Slot} {most : Nat} {value result : Value}

/-- It is enough that made-up names differ from one another and from the names of the schema. -/
theorem inlinesApart_of_nodup (hn : (source.inlines.map Prod.fst).Nodup)
    (hd : ∀ entry ∈ source.inlines, source.schema.types.get? entry.1 = none)
    (registry : Registry) : source.InlinesApart registry :=
  fun _ _ ho hs hc _ hp _ hi _ hother =>
    unambiguous_of_nodup hn hd _ _ _ hother.origin (Entered.inline ho hs hc hp hi).origin

theorem Copies.rightUnique (source : Source) (registry : Registry) :
    Relator.RightUnique (source.Copies registry) := by
  intro name next other h ho
  have hd := h.declared
  rw [ho.declared] at hd
  cases hd
  rfl

/-- Copies lead to one end. -/
theorem Copies.end_unique {last : String}
    (hl : Relation.ReflTransGen (source.Copies registry) name target)
    (hend : ∀ other, ¬ source.Copies registry target other)
    (hl' : Relation.ReflTransGen (source.Copies registry) name last)
    (hend' : ∀ other, ¬ source.Copies registry last other) : target = last := by
  have htotal := Relation.ReflTransGen.total_of_right_unique (rightUnique source registry) hl hl'
  rcases htotal with hle | hle
  · rcases Relation.ReflTransGen.cases_head hle with he | ⟨_, hstep, -⟩
    · exact he
    · exact absurd hstep (hend _)
  · rcases Relation.ReflTransGen.cases_head hle with he | ⟨_, hstep, -⟩
    · exact he.symm
    · exact absurd hstep (hend' _)

/-- What a slot was built from is no copy, whatever else its name may stand for. -/
theorem InlinesApart.not_copies (ha : source.InlinesApart registry)
    (hd : source.Entered registry name defn) (hh : registry.Holds name defn) :
    ¬ source.Copies registry name next := by
  intro hc
  have hcopy : defn = .copy next := by
    cases hd with
    | declared hd => exact Option.some.inj (hd.symm.trans hc.declared)
    | inline ho hs hcustom hp hi =>
      exact (ha _ _ ho hs hcustom _ hp _ hi _ (.declared hc.declared)).symm
  obtain ⟨_, _, -, -, hb⟩ := hh
  rw [hcopy] at hb
  cases hb

section Slots

variable (h : source.Provides ∅ registry) (hu : source.custom = ∅)

include h hu

/-- Without transforms, every slot of a name was built from what copies lead to. -/
theorem Provides.exists_built (hs : registry.slot? name = some slot) :
    ∃ target defn node, Relation.ReflTransGen (source.Copies registry) name target ∧
      source.Entered registry target defn ∧ registry.slot? target = some slot ∧
        registry.node? slot = some node ∧
          Built registry.slot? registry.Types target defn node := by
  obtain ⟨target, node, hl, ht, hn, hm⟩ := h.exists_leads hs
  cases hm with
  | custom hc =>
    rw [hu] at hc
    cases hc
  | defined _ hd hb => exact ⟨target, _, node, hl, hd, ht, hn, hb⟩

/-- A copy shares the slot of the name that it copies: both lead to where the copies end. -/
theorem Provides.slot?_eq_of_copies (ha : source.InlinesApart registry)
    (hc : source.Copies registry name next) : registry.slot? name = registry.slot? next := by
  obtain ⟨slot, hs⟩ := Option.isSome_iff_exists.mp hc.registered
  obtain ⟨target, defn, node, hl, hd, ht, hn, hb⟩ := h.exists_built hu hs
  have hend : ∀ other, ¬ source.Copies registry target other := fun other =>
    ha.not_copies hd ⟨slot, node, ht, hn, hb⟩
  rcases Relation.ReflTransGen.cases_head hl with rfl | ⟨other, hother, hl⟩
  · exact absurd hc (hend next)
  · obtain rfl := Copies.rightUnique source registry hc hother
    have hnext : (registry.slot? next).isSome = true := by
      rcases Relation.ReflTransGen.cases_head hl with rfl | ⟨_, hnext, -⟩
      · exact Option.isSome_of_eq_some ht
      · exact hnext.registered
    obtain ⟨found, hfound⟩ := Option.isSome_iff_exists.mp hnext
    obtain ⟨last, inner, made, hl', hd', ht', hn', hb'⟩ := h.exists_built hu hfound
    have hend' : ∀ other, ¬ source.Copies registry last other := fun other =>
      ha.not_copies hd' ⟨found, made, ht', hn', hb'⟩
    rw [hs, hfound, ← ht, ← ht', Copies.end_unique hl hend hl' hend']

end Slots

theorem Formed.inhabits (h : source.Formed registry name value)
    (hslots : ∀ name next, source.Copies registry name next →
      registry.slot? name = registry.slot? next) :
    Inhabits (source.Defines registry) (.named name) value := by
  obtain ⟨target, defn, hl, hd, hh, hv⟩ := h
  induction hl using Relation.ReflTransGen.head_induction_on with
  | refl => exact .named (.built hd hh) hv
  | head hcopy _ ih => exact .named (.copy hcopy (hslots _ _ hcopy)) (.copy ih)

section Reading

variable (h : source.Provides ∅ registry) (hu : source.custom = ∅)
  (ha : source.InlinesApart registry)

include h hu ha

/-- What has the form of the name of a part inhabits the part: a made-up name leads nowhere else. -/
theorem Provides.inhabits_part (ho : source.Entered registry owner outer)
    (hs : registry.slot? owner = some slot) {part : String × TypeTerm} (hp : part ∈ outer.parts)
    (hv : source.Formed registry (part.2.nameIn owner part.1) value) :
    Inhabits (source.Defines registry) part.2 value := by
  cases hi : part.2.inline? with
  | none =>
    rw [TypeTerm.eq_named_of_inline? hi owner part.1]
    exact hv.inhabits fun _ _ => h.slot?_eq_of_copies hu ha
  | some inner =>
    obtain ⟨target, defn, hl, hd, -, hv⟩ := hv
    have hcustom : source.custom.get? owner = none := by
      rw [hu]
      rfl
    have hapart := ha owner outer ho (Option.isSome_of_eq_some hs) hcustom part hp inner hi
    rcases Relation.ReflTransGen.cases_head hl with rfl | ⟨next, hcopy, -⟩
    · rw [hapart defn hd] at hv
      exact .inline hi hv
    · rw [← hapart _ (.declared hcopy.declared)] at hi
      exact absurd hi TypeTerm.inline?_ne_copy

/-- What is read for the parts inhabits them, if the slots of all names read what has the form of
their names. -/
theorem Provides.readsParts {reads : Reading} (ho : source.Entered registry owner outer)
    (hs : registry.slot? owner = some slot)
    (hr : ∀ name slot value result, registry.slot? name = some slot → reads slot value result →
      source.Formed registry name result) :
    ReadsParts (source.Defines registry) registry.slot? owner reads outer :=
  fun _ hp _ hpart _ _ hread => h.inhabits_part hu ha ho hs hp (hr _ _ _ _ hpart hread)

omit ha in
/-- What the slot of a name reads is read by what the name leads to. -/
theorem Provides.exists_read (hs : registry.slot? name = some slot)
    (hr : registry.outcomeUpTo .toTyped most slot value = .ok result) :
    ∃ less target defn node, most = less + 1 ∧
      Relation.ReflTransGen (source.Copies registry) name target ∧
      source.Entered registry target defn ∧ registry.slot? target = some slot ∧
      registry.node? slot = some node ∧
      Built registry.slot? registry.Types target defn node ∧
      node.plain .toTyped (registry.outcomeUpTo .toTyped less) value = .ok result := by
  obtain ⟨less, made, he, hmade, hread⟩ := h.wellFormed.exists_of_outcomeUpTo hr
  obtain ⟨target, defn, node, hl, hd, ht, hn, hb⟩ := h.exists_built hu hs
  rw [hn] at hmade
  cases hmade
  exact ⟨less, target, defn, made, he, hl, hd, ht, hn, hb, hread⟩

/-- What is read from a scalar has its typed form. No struct reads a scalar, so this does not look
at implicit values. -/
theorem Provides.formed_of_scalar (hs : registry.slot? name = some slot)
    (hv : (Kind.of value).isScalar = true)
    (hr : registry.outcomeUpTo .toTyped most slot value = .ok result) :
    source.Formed registry name result := by
  induction most generalizing name slot value result with
  | zero => cases hr
  | succ most ih =>
    obtain ⟨less, target, defn, node, he, hl, hd, ht, hn, hb, hread⟩ := h.exists_read hu hs hr
    cases he
    refine ⟨target, defn, hl, hd, ⟨slot, node, ht, hn, hb⟩, ?_⟩
    cases Node.readsScalar hb.wellFormed hb.untransformed hv hread with
    | kind _ hadmits => exact hb.hasForm_kind hadmits
    | enum hm => exact hb.hasForm_enum hm
    | union hselect hm hc hk =>
      have hparts : ReadsParts (source.Defines registry) registry.slot? target
          (fun slot value result => (Kind.of value).isScalar = true ∧
            registry.outcomeUpTo .toTyped most slot value = .ok result) defn :=
        h.readsParts hu ha hd ht fun name slot value result hs ⟨hv, hr⟩ => ih hs hv hr
      exact hb.hasForm_union hparts hselect hm ⟨hk, hc⟩

theorem Provides.formed_of_read (hs : registry.slot? name = some slot)
    (hr : registry.outcomeUpTo .toTyped most slot value = .ok result) :
    source.Formed registry name result := by
  induction most generalizing name slot value result with
  | zero => cases hr
  | succ most ih =>
    obtain ⟨less, target, defn, node, he, hl, hd, ht, hn, hb, hread⟩ := h.exists_read hu hs hr
    cases he
    refine ⟨target, defn, hl, hd, ⟨slot, node, ht, hn, hb⟩, hb.hasForm ?_ ?_ hread⟩
    · exact h.readsParts hu ha hd ht fun name slot value result hs hr => ih hs hr
    · -- An implicit value may have been read in more steps than are left, but from a scalar.
      refine h.readsParts hu ha hd ht fun name slot literal result hs ⟨hliteral, ht⟩ => ?_
      obtain ⟨steps, hr⟩ := h.wellFormed.outcome_eq_ok_iff.mp ht
      exact h.formed_of_scalar hu ha hs hliteral.scalar hr

end Reading

end Source

open Compilation

/-- What a registered type reads has the typed form of the definition that its slot was built from,
be it declared or given by hand. -/
theorem inhabits_of_read {schema : Schema} {calls : List Call} {after : Registry} {name : String}
    {value result : Value} (h : Gives (calls.forM (Source.perform ⟨schema, ∅⟩)) ∅ () after)
    (ha : (Source.inForce ⟨schema, ∅⟩ calls).InlinesApart after) {transformer : Transformer}
    (ht : after.transformer? name = some transformer)
    (hr : (transformer.toTyped value).result value = .ok result) :
    Inhabits ((Source.inForce ⟨schema, ∅⟩ calls).Defines after) (.named name) result := by
  obtain ⟨slot, hs, rfl⟩ := Registry.transformer?_eq_some_iff.mp ht
  have hprovides := provides_of_calls h
  have hu : (Source.inForce ⟨schema, ∅⟩ calls).custom = ∅ := Source.custom_inForce _ _
  obtain ⟨most, hr⟩ := (wellFormed_of_calls h).outcome_eq_ok_iff.mp hr
  exact (hprovides.formed_of_read hu ha hs hr).inhabits fun _ _ =>
    hprovides.slot?_eq_of_copies hu ha

/-- Words with a gloss, each stored under the name of the other, a level that is known from its
absence, and notes, which the schema has as numbers. -/
def glossarySchema : Schema where
  types := Table.ofList [
    ("Level", .enum ⟨["Common", "Rare"], .string (Table.ofList [("Rare", "rare")])⟩),
    ("Notes", .list ⟨.list ⟨.named "Int", false, .list⟩, false, .list⟩),
    ("Entry", .struct ⟨Table.ofList [("word", ⟨.named "String", false, false⟩),
      ("gloss", ⟨.named "String", true, false⟩),
      ("uses", ⟨.list ⟨.named "String", true, .list⟩, false, false⟩),
      ("notes", ⟨.named "Remarks", true, false⟩),
      ("level", ⟨.named "Level", false, false⟩)],
      .map (Table.ofList [("word", ⟨some "gloss", none⟩), ("gloss", ⟨some "word", none⟩),
        ("level", ⟨none, some (.string "rare")⟩)])⟩),
    ("Remarks", .copy "Notes")]

/-- Notes are made texts by hand. -/
def glossaryCalls : List Call :=
  [.defn "Notes" (.list ⟨.list ⟨.named "String", false, .list⟩, false, .list⟩), .all]

def glossaryRegistry : Registry :=
  (Registry.after ∅ (glossaryCalls.forM (Source.perform ⟨glossarySchema, ∅⟩))).2

/-- A word without a gloss is read as an entry that has a level, and notes that are texts. -/
theorem inhabits_of_read_entry : ∃ transformer,
    glossaryRegistry.transformer? "Entry" = some transformer ∧ ∃ value typed,
      (transformer.toTyped value).result value = .ok typed ∧
      typed = .map (.ofList [("word", .string "lintel"), ("uses", .list [.null]),
        ("notes", .list [.list [.string "of stone"]]), ("level", .string "Rare")]) ∧
      Inhabits ((Source.inForce ⟨glossarySchema, ∅⟩ glossaryCalls).Defines glossaryRegistry)
        (.named "Entry") typed := by
  have hok : (Registry.after ∅
      (glossaryCalls.forM (Source.perform ⟨glossarySchema, ∅⟩))).1 = .ok () := by
    decide +kernel
  have h : Gives (glossaryCalls.forM (Source.perform ⟨glossarySchema, ∅⟩)) ∅ ()
      glossaryRegistry :=
    Prod.ext hok rfl
  have ha : (Source.inForce ⟨glossarySchema, ∅⟩ glossaryCalls).InlinesApart glossaryRegistry :=
    Source.inlinesApart_of_nodup (by decide +kernel) (by decide +kernel) _
  have hslot : glossaryRegistry.slot? "Entry" = some 4 := by decide +kernel
  have ht := Registry.transformer?_eq_some_iff.mpr ⟨4, hslot, rfl⟩
  have hread : ((Transformer.mk "Entry" 4 glossaryRegistry).toTyped
      (.map (.ofList [("gloss", .string "lintel"), ("uses", .list [.null]),
        ("notes", .list [.list [.string "of stone"]])]))).result
        (.map (.ofList [("gloss", .string "lintel"), ("uses", .list [.null]),
          ("notes", .list [.list [.string "of stone"]])])) =
          .ok (.map (.ofList [("word", .string "lintel"), ("uses", .list [.null]),
            ("notes", .list [.list [.string "of stone"]]), ("level", .string "Rare")])) := by
    decide +kernel
  exact ⟨_, ht, _, _, hread, rfl, inhabits_of_read h ha ht hread⟩

end LinkedSchema
