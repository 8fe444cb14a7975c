import LinkedSchema.Proofs.Meaning.Literals

namespace LinkedSchema

open Filter

theorem forall₂_eventually {α β : Type} {rel : Nat → α → β → Prop} {as : List α} {bs : List β}
    (h : List.Forall₂ (fun a b => ∀ᶠ n in atTop, rel n a b) as bs) :
    ∀ᶠ n in atTop, List.Forall₂ (rel n) as bs := by
  induction h with
  | nil => exact .of_forall fun _ => .nil
  | cons h _ ih => exact (h.and ih).mono fun _ h => .cons h.1 h.2

variable {slotOf : String → Option Slot} {typed : Reading} {reads : Nat → Reading} {owner : String}

theorem BuiltField.eventually {details : FieldDetails} {entry : String × StructField}
    {field : Field}
    (hb : BuiltField slotOf typed owner details entry field)
    (h : ∀ slot literal value, (Kind.of literal).isScalar = true → typed slot literal value →
      ∀ᶠ n in atTop, reads n slot literal value) :
    ∀ᶠ n in atTop, BuiltField slotOf (reads n) owner details entry field := by
  have hi : ∀ᶠ n in atTop,
      BuiltImplicit (reads n) field.type.slot details.implicit field.implicit := by
    have hi := hb.implicit
    generalize details.implicit = json, field.implicit = implicit at hi ⊢
    cases hi with
    | none => exact .of_forall fun _ => .none
    | some hs ht => exact (h _ _ _ (isLiteral_of_scalar? hs).scalar ht).mono fun _ h => .some hs h
  exact hi.mono fun _ hi => { hb with implicit := hi }

/-- A definition has finitely many implicit values, which are all read in the end. -/
theorem Built.eventually {defn : TypeDefn} {node : Node} (hb : Built slotOf typed owner defn node)
    (h : ∀ slot literal value, (Kind.of literal).isScalar = true → typed slot literal value →
      ∀ᶠ n in atTop, reads n slot literal value) :
    ∀ᶠ n in atTop, Built slotOf (reads n) owner defn node := by
  cases hb with
  | null => exact .of_forall fun _ => .null
  | bool => exact .of_forall fun _ => .bool
  | string => exact .of_forall fun _ => .string
  | bytes => exact .of_forall fun _ => .bytes
  | int => exact .of_forall fun _ => .int
  | float => exact .of_forall fun _ => .float
  | link => exact .of_forall fun _ => .link
  | map hk hr hs => exact .of_forall fun _ => .map hk hr hs
  | pairs hk hr hs => exact .of_forall fun _ => .pairs hk hr hs
  | list hr hs => exact .of_forall fun _ => .list hr hs
  | structMap hr hd hf hk =>
    have hfields := forall₂_eventually (hf.imp fun _ _ hb => hb.eventually h)
    exact hfields.mono fun _ hf => .structMap hr hd hf hk
  | structTuple hr ho hn hf =>
    rename_i defn order names fields
    have hfields : ∀ᶠ n in atTop, List.Forall₂ (fun name field => ∃ part,
        defn.fields.get? name = some part ∧
          BuiltField slotOf (reads n) owner {} (name, part) field) names fields := by
      refine forall₂_eventually (hf.imp ?_)
      rintro name field ⟨part, hp, hb⟩
      exact (hb.eventually h).mono fun _ hb => ⟨part, hp, hb⟩
    exact hfields.mono fun _ hf => .structTuple hr ho hn hf
  | union hst hn hm => exact .of_forall fun _ => .union hst hn hm
  | enum he => exact .of_forall fun _ => .enum he

namespace Source

variable {source : Source} {registry : Registry} {name target : String} {term : TypeTerm}
  {direction : Direction} {slot : Slot} {literal value : Value}

theorem eventually_of_names {P : Nat → String → Slot → Prop}
    (h : ∀ name slot, registry.slot? name = some slot → ∀ᶠ n in atTop, P n name slot) :
    ∀ᶠ n in atTop, ∀ name slot, registry.slot? name = some slot → P n name slot := by
  have hkeys : ∀ᶠ n in atTop, ∀ name ∈ {name | name ∈ registry.names.keys},
      ∀ slot, registry.slot? name = some slot → P n name slot := by
    refine (eventually_all_finite (List.finite_toSet _)).mpr fun name _ => ?_
    cases hs : registry.slot? name with
    | none => exact .of_forall fun _ _ h => by cases h
    | some slot => exact (h name slot hs).mono fun _ h _ he => Option.some.inj he ▸ h
  refine hkeys.mono fun n h name slot hs => h name ?_ slot hs
  exact List.mem_map.mpr ⟨(name, slot), Table.get?_eq_some_iff.mp hs, rfl⟩

/-- The interpreter reads literals in at most the given number of steps. -/
def ReadsUpTo (source : Source) (registry : Registry) (most : Nat) : Reading :=
  fun slot literal value => ∀ name, registry.slot? name = some slot → ∀ term,
    source.Means name term → source.interpretUpTo most .toTyped term literal = .ok value

theorem Faithful.eventually_readsUpTo (hn : source.NamesApart) (hf : source.Faithful registry)
    (hv : (Kind.of literal).isScalar = true) (h : registry.Types slot literal value) :
    ∀ᶠ most in atTop, source.ReadsUpTo registry most slot literal value := by
  have hnames : ∀ᶠ most in atTop, ∀ name found, registry.slot? name = some found → found = slot →
      ∀ term, source.Means name term →
        source.interpretUpTo most .toTyped term literal = .ok value := by
    refine eventually_of_names fun name found hs => ?_
    by_cases he : found = slot
    · obtain ⟨most, h⟩ := hf.wellFormed.outcome_eq_ok_iff.mp h
      obtain ⟨target, hl, hr, ht⟩ := hf.root name found hs
      rw [he] at ht
      obtain ⟨path, hpath⟩ := hf.exists_readsLiteral hr ht hv h
      exact (hpath.eventually_interpret hn hl).mono fun _ h _ => h
    · exact .of_forall fun _ h => absurd h he
  exact hnames.mono fun _ h name hs => h name slot hs rfl

/-- What the interpreter gives, a compiled type gives in as many steps. -/
theorem Faithful.interpret_le (hn : source.NamesApart) (hf : source.Faithful registry)
    (hfull : registry.Full) (most : Nat)
    (hl : source.Leads name target) (hr : source.IsRoot target)
    (hs : registry.slot? target = some slot) (hm : source.Means name term) (direction : Direction)
    (value : Value) :
    StopsOrEq .exhausted (source.interpretUpTo most direction term value)
      (registry.outcomeUpTo direction most slot value) := by
  induction most generalizing name term target slot direction value with
  | zero => exact .inl (by cases term <;> rfl)
  | succ most ih =>
    cases hl with
    | copy hc hd hl =>
      rename_i next
      have hpart : ("fromType", TypeTerm.named next) ∈ (TypeDefn.copy next).parts :=
        List.mem_singleton_self _
      rw [hn.interpret_defn hm hc (.declared hd)]
      have hnext := ih hl hr hs (hn.means_part (.declared hd) hc hpart) direction value
      exact hnext.trans (hf.wellFormed.outcomeUpTo_le (Nat.le_succ most) slot value)
    | refl =>
      obtain ⟨node, hnode⟩ := hfull.exists_node? (hf.bound _ _ hs)
      rw [hf.wellFormed.outcomeUpTo_succ hnode]
      cases hf.compiled hr hs hnode with
      | custom hc =>
        rw [hn.interpret_custom hm hc]
        exact .inr rfl
      | built hc ho hb =>
        rw [hn.interpret_defn hm hc ho]
        rename_i defn
        have hparts : ∀ part ∈ defn.parts, ∀ slot,
            registry.slot? (part.2.nameIn name part.1) = some slot →
            ∀ direction value, StopsOrEq .exhausted
              (source.interpretUpTo most direction part.2 value)
              (registry.outcomeUpTo direction most slot value) := by
          intro part hp slot hslot direction value
          obtain ⟨target, hl, hr, ht⟩ := hf.root _ slot hslot
          exact ih hl hr ht (hn.means_part ho hc hp) direction value
        refine hb.related (StopsOrEq.congruence_flip .exhausted) (fun part hp slot hslot value =>
          hparts part hp slot hslot direction value) (fun part hp slot hslot literal value ht => ?_) _
        have hread : StopsOrEq .exhausted (registry.outcomeUpTo .toTyped most slot literal)
            (registry.outcomeUpTo .toTyped (registry.budget literal) slot literal) :=
          hf.wellFormed.enough_budget most
        exact (hparts part hp slot hslot .toTyped literal).trans (hread.trans (.inr ht))

/-- What a compiled type gives, the interpreter gives in the end. -/
theorem Faithful.eventually_interpret_ge (hn : source.NamesApart) (hf : source.Faithful registry)
    (hfull : registry.Full) (n : Nat) :
    ∀ᶠ most in atTop, ∀ name slot, registry.slot? name = some slot → ∀ term,
      source.Means name term → ∀ direction value,
        StopsOrEq .exhausted (registry.outcomeUpTo direction n slot value)
          (source.interpretUpTo most direction term value) := by
  induction n with
  | zero => exact .of_forall fun _ _ _ _ _ _ _ _ => .inl rfl
  | succ n ih =>
    refine eventually_of_names fun name slot hs => ?_
    obtain ⟨node, hnode⟩ := hfull.exists_node? (hf.bound _ _ hs)
    obtain ⟨target, hl, ht, hcompiled⟩ := hf.exists_compiled hs hnode
    obtain ⟨steps, hsteps⟩ := hn.interpret_leads hl
    cases hcompiled with
    | custom hc =>
      refine eventually_of_add (1 + steps) (.of_forall fun most term hm direction value => ?_)
      obtain ⟨stop, hstop, hsame⟩ := hsteps term hm
      rw [hf.wellFormed.outcomeUpTo_succ hnode, ← Nat.add_assoc, hsame,
        hn.interpret_custom hstop hc]
      exact .inr rfl
    | built hc ho hb =>
      rename_i defn
      have hreads : ∀ᶠ most in atTop,
          Built registry.slot? (source.ReadsUpTo registry most) target defn node :=
        hb.eventually fun _ _ _ hv h => hf.eventually_readsUpTo hn hv h
      refine eventually_of_add (1 + steps) ((ih.and hreads).mono ?_)
      rintro most ⟨hle, hb⟩ term hm direction value
      obtain ⟨stop, hstop, hsame⟩ := hsteps term hm
      rw [hf.wellFormed.outcomeUpTo_succ hnode, ← Nat.add_assoc, hsame,
        hn.interpret_defn hstop hc ho]
      refine hb.related (StopsOrEq.congruence _) (fun part hp slot hslot value => ?_)
        (fun part hp slot hslot literal value ht => ?_) value
      · exact hle _ slot hslot _ (hn.means_part ho hc hp) direction value
      · exact .inr (ht _ hslot _ (hn.means_part ho hc hp)).symm

/-- A compiled type gives a result if and only if the interpreter does in some number of steps. -/
theorem Faithful.outcome_eq_iff (hn : source.NamesApart) (hf : source.Faithful registry)
    (hfull : registry.Full)
    (hs : registry.slot? name = some slot) (hm : source.Means name term) {result : Outcome}
    (hr : result ≠ .error .exhausted) :
    registry.outcome direction slot value = result ↔
      ∃ most, source.interpretUpTo most direction term value = result := by
  constructor
  · intro h
    obtain ⟨n, rfl⟩ := (hf.wellFormed.outcome_eq_iff hr).mp h
    obtain ⟨most, hmost⟩ := (hf.eventually_interpret_ge hn hfull n).exists
    exact ⟨most, ((hmost name slot hs term hm direction value).eq_of_ne hr).symm⟩
  · intro h
    obtain ⟨most, rfl⟩ := h
    obtain ⟨target, hl, hroot, ht⟩ := hf.root name slot hs
    have hle := hf.interpret_le hn hfull most hl hroot ht hm direction value
    exact (hf.wellFormed.outcome_eq_iff hr).mpr ⟨most, (hle.eq_of_ne hr).symm⟩

/-- A name that can be asked for stands for itself. -/
theorem NamesApart.means_named (hn : source.NamesApart) {add : DefnCompiler}
    {before after : Registry} (hs : before.slot? name = none)
    (h : Compilation.Gives (Compilation.addNamed source add name) before () after) :
    source.Means name (.named name) := by
  refine .named fun inner hm => ?_
  rcases Compilation.gives_addNamed.mp h with ⟨hs', -⟩ | ⟨-, ⟨_, hc, -⟩ | ⟨_, -, hd, -⟩⟩
  · simp [hs] at hs'
  · simp [hn.custom _ hm] at hc
  · simp [hn.definition?_eq_none hm] at hd

end Source

/-- Notes with a tag that a transform reads, a list in the place of a reference, and a copy that
leads back to the notes. -/
def noteSource : Source where
  schema := { types := Table.ofList [
    ("Tag", .string),
    ("Note", .struct ⟨Table.ofList [("tag", ⟨.named "Tag", false, false⟩),
      ("sizes", ⟨.list ⟨.named "Int", false, .list⟩, false, false⟩),
      ("reply", ⟨.named "Answer", true, true⟩)],
      .map (Table.ofList [("tag", ⟨some "t", some (.string "none")⟩)])⟩),
    ("Answer", .copy "Note")] }
  custom := Table.ofList [("Tag", {
    toTyped := some fun value =>
      match value with
      | .string s => .ok (some (.string (s ++ "!")))
      | _ => .ok none })]

/-- A note without a tag, with an answer. -/
def noteGiven : Value :=
  .map (.ofList [("sizes", .list [.int 1, .int 2]),
    ("reply", .map (.ofList [("t", .string "re"), ("sizes", .list [])]))])

def noteTyped : Value :=
  .map (.ofList [("tag", .string "none!"), ("sizes", .list [.int 1, .int 2]),
    ("reply", .map (.ofList [("tag", .string "re!"), ("sizes", .list [])]))])

/-- A converter gives a value, a refusal or the failure of a transform if and only if the
interpreter of the schema does, whatever the schema and the transforms are. -/
theorem convert_eq_iff_interpret {source : Source} {root : String} {transformer : Transformer}
    {direction : Direction} {value : Value} {result : Outcome} (hn : source.NamesApart)
    (h : source.create root = .ok transformer) (hr : result ≠ .error .exhausted) :
    (transformer.convert direction value).result value = result ↔
      ∃ most, source.interpretUpTo most direction (.named root) value = result := by
  have hcompiles := Source.compiles_create h
  obtain ⟨-, registry, slot, hrun, hs, rfl⟩ := Source.create_eq_ok_iff.mp h
  have hf := Source.Faithful.empty.moves hn hcompiles.moves
  have hfull : ∀ slot, slot < registry.nodes.size → (registry.node? slot).isSome = true :=
    fun slot => hcompiles.filled slot (Nat.zero_le slot)
  exact hf.outcome_eq_iff hn hfull hs (hn.means_named rfl hrun) hr

/-- The interpreter reads the note as its converter does. -/
theorem convert_eq_iff_interpret_note : noteSource.NamesApart ∧ ∃ transformer,
    noteSource.create "Note" = .ok transformer ∧
      (transformer.convert .toTyped noteGiven).result noteGiven = .ok noteTyped ∧
        ∃ most, noteSource.interpretUpTo most .toTyped (.named "Note") noteGiven =
          .ok noteTyped := by
  have hn : noteSource.NamesApart :=
    ⟨by decide +kernel, by decide +kernel, by decide +kernel, by decide +kernel⟩
  have hrun : (noteSource.create "Note").toOption.any (fun transformer =>
      (transformer.convert .toTyped noteGiven).result noteGiven = .ok noteTyped) = true := by
    decide +kernel
  cases hc : noteSource.create "Note" with
  | error error =>
    rw [hc] at hrun
    cases hrun
  | ok transformer =>
    rw [hc] at hrun
    have hr := of_decide_eq_true hrun
    have hne : (Except.ok noteTyped : Outcome) ≠ .error .exhausted := nofun
    exact ⟨hn, transformer, rfl, hr, (convert_eq_iff_interpret hn hc hne).mp hr⟩

end LinkedSchema
