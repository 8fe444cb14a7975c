import LinkedSchema.Proofs.Compile.Parts

namespace LinkedSchema

namespace Source

open Compilation

variable {source : Source} {add : DefnCompiler} {before between after : Registry}
  {name owner : String} {node : Node}

/-- A way in which registries change from one part of a definition to the next, while they stay of
the given kind. What is built for a part stays right. -/
structure Steady (kind : Registry → Prop) (step : Registry → Registry → Prop) : Prop where
  refl : ∀ registry, step registry registry
  trans : ∀ {before between after}, step before between → step between after → step before after
  kept : ∀ {before after}, kind before → step before after → kind after
  slot? : ∀ {before after name slot}, step before after → before.slot? name = some slot →
    after.slot? name = some slot
  types : ∀ {before after slot literal value}, step before after →
    before.Types slot literal value → after.Types slot literal value

/-- Compiling any part of a definition is a step. -/
def PartsStep (source : Source) (kind : Registry → Prop) (step : Registry → Registry → Prop)
    (add : DefnCompiler) (owner : String) (defn : TypeDefn) : Prop :=
  ∀ part ∈ defn.parts, ∀ before slot after, kind before →
    Gives (slotOfTerm source add owner part.1 part.2) before slot after → step before after

section Parts

variable {kind : Registry → Prop} {step : Registry → Registry → Prop}

theorem Steady.field (hs : Steady kind step) {details : FieldDetails} {entry : String × StructField}
    {field : Field} (h : step before after)
    (hb : BuiltField before.slot? before.Types owner details entry field) :
    BuiltField after.slot? after.Types owner details entry field :=
  hb.imp (fun _ _ => hs.slot? h) fun _ _ _ => hs.types h

/-- The fields compiled so far. -/
structure MapFields (step : Registry → Registry → Prop) (before : Registry) (owner : String)
    (details : Table FieldDetails) (done : List (String × StructField)) (fields : List Field)
    (after : Registry) : Prop where
  stepped : step before after
  built : List.Forall₂ (fun entry => BuiltField after.slot? after.Types owner
    ((details.get? entry.1).getD {}) entry) done fields
  keys : (fields.map Field.key).Nodup

theorem Steady.mapFields (hs : Steady kind step) {defn : StructDefn}
    {details : Table FieldDetails} {fields : List Field}
    (hp : source.PartsStep kind step add owner (.struct defn)) (hk : kind before)
    (h : Gives (defn.fields.entries.foldlM
      (StructDefn.compileMapField source add owner details) []) before fields after) :
    MapFields step before owner details defn.fields.entries fields after := by
  refine h.foldlM (d := []) (I := MapFields step before owner details) ?_ ⟨hs.refl _, .nil, .nil⟩
  intro done entry hm fields registry result reached hi hstep
  obtain ⟨field, rfl, hkey, hslot, hb⟩ := StructDefn.gives_compileMapField.mp hstep
  have hpart : (entry.1, entry.2.type) ∈ (TypeDefn.struct defn).parts :=
    List.mem_map.mpr ⟨entry, hm, rfl⟩
  have hnext := hp _ hpart _ _ _ (hs.kept hk hi.stepped) hslot
  refine ⟨hs.trans hi.stepped hnext, ?_, ?_⟩
  · exact List.rel_append (hi.built.imp fun _ _ => hs.field hnext) (.cons hb .nil)
  · rw [List.map_append, List.map_singleton]
    exact nodup_append_singleton hi.keys hkey

theorem Steady.tupleFields (hs : Steady kind step) {defn : StructDefn} {names : List String}
    {fields : List Field} (hp : source.PartsStep kind step add owner (.struct defn))
    (hk : kind before)
    (h : Gives (names.mapM (StructDefn.compileTupleField source add owner defn.fields)) before
      fields after) :
    step before after ∧
      List.Forall₂ (fun name field => ∃ part, defn.fields.get? name = some part ∧
        BuiltField after.slot? after.Types owner {} (name, part) field) names fields := by
  refine h.mapM (d := []) (r := []) (I := fun names fields after =>
    step before after ∧
      List.Forall₂ (fun name field => ∃ part, defn.fields.get? name = some part ∧
        BuiltField after.slot? after.Types owner {} (name, part) field) names fields) ?_
    ⟨hs.refl _, .nil⟩
  intro done name _ fields registry field reached hi hstep
  obtain ⟨part, hget, hslot, hb⟩ := StructDefn.gives_compileTupleField.mp hstep
  have hpart : (name, part.type) ∈ (TypeDefn.struct defn).parts :=
    List.mem_map.mpr ⟨(name, part), Table.get?_eq_some_iff.mp hget, rfl⟩
  have hnext := hp _ hpart _ _ _ (hs.kept hk hi.1) hslot
  refine ⟨hs.trans hi.1 hnext, List.rel_append (hi.2.imp ?_) (.cons ⟨part, hget, hb⟩ .nil)⟩
  rintro _ _ ⟨part, hget, hb⟩
  exact ⟨part, hget, hs.field hnext hb⟩

/-- The members compiled so far. -/
structure Members (step : Registry → Registry → Prop) (before : Registry) (done : List String)
    (members : List Member) (after : Registry) : Prop where
  stepped : step before after
  built : List.Forall₂ (fun name member =>
    member.name = name ∧ after.slot? name = some member.slot) done members
  names : done.Nodup

theorem Steady.members (hs : Steady kind step) {defn : UnionDefn}
    {invalid : UnionFlaw → SchemaError} {members : List Member}
    (hp : source.PartsStep kind step add owner (.union defn)) (hk : kind before)
    (h : Gives (defn.members.foldlM (UnionDefn.compileMember source add invalid) []) before members
      after) :
    Members step before defn.members members after := by
  refine h.foldlM (d := []) (I := Members step before) ?_ ⟨hs.refl _, .nil, .nil⟩
  intro done name hm members registry result reached hi hstep
  obtain ⟨slot, hnew, rfl, hadd, hslot⟩ := UnionDefn.gives_compileMember.mp hstep
  have hpart : ("member", TypeTerm.named name) ∈ (TypeDefn.union defn).parts :=
    List.mem_map_of_mem hm
  have hnext := hp _ hpart _ _ _ (hs.kept hk hi.stepped) (gives_slotOfTerm.mpr ⟨hadd, hslot⟩)
  have hnames : done.map id = members.map Member.name :=
    map_eq_of_forall₂ hi.built fun _ _ h => h.1.symm
  rw [List.map_id] at hnames
  rw [← hnames] at hnew
  refine ⟨hs.trans hi.stepped hnext, ?_, ?_⟩
  · refine List.rel_append (hi.built.imp ?_) (.cons ⟨rfl, hslot⟩ .nil)
    rintro _ _ ⟨hname, hslot⟩
    exact ⟨hname, hs.slot? hnext hslot⟩
  · exact nodup_append_singleton hi.names hnew

/-- A definition is compiled to what the slots of its parts make of it. -/
theorem Steady.compile (hs : Steady kind step) {defn : TypeDefn}
    (hp : source.PartsStep kind step add owner defn) (hk : kind before)
    (h : Gives (defn.compile source add owner) before node after) :
    step before after ∧ Built after.slot? after.Types owner defn node := by
  cases defn with
  | null =>
    obtain ⟨rfl, rfl⟩ := gives_pure.mp h
    exact ⟨hs.refl _, .null⟩
  | bool =>
    obtain ⟨rfl, rfl⟩ := gives_pure.mp h
    exact ⟨hs.refl _, .bool⟩
  | string =>
    obtain ⟨rfl, rfl⟩ := gives_pure.mp h
    exact ⟨hs.refl _, .string⟩
  | bytes =>
    obtain ⟨rfl, rfl⟩ := gives_pure.mp h
    exact ⟨hs.refl _, .bytes⟩
  | int =>
    obtain ⟨rfl, rfl⟩ := gives_pure.mp h
    exact ⟨hs.refl _, .int⟩
  | float =>
    obtain ⟨rfl, rfl⟩ := gives_pure.mp h
    exact ⟨hs.refl _, .float⟩
  | link defn =>
    obtain ⟨rfl, rfl⟩ := gives_pure.mp h
    exact ⟨hs.refl _, .link⟩
  | map defn =>
    obtain ⟨slot, hslot, hkey, ⟨hr, rfl⟩ | ⟨hr, rfl⟩⟩ := MapDefn.gives_compile.mp h
    · exact ⟨hp _ (List.mem_singleton_self _) _ _ _ hk hslot,
        .map hkey hr (gives_slotOfTerm.mp hslot).2⟩
    · exact ⟨hp _ (List.mem_singleton_self _) _ _ _ hk hslot,
        .pairs hkey hr (gives_slotOfTerm.mp hslot).2⟩
  | list defn =>
    obtain ⟨slot, hslot, hr, rfl⟩ := ListDefn.gives_compile.mp h
    exact ⟨hp _ (List.mem_singleton_self _) _ _ _ hk hslot,
      .list hr (gives_slotOfTerm.mp hslot).2⟩
  | union defn =>
    obtain ⟨strategy, members, hstrategy, hfold, rfl⟩ := UnionDefn.gives_compile.mp h
    have hm := hs.members hp hk hfold
    exact ⟨hm.stepped, .union hstrategy hm.names hm.built⟩
  | struct defn =>
    simp only [TypeDefn.compile, StructDefn.compile] at h
    split at h
    · rename_i details hr
      obtain ⟨hd, fields, hfold, rfl⟩ := StructDefn.gives_compileMap.mp h
      have hm := hs.mapFields hp hk hfold
      exact ⟨hm.stepped, .structMap hr hd hm.built hm.keys⟩
    · rename_i order hr
      obtain ⟨hopt, names, hn, fields, hmap, rfl⟩ := StructDefn.gives_compileTuple.mp h
      obtain ⟨hstep, hf⟩ := hs.tupleFields hp hk hmap
      exact ⟨hstep, .structTuple hr hopt hn hf⟩
    all_goals exact (gives_throw.mp h).elim
  | enum defn =>
    obtain ⟨hn, rfl⟩ := gives_except.mp h
    exact ⟨hs.refl _, .enum hn⟩
  | copy fromType => exact (gives_throw.mp h).elim

end Parts

/-- The names of a list join a slot, as far as they have none. -/
structure Joins (names : List String) (slot : Slot) (before after : Registry) : Prop where
  grows : before.Grows after
  size : after.nodes.size = before.nodes.size
  slots : ∀ name ∈ names, (after.slot? name).isSome = true
  new : ∀ name found, before.slot? name = none → after.slot? name = some found →
    name ∈ names ∧ found = slot

theorem joins_of_forM {names : List String} {slot : Slot}
    (h : Gives (names.forM fun name => modify (·.addName name slot)) before () after) :
    Joins names slot before after := by
  refine h.forM (d := []) (I := fun done reached => Joins done slot before reached) ?_
    ⟨.refl _, rfl, by simp, fun name found hn hs => by simp [hn] at hs⟩
  intro done name _ registry reached hi hstep
  have hreached : reached = registry.addName name slot := gives_modify.mp hstep
  subst hreached
  have hgrows := Registry.Grows.addName registry name slot
  refine ⟨hi.grows.trans hgrows, hi.size, fun other ho => ?_, fun other found hn hs => ?_⟩
  · rcases List.mem_append.mp ho with ho | ho
    · exact hgrows.isSome_slot? (hi.slots other ho)
    · rw [List.mem_singleton.mp ho]
      exact registry.isSome_slot?_addName name slot
  · rw [Registry.slot?_addName] at hs
    split at hs
    · rename_i he
      cases hs
      exact ⟨by simp [he.1], rfl⟩
    · obtain ⟨hm, he⟩ := hi.new other found hn hs
      exact ⟨List.mem_append_left _ hm, he⟩

/-- A chain of copies that begins with a copy of the given name. Each of its names but the first has
a copy of the next one for its definition, and the last one copies the name with which it ends. -/
inductive CopyChain (source : Source) (origin : String → TypeDefn → Prop)
    (start fromType : String) : List String → String → Prop where
  | start : CopyChain source origin start fromType [start] fromType
  | next {chain : List String} {target next : String}
      (h : CopyChain source origin start fromType chain target) (hn : target ≠ start)
      (hc : source.custom.get? target = none) (hd : origin target (.copy next)) :
      CopyChain source origin start fromType (chain ++ [target]) next

theorem CopyChain.imp {origin other : String → TypeDefn → Prop} {start fromType target : String}
    {chain : List String} (h : source.CopyChain origin start fromType chain target)
    (hi : ∀ name defn, origin name defn → other name defn) :
    source.CopyChain other start fromType chain target := by
  induction h with
  | start => exact .start
  | next _ hn hc hd ih => exact .next ih hn hc (hi _ _ hd)

/-- Whatever leads from each copy to the next name leads to the end of the chain. -/
theorem CopyChain.leads {origin : String → TypeDefn → Prop} {leads : String → String → Prop}
    {start fromType target : String} {chain : List String}
    (h : source.CopyChain origin start fromType chain target) (hrefl : ∀ name, leads name name)
    (htrans : ∀ {name next target}, leads name next → leads next target → leads name target)
    (hl : ∀ name ∈ chain, name ≠ start → ∀ next, source.custom.get? name = none →
      origin name (.copy next) → leads name next) :
    leads fromType target ∧ ∀ name ∈ chain, name = start ∨ leads name target := by
  induction h with
  | start => exact ⟨hrefl _, fun name hm => .inl (List.mem_singleton.mp hm)⟩
  | next _ hn hc hd ih =>
    rename_i chain target next _
    obtain ⟨hfrom, hnames⟩ := ih fun name hm => hl name (List.mem_append_left _ hm)
    have hlast : leads target next :=
      hl target (List.mem_append_right _ (List.mem_singleton_self _)) hn next hc hd
    refine ⟨htrans hfrom hlast, fun name hm => ?_⟩
    rcases List.mem_append.mp hm with hm | hm
    · exact (hnames name hm).imp_right fun h => htrans h hlast
    · rw [List.mem_singleton.mp hm]
      exact .inr hlast

/-- A way in which registries change while definitions of the given origin are compiled: a new slot
is filled with a transform or with a compiled definition, or a chain of copies joins a slot. Where a
definition comes from may depend on the names that have slots. -/
structure Advances (source : Source) (origin : Registry → String → TypeDefn → Prop)
    (kind : Registry → Prop) (step : Registry → Registry → Prop) : Prop
    extends Steady kind step where
  origin_mono : ∀ {before after name defn}, origin before name defn →
    (∀ name, (before.slot? name).isSome = true → (after.slot? name).isSome = true) →
      origin after name defn
  declared : ∀ {registry name defn}, kind registry → registry.slot? name = none →
    source.definition? name = some defn → origin registry name defn
  inline : ∀ {registry owner outer part defn}, origin registry owner outer →
    (registry.slot? owner).isSome = true → source.custom.get? owner = none → part ∈ outer.parts →
      part.2.inline? = some defn → origin registry (part.2.nameIn owner part.1) defn
  reserve : ∀ {registry name}, registry.slot? name = none → kind registry →
    kind (registry.reserve name)
  custom : ∀ {before after name transform}, before.slot? name = none →
    source.custom.get? name = some transform → transform.isValid = true →
      (before.reserve name).fill? before.nodes.size (.custom name transform) = some after →
        step before after
  defined : ∀ {before between after name defn node}, before.slot? name = none →
    source.custom.get? name = none → origin (before.reserve name) name defn →
      (∀ fromType, defn ≠ .copy fromType) → step (before.reserve name) between →
        Built between.slot? between.Types name defn node →
          between.fill? before.nodes.size node = some after → step before after
  joins : ∀ {before after start fromType chain target slot},
    source.custom.get? start = none → origin before start (.copy fromType) →
      CopyChain source (origin before) start fromType chain target →
        before.slot? target = some slot →
          Gives (chain.forM fun name => modify (·.addName name slot)) before () after →
            step before after

/-- Adding a definition of the given origin is a step, and gives the name a slot. -/
def Adds (origin : Registry → String → TypeDefn → Prop) (kind : Registry → Prop)
    (step : Registry → Registry → Prop) (add : DefnCompiler) : Prop :=
  ∀ name defn before after, origin before name defn → kind before →
    Gives (add name defn) before () after → step before after ∧ (after.slot? name).isSome = true

namespace Advances

variable {origin : Registry → String → TypeDefn → Prop} {kind : Registry → Prop}
  {step : Registry → Registry → Prop} {defn : TypeDefn}

theorem registered (hs : source.Advances origin kind step) (h : step before after)
    (hn : (before.slot? name).isSome = true) : (after.slot? name).isSome = true := by
  obtain ⟨slot, hslot⟩ := Option.isSome_iff_exists.mp hn
  exact Option.isSome_of_eq_some (hs.slot? h hslot)

theorem origin_kept (hs : source.Advances origin kind step) (h : step before after)
    (hd : origin before name defn) : origin after name defn :=
  hs.origin_mono hd fun _ => hs.registered h

/-- What is known of a definition while its parts are compiled stays so. -/
theorem steady_owner (hs : source.Advances origin kind step) (owner : String) (defn : TypeDefn) :
    Steady (fun registry => kind registry ∧ origin registry owner defn ∧
      (registry.slot? owner).isSome = true) step where
  refl := hs.refl
  trans := hs.trans
  kept h hstep := ⟨hs.kept h.1 hstep, hs.origin_kept hstep h.2.1, hs.registered hstep h.2.2⟩
  slot? := hs.slot?
  types := hs.types

theorem addCustom (hs : source.Advances origin kind step) {transform : CustomTransform}
    (hn : before.slot? name = none) (hc : source.custom.get? name = some transform)
    (h : Gives (addCustom name transform) before () after) :
    step before after ∧ (after.slot? name).isSome = true := by
  obtain ⟨hv, hf⟩ := gives_addCustom.mp h
  refine ⟨hs.custom hn hc hv hf, ?_⟩
  rw [Registry.slot?_of_fill? hf, Registry.slot?_reserve_self]
  rfl

theorem addNamed (hs : source.Advances origin kind step) (ha : Adds origin kind step add)
    (hk : kind before) (h : Gives (addNamed source add name) before () after) :
    step before after ∧ (after.slot? name).isSome = true := by
  rcases gives_addNamed.mp h with ⟨hslot, rfl⟩ | ⟨hn, ⟨transform, hc, h⟩ | ⟨defn, hc, hd, h⟩⟩
  · exact ⟨hs.refl _, hslot⟩
  · exact hs.addCustom hn hc h
  · exact ha name defn before after (hs.declared hk hn hd) hk h

theorem partsStep (hs : source.Advances origin kind step) (ha : Adds origin kind step add)
    (hc : source.custom.get? owner = none) :
    source.PartsStep (fun registry => kind registry ∧ origin registry owner defn ∧
      (registry.slot? owner).isSome = true) step add owner defn := by
  intro part hp before slot after ⟨hk, hd, howner⟩ h
  obtain ⟨h, -⟩ := gives_slotOfTerm.mp h
  cases hi : part.2.inline? with
  | none =>
    rw [hi] at h
    exact (hs.addNamed ha hk h).1
  | some inner =>
    rw [hi] at h
    exact (ha _ _ _ _ (hs.inline hd howner hc hp hi) hk h).1

/-- A definition is compiled to what the slots of its parts make of it. -/
theorem compile (hs : source.Advances origin kind step) (ha : Adds origin kind step add)
    (hd : origin before owner defn) (howner : (before.slot? owner).isSome = true)
    (hc : source.custom.get? owner = none) (hk : kind before)
    (h : Gives (defn.compile source add owner) before node after) :
    step before after ∧ Built after.slot? after.Types owner defn node :=
  (hs.steady_owner owner defn).compile (hs.partsStep ha hc) ⟨hk, hd, howner⟩ h

/-- A definition that is no copy is compiled into a new slot of its name. -/
theorem fillNewSlot (hs : source.Advances origin kind step) (ha : Adds origin kind step add)
    (hn : before.slot? name = none) (hc : source.custom.get? name = none)
    (hcopy : ∀ fromType, defn ≠ .copy fromType) (hk : kind (before.reserve name))
    (hd : origin (before.reserve name) name defn)
    (h : Gives (fillNewSlot name (defn.compile source add name)) before () after) :
    step before after ∧ (after.slot? name).isSome = true := by
  have hself := before.slot?_reserve_self name
  obtain ⟨made, between, hmade, hf⟩ := gives_fillNewSlot.mp h
  obtain ⟨hstep, hb⟩ := hs.compile ha hd (Option.isSome_of_eq_some hself) hc hk hmade
  refine ⟨hs.defined hn hc hd hcopy hstep hb hf, ?_⟩
  -- The slot was reserved before the parts were compiled, and no step takes it away.
  rw [Registry.slot?_of_fill? hf, hs.slot? hstep hself]
  rfl

/-- The type at the end of a chain of copies is compiled. -/
theorem copiedSlot (hs : source.Advances origin kind step) (ha : Adds origin kind step add)
    {fromType : String} {chain : List String} {slot : Slot} (hk : kind before)
    (h : Gives (copiedSlot source add name fromType) before (chain, slot) after) :
    step before after ∧ name ∈ chain ∧ ∃ target,
      CopyChain source (origin after) name fromType chain target ∧
        after.slot? target = some slot := by
  obtain ⟨target, between, hf, hadd, hslot⟩ := gives_copiedSlot.mp h
  obtain ⟨rfl, ⟨hname, hchain⟩, -⟩ := chain_induction
    (P := fun chain target => name ∈ chain ∧
      CopyChain source (origin before) name fromType chain target)
    (fun chain target next hnew hn hc hd hp => ⟨List.mem_append_left _ hp.1,
      .next hp.2 (fun he => hnew (he ▸ hp.1)) hc (hs.declared hk hn hd)⟩)
    ⟨List.mem_singleton_self name, .start⟩ hf
  have hstep := (hs.addNamed ha hk hadd).1
  exact ⟨hstep, hname, target, hchain.imp fun _ _ => hs.origin_kept hstep, hslot⟩

theorem addCopy (hs : source.Advances origin kind step) (ha : Adds origin kind step add)
    {fromType : String} (hc : source.custom.get? name = none)
    (hd : origin before name (.copy fromType)) (hk : kind before)
    (h : Gives (addCopy source add name fromType) before () after) :
    step before after ∧ (after.slot? name).isSome = true := by
  obtain ⟨chain, slot, between, hcopied, hjoin⟩ := gives_addCopy.mp h
  obtain ⟨hstep, hname, target, hchain, hslot⟩ := hs.copiedSlot ha hk hcopied
  exact ⟨hs.trans hstep (hs.joins hc (hs.origin_kept hstep hd) hchain hslot hjoin),
    (joins_of_forM hjoin).slots name hname⟩

theorem addDefnUpTo (hs : source.Advances origin kind step) (most : Nat) :
    Adds origin kind step (addDefnUpTo source most) := by
  -- Parts and the ends of chains of copies are added with less fuel: they are steps by induction.
  induction most with
  | zero =>
    intro name defn before after _ _ h
    exact (gives_throw.mp h).elim
  | succ most ih =>
    intro name defn before after hd hk h
    rw [gives_addDefnUpTo_succ] at h
    rcases h with ⟨hslot, rfl⟩ | ⟨hn, h⟩
    · exact ⟨hs.refl _, hslot⟩
    · split at h
      · rename_i hc
        exact hs.addCustom hn hc h
      · rename_i fromType hc
        exact hs.addCopy ih hc hd hk h
      · rename_i hc hcopy
        have hgrows := Registry.Grows.reserve hn
        exact hs.fillNewSlot ih hn hc hcopy (hs.reserve hn hk)
          (hs.origin_mono hd fun _ => hgrows.isSome_slot?) h

theorem addDefn (hs : source.Advances origin kind step) : Adds origin kind step source.addDefn :=
  fun name defn before after hd hk h =>
    hs.addDefnUpTo (source.budget defn) name defn before after hd hk h

theorem addType (hs : source.Advances origin kind step) (hk : kind before)
    (h : Gives (source.addType name) before () after) :
    step before after ∧ (after.slot? name).isSome = true :=
  hs.addNamed hs.addDefn hk h

theorem addAll (hs : source.Advances origin kind step) (hk : kind before)
    (h : Gives source.addAll before () after) : step before after := by
  refine Gives.forM (d := []) (I := fun _ reached => step before reached) ?_ (hs.refl before) h
  intro _ name _ registry reached hi hstep
  exact hs.trans hi (hs.addType (hs.kept hk hi) hstep).1

end Advances

end Source

end LinkedSchema
