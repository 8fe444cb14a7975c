import LinkedSchema.Proofs.Compile.Parts

namespace LinkedSchema

/-- The names have slots. -/
def Registry.Knows (registry : Registry) (known : List String) : Prop :=
  ∀ name ∈ known, (registry.slot? name).isSome = true

theorem Registry.knows_nil (registry : Registry) : registry.Knows [] :=
  nofun

theorem Registry.Knows.not_mem {registry : Registry} {known : List String} {name : String}
    (hk : registry.Knows known) (hs : registry.slot? name = none) : name ∉ known := by
  intro hm
  have hsome := hk name hm
  rw [hs] at hsome
  cases hsome

theorem Registry.Knows.reserve {registry : Registry} {known : List String}
    (hk : registry.Knows known) (name : String) :
    (registry.reserve name).Knows (name :: known) := by
  intro other ho
  rw [slot?_reserve]
  split
  · rfl
  · rename_i hne
    exact hk other ((List.mem_cons.mp ho).resolve_left hne)

namespace Compilation

variable {α β : Type} {registry : Registry} {known : List String}

/-- On a registry two steps do the same, and the registry only grows. -/
structure SameRunAt (registry : Registry) (x y : Compilation α) : Prop where
  run_eq : (ExceptT.run x).run registry = (ExceptT.run y).run registry
  grows : registry.Grows ((ExceptT.run x).run registry).2

/-- The same on every registry that has slots for the given names. -/
def SameRun (known : List String) (x y : Compilation α) : Prop :=
  ∀ registry, registry.Knows known → SameRunAt registry x y

namespace SameRunAt

theorem grows_of_gives {x y : Compilation α} {a : α} {after : Registry}
    (h : SameRunAt registry x y) (hg : Gives x registry a after) : registry.Grows after := by
  have hgrows := h.grows
  rwa [hg] at hgrows

theorem knows {x y : Compilation α} {a : α} {after : Registry} (h : SameRunAt registry x y)
    (hk : registry.Knows known) (hg : Gives x registry a after) : after.Knows known :=
  fun name hm => (h.grows_of_gives hg).isSome_slot? (hk name hm)

theorem bind {x y : Compilation α} {f g : α → Compilation β} (h : SameRunAt registry x y)
    (hf : ∀ a after, Gives x registry a after → SameRunAt after (f a) (g a)) :
    SameRunAt registry (x >>= f) (y >>= g) := by
  have hgrows := h.grows
  constructor
  · rw [run_bind, run_bind, ← h.run_eq]
    split
    · rename_i a between hx
      exact (hf a between hx).run_eq
    · rfl
  · rw [run_bind]
    split
    · rename_i a between hx
      rw [hx] at hgrows
      exact hgrows.trans (hf a between hx).grows
    · rename_i error between hx
      rwa [hx] at hgrows

/-- A step that leaves the registry as it is. -/
theorem still {x : Compilation α} (h : ((ExceptT.run x).run registry).2 = registry) :
    SameRunAt registry x x :=
  ⟨rfl, h.symm ▸ .refl registry⟩

end SameRunAt

theorem SameRun.everywhere {x y : Compilation α} (h : SameRun [] x y) (registry : Registry) :
    SameRunAt registry x y :=
  h registry registry.knows_nil

namespace SameRun

theorem bind {x y : Compilation α} {f g : α → Compilation β} (h : SameRun known x y)
    (hf : ∀ a, SameRun known (f a) (g a)) : SameRun known (x >>= f) (y >>= g) :=
  fun registry hk => (h registry hk).bind fun a after hg =>
    hf a after ((h registry hk).knows hk hg)

theorem still {x : Compilation α} (h : ∀ registry, ((ExceptT.run x).run registry).2 = registry) :
    SameRun known x x :=
  fun registry _ => .still (h registry)

theorem pure (a : α) : SameRun known (pure a : Compilation α) (pure a) :=
  still fun _ => rfl

theorem throw (error : SchemaError) :
    SameRun known (throw error : Compilation α) (throw error) :=
  still fun _ => rfl

/-- What would follow an error does not matter. -/
theorem throwBind (error : SchemaError) {f g : β → Compilation α} :
    SameRun known (MonadExcept.throw error >>= f) (MonadExcept.throw error >>= g) :=
  fun registry _ => ⟨rfl, .refl registry⟩

theorem optionMapM {f g : α → Compilation β} {a : Option α}
    (h : ∀ a, SameRun known (f a) (g a)) : SameRun known (a.mapM f) (a.mapM g) := by
  cases a with
  | none => exact pure none
  | some a =>
    rw [Option.mapM_some, Option.mapM_some, map_eq_pure_bind, map_eq_pure_bind]
    exact (h a).bind fun b => pure (some b)

theorem except (x : Except SchemaError α) : SameRun known (liftM x : Compilation α) (liftM x) :=
  still fun _ => by cases x <;> rfl

theorem foldlM {f g : β → α → Compilation β} {as : List α} (b : β)
    (h : ∀ b, ∀ a ∈ as, SameRun known (f b a) (g b a)) :
    SameRun known (as.foldlM f b) (as.foldlM g b) := by
  induction as generalizing b with
  | nil => exact pure b
  | cons a as ih =>
    rw [List.foldlM_cons, List.foldlM_cons]
    exact (h b a (List.mem_cons_self ..)).bind fun next =>
      ih next fun b a hm => h b a (List.mem_cons_of_mem _ hm)

theorem mapM {f g : α → Compilation β} {as : List α} (h : ∀ a ∈ as, SameRun known (f a) (g a)) :
    SameRun known (as.mapM f) (as.mapM g) := by
  induction as with
  | nil =>
    rw [List.mapM_nil, List.mapM_nil]
    exact pure []
  | cons a as ih =>
    rw [List.mapM_cons, List.mapM_cons]
    exact (h a (List.mem_cons_self ..)).bind fun b =>
      (ih fun a hm => h a (List.mem_cons_of_mem _ hm)).bind fun bs => pure (b :: bs)

end SameRun

section Steps

variable {source other : Source} {add add' : DefnCompiler} {name owner : String}

theorem SameRun.slotOfAdded (name : String) :
    SameRun known (slotOfAdded name) (slotOfAdded name) := by
  refine bind (still fun _ => rfl) fun slot => ?_
  cases slot with
  | none => exact throw _
  | some slot => exact pure slot

theorem SameRunAt.get : SameRunAt registry (get : Compilation Registry) get :=
  still rfl

theorem SameRunAt.isRegistered : SameRunAt registry (isRegistered name) (isRegistered name) :=
  still rfl

theorem SameRunAt.modify {f : Registry → Registry} (h : registry.Grows (f registry)) :
    SameRunAt registry (modify f : Compilation PUnit) (modify f) :=
  ⟨rfl, h⟩

/-- What was there is left alone while a new slot is filled. -/
theorem SameRunAt.fillNewSlot {x y : Compilation Node} (hs : registry.slot? name = none)
    (h : SameRunAt (registry.reserve name) x y) :
    SameRunAt registry (fillNewSlot name x) (fillNewSlot name y) := by
  constructor
  · rw [run_fillNewSlot, run_fillNewSlot, h.run_eq]
  · have hgrows := (Registry.Grows.reserve hs).trans h.grows
    rw [run_fillNewSlot]
    split
    · rename_i made between hx
      rw [hx] at hgrows
      split
      · rename_i filled hf
        exact hgrows.fill (Nat.le_refl _) hf
      · exact hgrows
    · rename_i error between hx
      rwa [hx] at hgrows

theorem SameRunAt.addCustom (hs : registry.slot? name = none) (transform : CustomTransform) :
    SameRunAt registry (addCustom name transform) (addCustom name transform) := by
  unfold Compilation.addCustom
  split
  · exact .fillNewSlot hs ((SameRun.pure _).everywhere _)
  · exact (SameRun.throw _).everywhere registry

/-- A name that has no slot is compiled in the same way. -/
theorem SameRunAt.addNamed (hc : source.custom = other.custom)
    (h : registry.slot? name = none → source.custom.get? name = none →
      source.definition? name = other.definition? name ∧ ∀ defn,
        source.definition? name = some defn →
          SameRunAt registry (add name defn) (add' name defn)) :
    SameRunAt registry (addNamed source add name) (addNamed other add' name) := by
  unfold Compilation.addNamed
  refine SameRunAt.isRegistered.bind fun known after hg => ?_
  obtain ⟨rfl, rfl⟩ := gives_isRegistered.mp hg
  cases hs : after.slot? name with
  | some slot => exact (SameRun.pure ()).everywhere after
  | none =>
    rw [← hc]
    cases ht : source.custom.get? name with
    | some transform => exact .addCustom hs transform
    | none =>
      obtain ⟨hd, hadd⟩ := h hs ht
      have hdefinition : other.definition name = source.definition name := by
        rw [Source.definition, Source.definition, hd]
      simp only [Option.isSome_none, Bool.false_eq_true, ↓reduceIte, hdefinition]
      refine ((SameRun.except (source.definition name)).everywhere after).bind
        fun defn reached hg => ?_
      obtain ⟨hfound, rfl⟩ := gives_except.mp hg
      exact hadd defn (Source.definition_eq_ok_iff.mp hfound)

/-- Where a name is compiled, the sources have the same definition for it, and are the same for
what follows. -/
def SameNamed (source other : Source) (known : List String) (same : String → TypeDefn → Prop)
    (name : String) : Prop :=
  name ∉ known → source.custom.get? name = none → source.definition? name = other.definition? name ∧
    ∀ defn, source.definition? name = some defn → same name defn

/-- Where a part of a definition is compiled, the sources are the same. -/
def SamePart (source other : Source) (known : List String) (same : String → TypeDefn → Prop)
    (owner : String) (part : String × TypeTerm) : Prop :=
  match part.2.inline? with
  | none => SameNamed source other known same (part.2.nameIn owner part.1)
  | some inner => same (part.2.nameIn owner part.1) inner

theorem SamePart.imp {same same' : String → TypeDefn → Prop} {part : String × TypeTerm}
    (h : SamePart source other known same owner part)
    (hs : ∀ name defn, same name defn → same' name defn) :
    SamePart source other known same' owner part := by
  unfold SamePart at h ⊢
  split at h
  · exact fun hn hc => ⟨(h hn hc).1, fun defn hd => hs _ _ ((h hn hc).2 defn hd)⟩
  · exact hs _ _ h

/-- Definitions are compiled in the same way. -/
def SameAdds (known : List String) (add add' : DefnCompiler) (name : String) (defn : TypeDefn) :
    Prop :=
  SameRun known (add name defn) (add' name defn)

theorem SameRun.slotOfName (hc : source.custom = other.custom)
    (h : SameNamed source other known (SameAdds known add add') name) :
    SameRun known (slotOfName source add name) (slotOfName other add' name) := by
  refine bind (fun registry hk => SameRunAt.addNamed hc fun hs ht => ?_) fun _ => slotOfAdded name
  obtain ⟨hd, hadd⟩ := h (hk.not_mem hs) ht
  exact ⟨hd, fun defn hdefn => hadd defn hdefn registry hk⟩

theorem SameRun.slotOfTerm {part : String} {term : TypeTerm} (hc : source.custom = other.custom)
    (h : SamePart source other known (SameAdds known add add') owner (part, term)) :
    SameRun known (slotOfTerm source add owner part term)
      (slotOfTerm other add' owner part term) := by
  cases term with
  | named name => exact slotOfName hc h
  | map defn => exact SameRun.bind h fun _ => slotOfAdded _
  | list defn => exact SameRun.bind h fun _ => slotOfAdded _
  | link defn => exact SameRun.bind h fun _ => slotOfAdded _

end Steps

end Compilation

open Compilation

section Definitions

variable {source other : Source} {add add' : DefnCompiler} {known : List String} {owner : String}

theorem MapDefn.sameRun_compile {defn : MapDefn TypeTerm} (hc : source.custom = other.custom)
    (h : SamePart source other known (SameAdds known add add') owner
      ("valueType", defn.valueType)) :
    SameRun known (defn.compile source add owner) (defn.compile other add' owner) := by
  have hslot := SameRun.slotOfTerm hc h
  simp only [compile]
  split
  · exact .throwBind _
  · cases defn.representation with
    | map => exact hslot.bind fun slot => .pure _
    | listPairs => exact hslot.bind fun slot => .pure _
    | stringPairs => exact .throwBind _
    | advanced => exact .throwBind _

theorem ListDefn.sameRun_compile {defn : ListDefn TypeTerm} (hc : source.custom = other.custom)
    (h : SamePart source other known (SameAdds known add add') owner
      ("valueType", defn.valueType)) :
    SameRun known (defn.compile source add owner) (defn.compile other add' owner) := by
  have hslot := SameRun.slotOfTerm hc h
  simp only [compile]
  cases defn.representation with
  | list => exact hslot.bind fun slot => .pure _
  | advanced => exact .throwBind _

namespace StructDefn

theorem sameRun_partType {entry : String × StructField} (hc : source.custom = other.custom)
    (h : SamePart source other known (SameAdds known add add') owner (entry.1, entry.2.type)) :
    SameRun known (partType source add owner entry.1 entry.2)
      (partType other add' owner entry.1 entry.2) :=
  (SameRun.slotOfTerm hc h).bind fun _ => .pure _

theorem sameRun_typedImplicit (name : String) (type : PartType) (value : Value) :
    SameRun known (typedImplicit owner name type value)
      (typedImplicit owner name type value) := by
  refine fun registry _ => SameRunAt.get.bind fun found after _ => ?_
  split
  · exact (SameRun.pure _).everywhere after
  all_goals exact (SameRun.throw _).everywhere after

theorem sameRun_compileMapField {details : Table FieldDetails} {before : List Field}
    {entry : String × StructField} (hc : source.custom = other.custom)
    (h : SamePart source other known (SameAdds known add add') owner (entry.1, entry.2.type)) :
    SameRun known (compileMapField source add owner details before entry)
      (compileMapField other add' owner details before entry) := by
  have htype := sameRun_partType hc h
  simp only [compileMapField]
  split
  · exact .throwBind _
  · have hrest : ∀ literal : Option Value, SameRun known (do
        let type ← partType source add owner entry.1 entry.2
        let implicit ← literal.mapM (typedImplicit owner entry.1 type)
        return before ++ [⟨entry.1, ((details.get? entry.1).getD {}).rename.getD entry.1, type,
          entry.2.isOptional, implicit⟩]) (do
        let type ← partType other add' owner entry.1 entry.2
        let implicit ← literal.mapM (typedImplicit owner entry.1 type)
        return before ++ [⟨entry.1, ((details.get? entry.1).getD {}).rename.getD entry.1, type,
          entry.2.isOptional, implicit⟩]) := fun literal =>
      htype.bind fun type => (SameRun.optionMapM fun value =>
        sameRun_typedImplicit entry.1 type value).bind fun implicit => .pure _
    split
    · exact (SameRun.pure none).bind hrest
    · split
      · exact (SameRun.pure _).bind hrest
      · exact .throwBind _

theorem sameRun_compileMap {fields : Table StructField} {details : Table FieldDetails}
    (hc : source.custom = other.custom) (h : ∀ entry ∈ fields.entries,
      SamePart source other known (SameAdds known add add') owner (entry.1, entry.2.type)) :
    SameRun known (compileMap source add owner fields details)
      (compileMap other add' owner fields details) := by
  simp only [compileMap]
  split
  · exact .throwBind _
  · exact (SameRun.foldlM [] fun before entry hm => sameRun_compileMapField hc (h entry hm)).bind
      fun fields => .pure _

theorem sameRun_compileTuple {fields : Table StructField} {order : Option (List String)}
    (hc : source.custom = other.custom) (h : ∀ entry ∈ fields.entries,
      SamePart source other known (SameAdds known add add') owner (entry.1, entry.2.type)) :
    SameRun known (compileTuple source add owner fields order)
      (compileTuple other add' owner fields order) := by
  have hfield : ∀ name, SameRun known (compileTupleField source add owner fields name)
      (compileTupleField other add' owner fields name) := by
    intro name
    unfold compileTupleField
    cases hg : fields.get? name with
    | none => exact .throw _
    | some field =>
      have hpart := h (name, field) (Table.get?_eq_some_iff.mp hg)
      exact (sameRun_partType hc hpart).bind fun type => .pure _
  simp only [compileTuple]
  split
  · exact .throwBind _
  · exact (SameRun.except _).bind fun names =>
      (SameRun.mapM fun name _ => hfield name).bind fun fields => .pure _

theorem sameRun_compile {defn : StructDefn} (hc : source.custom = other.custom)
    (h : ∀ entry ∈ defn.fields.entries,
      SamePart source other known (SameAdds known add add') owner (entry.1, entry.2.type)) :
    SameRun known (defn.compile source add owner) (defn.compile other add' owner) := by
  unfold compile
  split
  · exact sameRun_compileMap hc h
  · exact sameRun_compileTuple hc h
  all_goals exact .throw _

end StructDefn

theorem UnionDefn.sameRun_compile {defn : UnionDefn} (hc : source.custom = other.custom)
    (h : ∀ name ∈ defn.members, SameNamed source other known (SameAdds known add add') name) :
    SameRun known (defn.compile source add owner) (defn.compile other add' owner) := by
  simp only [compile]
  refine (SameRun.except _).bind fun strategy => ?_
  refine (SameRun.foldlM [] fun before name hm => ?_).bind fun members => .pure _
  simp only [compileMember]
  split
  · exact .throwBind _
  · exact (SameRun.slotOfName hc (h name hm)).bind fun slot => .pure _

/-- A definition other than a copy is compiled in the same way if its parts are. -/
theorem TypeDefn.sameRun_compile {defn : TypeDefn} (hc : source.custom = other.custom)
    (h : ∀ part ∈ defn.parts, SamePart source other known (SameAdds known add add') owner part) :
    SameRun known (defn.compile source add owner) (defn.compile other add' owner) := by
  cases defn with
  | map defn => exact MapDefn.sameRun_compile hc (h _ (List.mem_singleton_self _))
  | list defn => exact ListDefn.sameRun_compile hc (h _ (List.mem_singleton_self _))
  | struct defn =>
    exact StructDefn.sameRun_compile hc fun entry hm => h _ (List.mem_map_of_mem hm)
  | union defn => exact UnionDefn.sameRun_compile hc fun name hm => h _ (List.mem_map_of_mem hm)
  | enum defn => exact .except _
  | copy => exact .throw _
  | _ => exact .pure _

end Definitions

end LinkedSchema
