import LinkedSchema.Proofs.Compile.SameRun
import LinkedSchema.Proofs.Order.Copies

namespace LinkedSchema

namespace Compilation

variable {source other : Source} {add add' : DefnCompiler} {registry before after : Registry}
  {start name target : String}

/-- The names of a chain behind its first one are copies, and there are steps enough to go on. -/
structure Chained (source : Source) (most : Nat) (start : String) (rest : List String) : Prop where
  nodup : (start :: rest).Nodup
  declared : rest ⊆ source.schema.types.keys
  enough : source.schema.types.size + 2 ≤ most + rest.length

theorem chained_singleton (source : Source) (name : String) :
    Chained source (source.schema.types.size + 2) name [] :=
  ⟨List.nodup_singleton name, nofun, Nat.le_refl _⟩

theorem Chained.exists_succ {most : Nat} {rest : List String}
    (h : Chained source most start rest) : ∃ less, most = less + 1 := by
  have hle := (List.subperm_of_subset (List.nodup_cons.mp h.nodup).2 h.declared).length_le
  rw [Table.keys, List.length_map] at hle
  have hsize : source.schema.types.size = source.schema.types.entries.length := rfl
  have henough := h.enough
  exact ⟨most - 1, by omega⟩

theorem Chained.concat {most : Nat} {rest : List String}
    (h : Chained source (most + 1) start rest) (hn : target ∉ start :: rest)
    (hm : target ∈ source.schema.types.keys) : Chained source most start (rest ++ [target]) := by
  refine ⟨?_, ?_, ?_⟩
  · rw [← List.cons_append]
    exact nodup_append_singleton h.nodup hn
  · exact List.append_subset.mpr ⟨h.declared, by simpa using hm⟩
  · have := h.enough
    rw [List.length_append, List.length_singleton]
    omega

/-- The names that a chain of copies leads to have the same definitions, up to where it ends. -/
def SameChain (source other : Source) (registry : Registry) (start : String)
    (met : String → Prop) : Prop :=
  ∀ target, met target → target ≠ start → registry.slot? target = none →
    source.custom.get? target = none → source.definition? target = other.definition? target ∧
      ∀ next, source.definition? target = some (.copy next) → met next

theorem SameChain.followCopies {met : String → Prop} (hc : source.custom = other.custom)
    (h : SameChain source other registry start met) {most more : Nat} {rest : List String}
    (hm : met target) (hmost : Chained source most start rest)
    (hmore : Chained other more start rest) :
    SameRunAt registry (followCopies source start most (start :: rest) target)
      (followCopies other start more (start :: rest) target) := by
  induction most generalizing more rest target with
  | zero =>
    obtain ⟨_, h⟩ := hmost.exists_succ
    cases h
  | succ most ih =>
    obtain ⟨more, rfl⟩ := hmore.exists_succ
    simp only [Compilation.followCopies]
    rw [← hc]
    split
    · exact (SameRun.throwBind _).everywhere registry
    · rename_i hn
      have hn : target ∉ start :: rest := by simpa using hn
      refine SameRunAt.isRegistered.bind fun known after hg => ?_
      obtain ⟨rfl, rfl⟩ := gives_isRegistered.mp hg
      split
      · exact (SameRun.pure _).everywhere after
      · rename_i hstop
        obtain ⟨hs, ht⟩ : after.slot? target = none ∧ source.custom.get? target = none := by
          simpa [Table.contains_eq_isSome] using hstop
        obtain ⟨hd, hnext⟩ := h target hm (fun he => hn (he ▸ List.mem_cons_self ..)) hs ht
        have hdefinition : other.definition target = source.definition target := by
          rw [Source.definition, Source.definition, hd]
        rw [hdefinition]
        refine ((SameRun.except (source.definition target)).everywhere after).bind
          fun defn reached hg => ?_
        obtain ⟨hfound, rfl⟩ := gives_except.mp hg
        have hfound := Source.definition_eq_ok_iff.mp hfound
        cases defn with
        | copy next =>
          exact ih (hnext next hfound) (hmost.concat hn (Source.mem_keys_of_copy hfound))
            (hmore.concat hn (Source.mem_keys_of_copy (hd ▸ hfound)))
        | _ => exact (SameRun.pure _).everywhere reached

/-- A chain of copies ends outside itself, at a name that has a slot or a transform, or with a
definition that is no copy. -/
theorem SameChain.stop {met : String → Prop} (h : SameChain source other registry start met)
    {most : Nat} {chain names : List String} {stop : String} (hm : met target)
    (hstart : start ∈ chain)
    (hg : Gives (Compilation.followCopies source start most chain target) registry (names, stop)
      after) : after = registry ∧ met stop ∧ stop ≠ start ∧
        (registry.slot? stop = none → source.custom.get? stop = none →
          ∀ next, source.definition? stop ≠ some (.copy next)) := by
  have hstep : ∀ chain target next, target ∉ chain → registry.slot? target = none →
      source.custom.get? target = none → source.definition? target = some (.copy next) →
        start ∈ chain ∧ met target → start ∈ chain ++ [target] ∧ met next := by
    intro chain target next hn hs hc hd ⟨hstart, hm⟩
    have hne : target ≠ start := fun he => hn (he ▸ hstart)
    exact ⟨List.mem_append_left _ hstart, (h target hm hne hs hc).2 next hd⟩
  obtain ⟨rfl, ⟨hstart, hm⟩, hstop, hend⟩ :=
    chain_induction (P := fun chain target => start ∈ chain ∧ met target) hstep ⟨hstart, hm⟩ hg
  exact ⟨rfl, hm, fun he => hstop (he ▸ hstart), hend⟩

theorem sameRun_joins (names : List String) (slot : Slot) {known : List String} :
    SameRun known (names.forM fun name => modify (·.addName name slot))
      (names.forM fun name => modify (·.addName name slot)) := by
  induction names with
  | nil => exact .pure ()
  | cons name rest ih =>
    have hjoin : SameRun known (modify fun registry => registry.addName name slot)
        (modify fun registry => registry.addName name slot) :=
      fun registry _ => .modify (.addName registry name slot)
    exact hjoin.bind fun _ => ih

theorem SameChain.addCopy {met : String → Prop} {fromType : String}
    (hc : source.custom = other.custom) (h : SameChain source other registry name met)
    (hm : met fromType)
    (hroot : ∀ target defn, met target → target ≠ name → registry.slot? target = none →
      source.custom.get? target = none → source.definition? target = some defn →
        (∀ next, defn ≠ .copy next) → SameRunAt registry (add target defn) (add' target defn)) :
    SameRunAt registry (addCopy source add name fromType) (addCopy other add' name fromType) := by
  have hcopied : SameRunAt registry (copiedSlot source add name fromType)
      (copiedSlot other add' name fromType) := by
    refine (h.followCopies hc hm (chained_singleton source name)
      (chained_singleton other name)).bind fun ⟨names, target⟩ after hg => ?_
    obtain ⟨rfl, hmet, hne, hend⟩ := h.stop hm (List.mem_singleton_self name) hg
    have hslot : SameRunAt after (slotOfName source add target) (slotOfName other add' target) := by
      refine (SameRunAt.addNamed hc fun hs ht => ?_).bind fun _ reached _ =>
        (SameRun.slotOfAdded target).everywhere reached
      refine ⟨(h target hmet hne hs ht).1, fun defn hd => ?_⟩
      exact hroot target defn hmet hne hs ht hd fun next he => hend hs ht next (he ▸ hd)
    exact hslot.bind fun slot reached _ => (SameRun.pure (names, slot)).everywhere reached
  exact hcopied.bind fun ⟨names, slot⟩ reached _ => (sameRun_joins names slot).everywhere reached

/-- A definition is added in the same way if what its kind takes is done in the same way. -/
theorem SameRunAt.addDefnUpTo {defn : TypeDefn} {most more : Nat}
    (hc : source.custom = other.custom)
    (hcopy : registry.slot? name = none → source.custom.get? name = none →
      ∀ fromType, defn = .copy fromType → SameRunAt registry
        (Compilation.addCopy source (Compilation.addDefnUpTo source most) name fromType)
        (Compilation.addCopy other (Compilation.addDefnUpTo other more) name fromType))
    (hcompile : registry.slot? name = none → source.custom.get? name = none →
      (∀ fromType, defn ≠ .copy fromType) → SameRunAt registry
        (Compilation.fillNewSlot name
          (defn.compile source (Compilation.addDefnUpTo source most) name))
        (Compilation.fillNewSlot name
          (defn.compile other (Compilation.addDefnUpTo other more) name))) :
    SameRunAt registry (addDefnUpTo source (most + 1) name defn)
      (addDefnUpTo other (more + 1) name defn) := by
  simp only [Compilation.addDefnUpTo]
  refine SameRunAt.isRegistered.bind fun added after hg => ?_
  obtain ⟨rfl, rfl⟩ := gives_isRegistered.mp hg
  cases hs : after.slot? name with
  | some slot => exact (SameRun.pure ()).everywhere after
  | none =>
    rw [← hc]
    cases ht : source.custom.get? name with
    | some transform => exact .addCustom hs transform
    | none =>
      cases defn with
      | copy fromType => exact hcopy hs ht fromType rfl
      | _ => exact hcompile hs ht fun fromType he => by cases he

theorem run_addNamed {defn : TypeDefn} (hs : registry.slot? name = none)
    (hc : source.custom.get? name = none) (hd : source.definition? name = some defn) :
    (ExceptT.run (addNamed source add name)).run registry =
      (ExceptT.run (add name defn)).run registry := by
  have hr : (ExceptT.run (isRegistered name)).run registry =
      (.ok (registry.slot? name).isSome, registry) := rfl
  rw [addNamed, run_bind, hr, hs, hc, Source.definition_eq_ok_iff.mpr hd]
  rfl

end Compilation

namespace Source

open Compilation

/-- What is compiled under a name with one bound and with another, given names that have slots. -/
abbrev Bounded :=
  List String → String → TypeDefn → Nat → Nat → Prop

/-- Wherever a compilation by the first source has got to, the second has the same definitions for
the parts of what is compiled next, and both have steps left. -/
structure Simulates (source other : Source) (same : Bounded) : Prop where
  custom : source.custom = other.custom
  positive : ∀ {known name defn most more}, same known name defn most more → 0 < most ∧ 0 < more
  parts : ∀ {known name defn most more}, same known name defn (most + 1) (more + 1) →
    name ∉ known → source.custom.get? name = none → (∀ next, defn ≠ .copy next) →
      ∀ part ∈ defn.parts, SamePart source other (name :: known)
        (fun part inner => same (name :: known) part inner most more) name part
  copies : ∀ {known name fromType most more}, same known name (.copy fromType) (most + 1)
    (more + 1) → name ∉ known → source.custom.get? name = none → ∃ met : String → Prop,
      met fromType ∧ ∀ target, met target → target ≠ name → target ∉ known →
        source.custom.get? target = none → source.definition? target = other.definition? target ∧
          ∀ defn, source.definition? target = some defn →
            (∀ next, defn = .copy next → met next) ∧
              ((∀ next, defn ≠ .copy next) → same known target defn most more)

/-- Adding a definition runs in the same way, whatever is known of the registry. -/
theorem Simulates.sameRun {source other : Source} {same : Bounded}
    (h : source.Simulates other same) {known : List String} {name : String} {defn : TypeDefn}
    {most more : Nat} (hs : same known name defn most more) :
    SameRun known (addDefnUpTo source most name defn) (addDefnUpTo other more name defn) := by
  -- The induction is on the first fuel alone; the second one is positive whenever the first one is.
  induction most generalizing known name defn more with
  | zero => exact absurd (h.positive hs).1 (Nat.lt_irrefl 0)
  | succ most ih =>
    obtain ⟨more, rfl⟩ := Nat.exists_eq_succ_of_ne_zero (Nat.pos_iff_ne_zero.mp (h.positive hs).2)
    intro registry hk
    refine .addDefnUpTo h.custom (fun hslot ht fromType he => ?_) fun hslot ht hcopy => ?_
    · subst he
      obtain ⟨met, hm, hmet⟩ := h.copies hs (hk.not_mem hslot) ht
      have hchain : SameChain source other registry name met := fun target hm hne hs ht =>
        have hd := hmet target hm hne (hk.not_mem hs) ht
        ⟨hd.1, fun next hnext => (hd.2 _ hnext).1 next rfl⟩
      exact hchain.addCopy h.custom hm fun target defn hm hne hs ht hd hcopy =>
        ih (((hmet target hm hne (hk.not_mem hs) ht).2 defn hd).2 hcopy) registry hk
    · have hcompile := TypeDefn.sameRun_compile h.custom fun part hp =>
        (h.parts hs (hk.not_mem hslot) ht hcopy part hp).imp fun _ _ hsame => ih hsame
      exact .fillNewSlot hslot (hcompile _ (hk.reserve name))

end Source

end LinkedSchema
