import LinkedSchema.Proofs.Compile.Moves
import LinkedSchema.Proofs.Compile.Runs

namespace LinkedSchema

namespace Compilation

open Source

variable {α β : Type} {source : Source} {add : DefnCompiler} {before after : Registry}

theorem gives_optionMapM {f : α → Compilation β} {a : Option α} {b : Option β} :
    Gives (a.mapM f) before b after ↔
      a = none ∧ b = none ∧ after = before ∨
        ∃ x y, a = some x ∧ b = some y ∧ Gives (f x) before y after := by
  cases a with
  | none =>
    show Gives (pure none) before b after ↔ _
    rw [gives_pure]
    constructor
    · intro h
      obtain ⟨rfl, rfl⟩ := h
      exact .inl ⟨rfl, rfl, rfl⟩
    · intro h
      rcases h with ⟨-, rfl, rfl⟩ | ⟨_, _, h, _⟩
      · exact ⟨rfl, rfl⟩
      · cases h
  | some x =>
    have hm : (some x).mapM f = f x >>= fun y => pure (some y) := by
      rw [Option.mapM_some, map_eq_pure_bind]
    rw [hm, gives_bind]
    constructor
    · intro h
      obtain ⟨y, between, h, hy⟩ := h
      obtain ⟨rfl, rfl⟩ := gives_pure.mp hy
      exact .inr ⟨x, y, rfl, rfl, h⟩
    · intro h
      rcases h with ⟨h, _⟩ | ⟨_, y, h, rfl, hy⟩
      · cases h
      · cases h
        exact ⟨y, after, hy, gives_pure.mpr ⟨rfl, rfl⟩⟩

/-- What every step of a fold keeps holds after it. -/
theorem Gives.foldlM {f : β → α → Compilation β} {I : List α → β → Registry → Prop}
    {as d : List α} {b result : β}
    (step : ∀ done, ∀ a ∈ as, ∀ b registry next reached, I done b registry →
      Gives (f b a) registry next reached → I (done ++ [a]) next reached)
    (hi : I d b before) (h : Gives (as.foldlM f b) before result after) :
    I (d ++ as) result after := by
  induction as generalizing d b before with
  | nil =>
    rw [List.foldlM_nil] at h
    obtain ⟨rfl, rfl⟩ := gives_pure.mp h
    simpa using hi
  | cons a as ih =>
    rw [List.foldlM_cons] at h
    obtain ⟨next, between, ha, h⟩ := gives_bind.mp h
    have hi' := step d a (by simp) b before next between hi ha
    simpa using ih (fun done a hm => step done a (List.mem_cons_of_mem _ hm)) hi' h

theorem Gives.mapM {f : α → Compilation β} {I : List α → List β → Registry → Prop}
    {as d : List α} {r result : List β}
    (step : ∀ done, ∀ a ∈ as, ∀ bs registry b reached, I done bs registry →
      Gives (f a) registry b reached → I (done ++ [a]) (bs ++ [b]) reached)
    (hi : I d r before) (h : Gives (as.mapM f) before result after) :
    I (d ++ as) (r ++ result) after := by
  induction as generalizing d r before result with
  | nil =>
    rw [List.mapM_nil] at h
    obtain ⟨rfl, rfl⟩ := gives_pure.mp h
    simpa using hi
  | cons a as ih =>
    rw [List.mapM_cons] at h
    obtain ⟨b, between, ha, h⟩ := gives_bind.mp h
    obtain ⟨rest, last, hr, h⟩ := gives_bind.mp h
    obtain ⟨rfl, rfl⟩ := gives_pure.mp h
    have hi' := step d a (by simp) r before b between hi ha
    simpa using ih (fun done a hm => step done a (List.mem_cons_of_mem _ hm)) hi' hr

/-- What every step of a loop keeps holds after it. -/
theorem Gives.forM {f : α → Compilation PUnit} {I : List α → Registry → Prop} {as d : List α}
    (step : ∀ done, ∀ a ∈ as, ∀ registry reached, I done registry →
      Gives (f a) registry () reached → I (done ++ [a]) reached)
    (hi : I d before) (h : Gives (as.forM f) before () after) : I (d ++ as) after := by
  induction as generalizing d before with
  | nil =>
    obtain ⟨-, rfl⟩ := gives_pure.mp h
    simpa using hi
  | cons a as ih =>
    obtain ⟨_, between, ha, h⟩ := gives_bind.mp h
    have hi' := step d a (by simp) before between hi ha
    simpa using ih (fun done a hm => step done a (List.mem_cons_of_mem _ hm)) hi' h

/-- A fold whose steps succeed one after the other succeeds. -/
theorem exists_foldlM {f : β → α → Compilation β} {I : List α → β → Registry → Prop} {as : List α}
    {b : β} (step : ∀ done a rest, done ++ a :: rest = as → ∀ b registry, I done b registry →
      ∃ next reached, Gives (f b a) registry next reached ∧ I (done ++ [a]) next reached)
    (hi : I [] b before) :
    ∃ result after, Gives (as.foldlM f b) before result after ∧ I as result after := by
  suffices ∀ rest done b registry, done ++ rest = as → I done b registry →
      ∃ result after, Gives (rest.foldlM f b) registry result after ∧ I as result after from
    this as [] b before rfl hi
  intro rest
  induction rest with
  | nil =>
    intro done b registry he hi
    rw [List.append_nil] at he
    subst he
    exact ⟨b, registry, gives_pure.mpr ⟨rfl, rfl⟩, hi⟩
  | cons a rest ih =>
    intro done b registry he hi
    obtain ⟨next, reached, hstep, hi⟩ := step done a rest he b registry hi
    obtain ⟨result, after, hrest, hi⟩ := ih (done ++ [a]) next reached (by simpa using he) hi
    rw [List.foldlM_cons]
    exact ⟨result, after, gives_bind.mpr ⟨next, reached, hstep, hrest⟩, hi⟩

theorem exists_mapM {f : α → Compilation β} {I : Registry → Prop} {as : List α}
    (step : ∀ a ∈ as, ∀ registry, I registry → ∃ b reached, Gives (f a) registry b reached ∧
      I reached) (hi : I before) : ∃ bs after, Gives (as.mapM f) before bs after ∧ I after := by
  induction as generalizing before with
  | nil => exact ⟨[], before, gives_pure.mpr ⟨rfl, rfl⟩, hi⟩
  | cons a as ih =>
    obtain ⟨b, reached, hstep, hi⟩ := step a (by simp) before hi
    obtain ⟨bs, after, hrest, hi⟩ := ih (fun a hm => step a (List.mem_cons_of_mem _ hm)) hi
    rw [List.mapM_cons]
    exact ⟨b :: bs, after, gives_bind.mpr ⟨b, reached, hstep, gives_bind.mpr
      ⟨bs, after, hrest, gives_pure.mpr ⟨rfl, rfl⟩⟩⟩, hi⟩

theorem exists_forM {f : α → Compilation PUnit} {I : Registry → Prop} {as : List α}
    (step : ∀ a ∈ as, ∀ registry, I registry → ∃ reached, Gives (f a) registry () reached ∧
      I reached) (hi : I before) : ∃ after, Gives (as.forM f) before () after ∧ I after := by
  induction as generalizing before with
  | nil => exact ⟨before, gives_pure.mpr ⟨rfl, rfl⟩, hi⟩
  | cons a as ih =>
    obtain ⟨reached, hstep, hi⟩ := step a (by simp) before hi
    obtain ⟨after, hrest, hi⟩ := ih (fun a hm => step a (List.mem_cons_of_mem _ hm)) hi
    exact ⟨after, gives_bind.mpr ⟨(), reached, hstep, hrest⟩, hi⟩

/-- Asking whether a name has a slot changes nothing. -/
theorem gives_isRegistered_bind {name : String} {f : Bool → Compilation β} {b : β} :
    Gives (isRegistered name >>= f) before b after ↔
      Gives (f (before.slot? name).isSome) before b after := by
  rw [gives_bind]
  constructor
  · intro h
    obtain ⟨_, _, hknown, h⟩ := h
    obtain ⟨rfl, rfl⟩ := gives_isRegistered.mp hknown
    exact h
  · intro h
    exact ⟨_, _, gives_isRegistered.mpr ⟨rfl, rfl⟩, h⟩

/-- What is done with the definition of a name is done with the one that the source has. -/
theorem gives_definition_bind {name : String} {f : TypeDefn → Compilation β} {b : β} :
    Gives (do f (← source.definition name)) before b after ↔
      ∃ defn, source.definition? name = some defn ∧ Gives (f defn) before b after := by
  rw [gives_bind]
  constructor
  · intro h
    obtain ⟨defn, _, hd, h⟩ := h
    obtain ⟨hfound, rfl⟩ := gives_except.mp hd
    exact ⟨defn, definition_eq_ok_iff.mp hfound, h⟩
  · intro h
    obtain ⟨defn, hd, h⟩ := h
    exact ⟨defn, before, gives_except.mpr ⟨definition_eq_ok_iff.mpr hd, rfl⟩, h⟩

theorem gives_addNamed {name : String} :
    Gives (addNamed source add name) before () after ↔
      (before.slot? name).isSome = true ∧ after = before ∨
        before.slot? name = none ∧
          ((∃ transform, source.custom.get? name = some transform ∧
              Gives (addCustom name transform) before () after) ∨
            ∃ defn, source.custom.get? name = none ∧ source.definition? name = some defn ∧
              Gives (add name defn) before () after) := by
  rw [addNamed, gives_isRegistered_bind]
  cases before.slot? name with
  | some slot => simp [eq_comm]
  | none =>
    cases source.custom.get? name with
    | some transform => simp
    | none =>
      simp only [Option.isSome_none, Bool.false_eq_true, if_false]
      rw [gives_definition_bind]
      simp

theorem gives_slotOfName {name : String} {slot : Slot} :
    Gives (slotOfName source add name) before slot after ↔
      Gives (addNamed source add name) before () after ∧ after.slot? name = some slot := by
  simp only [slotOfName, gives_bind, gives_slotOfAdded]
  constructor
  · intro h
    obtain ⟨_, _, h, hs, rfl⟩ := h
    exact ⟨h, hs⟩
  · intro h
    obtain ⟨h, hs⟩ := h
    exact ⟨(), after, h, hs, rfl⟩

/-- A reference leads to the slot of the name under which its type is compiled. -/
theorem gives_slotOfTerm {owner part : String} {term : TypeTerm} {slot : Slot} :
    Gives (slotOfTerm source add owner part term) before slot after ↔
      (match term.inline? with
        | none => Gives (addNamed source add (term.nameIn owner part)) before () after
        | some defn => Gives (add (term.nameIn owner part) defn) before () after) ∧
      after.slot? (term.nameIn owner part) = some slot := by
  have hanonymous : ∀ defn, Gives (slotOfTerm.anonymous add owner part defn) before slot after ↔
      Gives (add (anonymousName owner part) defn) before () after ∧
        after.slot? (anonymousName owner part) = some slot := by
    intro defn
    simp only [slotOfTerm.anonymous, gives_bind, gives_slotOfAdded]
    constructor
    · intro h
      obtain ⟨_, _, h, hs, rfl⟩ := h
      exact ⟨h, hs⟩
    · intro h
      obtain ⟨h, hs⟩ := h
      exact ⟨(), after, h, hs, rfl⟩
  cases term with
  | named name => exact gives_slotOfName
  | map defn => exact hanonymous _
  | list defn => exact hanonymous _
  | link defn => exact hanonymous _

theorem gives_addCustom {name : String} {transform : CustomTransform} :
    Gives (addCustom name transform) before () after ↔ transform.isValid = true ∧
      (before.reserve name).fill? before.nodes.size (.custom name transform) = some after := by
  unfold addCustom
  split
  · rename_i hv
    simp only [hv, gives_fillNewSlot, gives_pure, true_and]
    constructor
    · intro h
      obtain ⟨_, _, ⟨rfl, rfl⟩, h⟩ := h
      exact h
    · intro h
      exact ⟨_, _, ⟨rfl, rfl⟩, h⟩
  · rename_i hv
    simp [hv]

/-- A chain of copies is followed up to a name that it does not have yet. -/
theorem gives_followCopies_succ {name target : String} {most : Nat} {chain : List String}
    {result : List String × String} :
    Gives (followCopies source name (most + 1) chain target) before result after ↔
      target ∉ chain ∧
        (((before.slot? target).isSome = true ∨ source.custom.contains target = true) ∧
            result = (chain, target) ∧ after = before ∨
          before.slot? target = none ∧ source.custom.get? target = none ∧
            ((∃ next, source.definition? target = some (.copy next) ∧
                Gives (followCopies source name most (chain ++ [target]) next) before result
                  after) ∨
              ∃ defn, source.definition? target = some defn ∧ (∀ next, defn ≠ .copy next) ∧
                result = (chain, target) ∧ after = before)) := by
  rw [followCopies]
  by_cases hm : target ∈ chain
  · simp [hm]
  · simp only [List.contains_iff_mem, hm, if_false, not_false_eq_true, true_and]
    rw [gives_isRegistered_bind, Table.contains_eq_isSome]
    cases before.slot? target with
    | some slot => simp [eq_comm (a := result), eq_comm (a := after)]
    | none =>
      cases source.custom.get? target with
      | some transform => simp [eq_comm (a := result), eq_comm (a := after)]
      | none =>
        simp only [Option.isSome_none, Bool.false_eq_true, Bool.or_false, if_false]
        rw [gives_definition_bind]
        cases source.definition? target with
        | none => simp
        | some defn => cases defn <;> simp [eq_comm (a := result), eq_comm (a := after)]

/-- What every step along a chain of copies keeps holds at its end. This is no name of the chain,
and a copy only if it has a slot or a transform. -/
theorem chain_induction {P : List String → String → Prop} {name target stop : String} {most : Nat}
    {chain names : List String}
    (step : ∀ chain target next, target ∉ chain → before.slot? target = none →
      source.custom.get? target = none → source.definition? target = some (.copy next) →
        P chain target → P (chain ++ [target]) next)
    (hp : P chain target)
    (h : Gives (followCopies source name most chain target) before (names, stop) after) :
    after = before ∧ P names stop ∧ stop ∉ names ∧
      (before.slot? stop = none → source.custom.get? stop = none →
        ∀ next, source.definition? stop ≠ some (.copy next)) := by
  induction most generalizing chain target with
  | zero => exact (gives_throw.mp h).elim
  | succ most ih =>
    obtain ⟨hn, ⟨hstop, he, rfl⟩ | ⟨hs, hc, ⟨next, hd, h⟩ | ⟨defn, hd, hcopy, he, rfl⟩⟩⟩ :=
      gives_followCopies_succ.mp h
    · cases he
      refine ⟨rfl, hp, hn, fun hs hc => ?_⟩
      rw [Table.contains_eq_isSome, hs, hc] at hstop
      simp at hstop
    · exact ih (step chain target next hn hs hc hd hp) h
    · cases he
      refine ⟨rfl, hp, hn, fun _ _ next hnext => hcopy next ?_⟩
      rw [hd] at hnext
      exact Option.some.inj hnext

theorem gives_copiedSlot {name fromType : String} {chain : List String} {slot : Slot} :
    Gives (copiedSlot source add name fromType) before (chain, slot) after ↔
      ∃ target between,
        Gives (followCopies source name (source.schema.types.size + 2) [name] fromType) before
          (chain, target) between ∧
        Gives (addNamed source add target) between () after ∧ after.slot? target = some slot := by
  simp only [copiedSlot, gives_bind, gives_slotOfName, gives_pure]
  constructor
  · intro h
    obtain ⟨⟨chain, target⟩, between, hf, slot, _, ⟨ha, hs⟩, he, rfl⟩ := h
    cases he
    exact ⟨target, between, hf, ha, hs⟩
  · intro h
    obtain ⟨target, between, hf, ha, hs⟩ := h
    exact ⟨(chain, target), between, hf, slot, after, ⟨ha, hs⟩, rfl, rfl⟩

theorem gives_addCopy {name fromType : String} :
    Gives (addCopy source add name fromType) before () after ↔
      ∃ chain slot between,
        Gives (copiedSlot source add name fromType) before (chain, slot) between ∧
        Gives (chain.forM fun name => modify (·.addName name slot)) between () after := by
  simp only [addCopy, gives_bind]
  constructor
  · intro h
    obtain ⟨⟨chain, slot⟩, between, hc, h⟩ := h
    exact ⟨chain, slot, between, hc, h⟩
  · intro h
    obtain ⟨chain, slot, between, hc, h⟩ := h
    exact ⟨(chain, slot), between, hc, h⟩

theorem gives_addDefnUpTo_succ {most : Nat} {name : String} {defn : TypeDefn} :
    Gives (addDefnUpTo source (most + 1) name defn) before () after ↔
      (before.slot? name).isSome = true ∧ after = before ∨
        before.slot? name = none ∧
          Gives (match source.custom.get? name, defn with
            | some transform, _ => addCustom name transform
            | none, .copy fromType => addCopy source (addDefnUpTo source most) name fromType
            | none, defn => fillNewSlot name (defn.compile source (addDefnUpTo source most) name))
            before () after := by
  simp only [addDefnUpTo, gives_isRegistered_bind]
  cases before.slot? name with
  | some slot => simp [eq_comm]
  | none =>
    constructor
    · intro h
      exact .inr ⟨rfl, h⟩
    · intro h
      rcases h with ⟨hs, -⟩ | ⟨-, h⟩
      · cases hs
      · exact h

end Compilation

end LinkedSchema
