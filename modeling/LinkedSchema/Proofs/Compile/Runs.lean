import LinkedSchema.Compilation
import LinkedSchema.Proofs.Outcome

namespace LinkedSchema.Compilation

variable {α β : Type} {before after : Registry}

/-- The step succeeds on a registry with a result and another registry. -/
def Gives (x : Compilation α) (before : Registry) (a : α) (after : Registry) : Prop :=
  (ExceptT.run x).run before = (.ok a, after)

theorem gives_of_after {step : Compilation Unit} {registry : Registry}
    (h : (registry.after step).1 = .ok ()) : Gives step registry () (registry.after step).2 :=
  Prod.ext h rfl

@[simp] theorem gives_pure {a b : α} :
    Gives (pure a) before b after ↔ a = b ∧ before = after := by
  constructor
  · intro h
    cases h
    exact ⟨rfl, rfl⟩
  · intro h
    obtain ⟨rfl, rfl⟩ := h
    rfl

@[simp] theorem gives_throw {error : SchemaError} {a : α} :
    Gives (throw error) before a after ↔ False := by
  constructor
  · intro h
    cases h
  · exact False.elim

theorem run_bind (x : Compilation α) (f : α → Compilation β) (registry : Registry) :
    (ExceptT.run (x >>= f)).run registry =
      match (ExceptT.run x).run registry with
      | (.ok a, between) => (ExceptT.run (f a)).run between
      | (.error error, between) => (.error error, between) := by
  unfold ExceptT.run StateT.run
  simp only [bind, ExceptT.bind, ExceptT.mk, StateT.bind, ExceptT.bindCont]
  cases x registry with
  | mk result between => cases result <;> rfl

@[simp] theorem gives_bind {x : Compilation α} {f : α → Compilation β} {b : β} :
    Gives (x >>= f) before b after ↔
      ∃ a between, Gives x before a between ∧ Gives (f a) between b after := by
  unfold Gives
  rw [run_bind]
  cases (ExceptT.run x).run before with
  | mk result between =>
    cases result with
    | error error =>
      constructor
      · intro h
        cases h
      · intro h
        obtain ⟨_, _, h, _⟩ := h
        cases h
    | ok a =>
      constructor
      · intro h
        exact ⟨a, between, rfl, h⟩
      · intro h
        obtain ⟨_, _, he, h⟩ := h
        cases he
        exact h

@[simp] theorem gives_get {registry : Registry} :
    Gives get before registry after ↔ registry = before ∧ after = before := by
  constructor
  · intro h
    cases h
    exact ⟨rfl, rfl⟩
  · intro h
    obtain ⟨rfl, rfl⟩ := h
    rfl

@[simp] theorem gives_set {registry : Registry} {u : PUnit} :
    Gives (set registry) before u after ↔ after = registry := by
  constructor
  · intro h
    cases h
    rfl
  · intro he
    subst he
    rfl

@[simp] theorem gives_modify {f : Registry → Registry} {u : PUnit} :
    Gives (modify f) before u after ↔ after = f before := by
  constructor
  · intro h
    cases h
    rfl
  · intro he
    subst he
    rfl

@[simp] theorem gives_except {x : Except SchemaError α} {a : α} :
    Gives (liftM x) before a after ↔ x = .ok a ∧ after = before := by
  cases x with
  | error error =>
    constructor
    · intro h
      cases h
    · intro h
      obtain ⟨h, -⟩ := h
      cases h
  | ok b =>
    constructor
    · intro h
      cases h
      exact ⟨rfl, rfl⟩
    · intro h
      obtain ⟨h, rfl⟩ := h
      cases h
      rfl

theorem gives_slot? {name : String} {slot : Option Slot} :
    Gives (slot? name) before slot after ↔ slot = before.slot? name ∧ after = before := by
  constructor
  · intro h
    cases h
    exact ⟨rfl, rfl⟩
  · intro h
    obtain ⟨rfl, rfl⟩ := h
    rfl

theorem gives_isRegistered {name : String} {known : Bool} :
    Gives (isRegistered name) before known after ↔
      known = (before.slot? name).isSome ∧ after = before := by
  constructor
  · intro h
    cases h
    exact ⟨rfl, rfl⟩
  · intro h
    obtain ⟨rfl, rfl⟩ := h
    rfl

theorem gives_slotOfAdded {name : String} {slot : Slot} :
    Gives (slotOfAdded name) before slot after ↔
      before.slot? name = some slot ∧ after = before := by
  simp only [slotOfAdded, gives_bind, gives_slot?]
  constructor
  · intro h
    obtain ⟨found, between, ⟨rfl, rfl⟩, h⟩ := h
    split at h
    · rename_i hs
      obtain ⟨rfl, rfl⟩ := gives_pure.mp h
      exact ⟨hs, rfl⟩
    · exact (gives_throw.mp h).elim
  · intro h
    obtain ⟨hs, rfl⟩ := h
    exact ⟨some slot, after, ⟨hs.symm, rfl⟩, gives_pure.mpr ⟨rfl, rfl⟩⟩

theorem run_fillNewSlot (name : String) (node : Compilation Node) (registry : Registry) :
    (ExceptT.run (fillNewSlot name node)).run registry =
      match (ExceptT.run node).run (registry.reserve name) with
      | (.ok made, between) =>
        match between.fill? registry.nodes.size made with
        | some filled => (.ok (), filled)
        | none => (.error .impossible, between)
      | (.error error, between) => (.error error, between) := by
  have hreserve : (ExceptT.run (fillNewSlot name node)).run registry =
      (ExceptT.run (node >>= fun made => do
        match (← get).fill? registry.nodes.size made with
        | some filled => set filled
        | none => throw .impossible)).run (registry.reserve name) := rfl
  rw [hreserve, run_bind]
  cases (ExceptT.run node).run (registry.reserve name) with
  | mk result between =>
    cases result with
    | error error => rfl
    | ok made =>
      have hget : (ExceptT.run (get : Compilation Registry)).run between = (.ok between, between) :=
        rfl
      simp only [run_bind, hget]
      cases between.fill? registry.nodes.size made <;> rfl

theorem gives_fillNewSlot {name : String} {node : Compilation Node} :
    Gives (fillNewSlot name node) before () after ↔ ∃ made between,
      Gives node (before.reserve name) made between ∧
        between.fill? before.nodes.size made = some after := by
  simp only [fillNewSlot, gives_bind, gives_get, gives_modify]
  constructor
  · intro h
    obtain ⟨_, _, ⟨rfl, rfl⟩, _, _, rfl, made, _, hn, _, between, ⟨rfl, rfl⟩, h⟩ := h
    refine ⟨made, between, hn, ?_⟩
    split at h
    · rename_i filled hf
      rw [gives_set] at h
      rw [h]
      exact hf
    · exact (gives_throw.mp h).elim
  · intro h
    obtain ⟨made, between, hn, hf⟩ := h
    refine ⟨before, before, ⟨rfl, rfl⟩, ⟨⟩, _, rfl, made, between, hn, between, between,
      ⟨rfl, rfl⟩, ?_⟩
    simp only [hf]
    exact gives_set.mpr rfl

end LinkedSchema.Compilation
