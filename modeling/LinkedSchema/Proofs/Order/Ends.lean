import LinkedSchema.Proofs.Compile.Closed
import LinkedSchema.Proofs.Compile.Faithful
import LinkedSchema.Proofs.Plain.Steps

namespace LinkedSchema

/-- The name is that of a struct of which the field has the implicit value. -/
def Source.HasImplicit (source : Source) (owner field : String) (json : Json Empty) : Prop :=
  ∃ defn, source.definition? owner = some (.struct defn) ∧ defn.implicit? field = some json

/-- The conversion of the implicit value of a field comes to no end, by one of the types compiled so
far and in however many steps. -/
def Source.Endless (source : Source) (registry : Registry) (owner field : String) : Prop :=
  ∃ json literal slot, source.HasImplicit owner field json ∧ scalar? json = some literal ∧
    ∀ most, registry.convertUpTo .toTyped most slot literal = .error .exhausted

/-- The error is the result of a compilation that ends. What well-formed types leave undecided in
the steps that they are allowed has no end. -/
def SchemaError.EndsIn (source : Source) (registry : Registry) : SchemaError → Prop
  | exhausted => False
  | invalidImplicit owner field .endless =>
    registry.WellFormed → source.Endless registry owner field
  | _ => True

theorem SchemaError.IsRefusal.endsIn {error : SchemaError} (h : error.IsRefusal) (source : Source)
    (registry : Registry) : error.EndsIn source registry := by
  cases error with
  | exhausted => exact h
  | invalidImplicit owner field flaw =>
    cases flaw with
    | invalid => trivial
    | endless => exact h.elim
  | _ => trivial

namespace Compilation

variable {α β : Type} {source : Source} {kind other : Registry → Prop} {registry after : Registry}
  {name : String}

/-- From a registry the step comes to an end, unless it meets implicit values of the source that
come to none, and leaves a registry of the kind, also where it fails. -/
structure EndsAt (source : Source) (kind : Registry → Prop) (registry : Registry)
    (x : Compilation α) : Prop where
  ends : ∀ error, ((ExceptT.run x).run registry).1 = .error error →
    error.EndsIn source ((ExceptT.run x).run registry).2
  kept : kind ((ExceptT.run x).run registry).2

/-- From all registries of the kind. -/
def Ends (source : Source) (kind : Registry → Prop) (x : Compilation α) : Prop :=
  ∀ registry, kind registry → EndsAt source kind registry x

namespace EndsAt

theorem of_gives {x : Compilation α} {a : α} (h : Gives x registry a after) (hk : kind after) :
    EndsAt source kind registry x := by
  unfold Gives at h
  exact ⟨by rw [h]; exact nofun, by rw [h]; exact hk⟩

theorem imp {x : Compilation α} (h : EndsAt source kind registry x)
    (hi : ∀ registry, kind registry → other registry) : EndsAt source other registry x :=
  ⟨h.ends, hi _ h.kept⟩

theorem pure (a : α) (hk : kind registry) :
    EndsAt source kind registry (pure a : Compilation α) :=
  .of_gives (gives_pure.mpr ⟨rfl, rfl⟩) hk

theorem throwIn {error : SchemaError} (he : error.EndsIn source registry) (hk : kind registry) :
    EndsAt source kind registry (throw error : Compilation α) := by
  refine ⟨fun found hf => ?_, hk⟩
  cases hf
  exact he

theorem throw {error : SchemaError} (he : error.IsRefusal) (hk : kind registry) :
    EndsAt source kind registry (throw error : Compilation α) :=
  .throwIn (he.endsIn source registry) hk

theorem bind {x : Compilation α} {f : α → Compilation β} (h : EndsAt source kind registry x)
    (hf : ∀ a after, Gives x registry a after → kind after → EndsAt source kind after (f a)) :
    EndsAt source kind registry (x >>= f) := by
  obtain ⟨he, hk⟩ := h
  cases hx : (ExceptT.run x).run registry with
  | mk result between =>
    rw [hx] at he hk
    cases result with
    | ok a =>
      have hnext := hf a between hx hk
      exact ⟨by rw [run_bind, hx]; exact hnext.ends, by rw [run_bind, hx]; exact hnext.kept⟩
    | error error =>
      refine ⟨fun found hfound => ?_, by rw [run_bind, hx]; exact hk⟩
      rw [run_bind, hx] at hfound ⊢
      cases hfound
      exact he error rfl

/-- A slot is reserved, and filled if a type is made for it. -/
theorem fillNewSlot {node : Compilation Node}
    (h : EndsAt source other (registry.reserve name) node)
    (hk : ∀ between, other between → kind between)
    (hf : ∀ made between filled, other between →
      between.fill? registry.nodes.size made = some filled → kind filled) :
    EndsAt source kind registry (fillNewSlot name node) := by
  obtain ⟨he, ho⟩ := h
  cases hx : (ExceptT.run node).run (registry.reserve name) with
  | mk result between =>
    rw [hx] at he ho
    have hrun := run_fillNewSlot name node registry
    rw [hx] at hrun
    cases result with
    | ok made =>
      simp only at hrun
      cases hfill : between.fill? registry.nodes.size made with
      | some filled =>
        rw [hfill] at hrun
        exact .of_gives hrun (hf made between filled ho hfill)
      | none =>
        rw [hfill] at hrun
        refine ⟨fun found hfound => ?_, by rw [hrun]; exact hk between ho⟩
        rw [hrun] at hfound ⊢
        cases hfound
        trivial
    | error error =>
      refine ⟨fun found hfound => ?_, by rw [hrun]; exact hk between ho⟩
      rw [hrun] at hfound ⊢
      cases hfound
      exact he error rfl

end EndsAt

end Compilation

end LinkedSchema
