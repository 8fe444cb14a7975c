import LinkedSchema.Proofs.Order.Reachable

namespace LinkedSchema

namespace Source

open Compilation

variable {source : Source} {name : String} {defn : TypeDefn}

/-- A source that has room for a definition, given names that have slots: it has the definitions
that may be compiled on the way, and there are steps enough for all of them. -/
structure Suits (source room : Source) (known : List String) (name : String) (defn : TypeDefn)
    (most : Nat) : Prop where
  origin : (∀ next, defn ≠ .copy next) → room.Origin name defn
  others : ∀ other ∉ name :: known, source.definition? other = room.definition? other
  copy : ∀ next, defn = .copy next → ∀ other ∉ known,
    source.definition? other = room.definition? other
  enough : room.Suffices known defn most

namespace Suits

variable {room : Source} {known : List String} {most : Nat} {target : String} {inner : TypeDefn}

/-- With the name known, there is room for the definition of a name that its own one refers to. -/
theorem named (h : source.Suits room known name defn (most + 1)) (hn : name ∉ known)
    (hcopy : ∀ next, defn ≠ .copy next) (ht : target ∉ name :: known)
    (hd : source.definition? target = some inner) :
    source.Suits room (name :: known) target inner most where
  origin _ := .declared (h.others target ht ▸ hd)
  others other ho := h.others other fun hm => ho (List.mem_cons_of_mem _ hm)
  copy _ _ := h.others
  enough := h.enough.part (h.origin hcopy).mem_definedNames hn inner

/-- There is room for a definition in the place of a reference. -/
theorem inline {part : String × TypeTerm} (h : source.Suits room known name defn (most + 1))
    (hn : name ∉ known) (hc : room.custom.get? name = none) (hcopy : ∀ next, defn ≠ .copy next)
    (hp : part ∈ defn.parts) (hi : part.2.inline? = some inner) :
    source.Suits room (name :: known) (anonymousName name part.1) inner most where
  origin _ := (h.origin hcopy).part hc hp hi
  others other ho := h.others other fun hm => ho (List.mem_cons_of_mem _ hm)
  copy _ _ := h.others
  enough := h.enough.part (h.origin hcopy).mem_definedNames hn inner

/-- There is room for the definition that a chain of copies leads to. -/
theorem root {fromType : String} (h : source.Suits room known name (.copy fromType) (most + 1))
    (ht : target ∉ known) (hd : source.definition? target = some inner)
    (hcopy : ∀ next, inner ≠ .copy next) : source.Suits room known target inner most := by
  have hfound : room.definition? target = some inner := h.copy fromType rfl target ht ▸ hd
  exact ⟨fun _ => .declared hfound,
    fun other ho => h.copy fromType rfl other fun hm => ho (List.mem_cons_of_mem _ hm),
    fun next he => absurd he (hcopy next),
    h.enough.root (Origin.declared hfound).mem_definedNames ht hcopy⟩

end Suits

end Source

end LinkedSchema
