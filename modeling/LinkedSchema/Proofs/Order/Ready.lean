import LinkedSchema.Proofs.Compile.Admissible
import LinkedSchema.Proofs.Order.Budget
import LinkedSchema.Proofs.Order.References

namespace LinkedSchema

theorem Registry.exists_fill? {registry : Registry} {slot : Slot} (h : slot < registry.nodes.size)
    (node : Node) : ∃ filled, registry.fill? slot node = some filled := by
  cases hf : registry.fill? slot node with
  | none => exact absurd (fill?_eq_none_iff.mp hf) (Nat.not_le_of_lt h)
  | some filled => exact ⟨filled, rfl⟩

namespace Source

open Compilation

variable {source : Source} {good : String → Prop} {before after : Registry}
  {name next target owner : String} {bound : Nat} {add : DefnCompiler} {defn : TypeDefn}

/-- Every empty slot belongs to a type that reaches the name. -/
def Awaits (source : Source) (registry : Registry) (name : String) : Prop :=
  ∀ slot, slot < registry.nodes.size → registry.node? slot = none →
    ∃ owner, source.IsRoot owner ∧ registry.slot? owner = some slot ∧ source.Reaches owner name

namespace Awaits

theorem refers (h : source.Awaits before name) (hr : source.Refers name next) :
    source.Awaits before next := by
  intro slot hlt hempty
  obtain ⟨owner, hroot, hs, hreach⟩ := h slot hlt hempty
  exact ⟨owner, hroot, hs, hreach.tail hr⟩

theorem leads (h : source.Awaits before name) (hl : source.Leads name next) :
    source.Awaits before next := by
  induction hl with
  | refl => exact h
  | copy hc hd _ ih =>
    exact ih (h.refers ⟨hc, _, .declared hd, _, List.mem_singleton_self _, rfl⟩)

theorem compiles (h : source.Awaits before name) (hc : source.Compiles before after) :
    source.Awaits after name := by
  intro slot hlt hempty
  by_cases hold : slot < before.nodes.size
  · rw [hc.old slot hold] at hempty
    obtain ⟨owner, hroot, hs, hreach⟩ := h slot hold hempty
    exact ⟨owner, hroot, hc.moves.slot? hs, hreach⟩
  · have hfilled := hc.filled slot (Nat.le_of_not_lt hold) hlt
    simp [hempty] at hfilled

theorem reserve (h : source.Awaits before name) (hs : before.slot? name = none)
    (hr : source.IsRoot name) : source.Awaits (before.reserve name) name := by
  intro slot hlt hempty
  rw [Registry.size_reserve] at hlt
  rw [Registry.node?_reserve] at hempty
  rcases Nat.lt_succ_iff_lt_or_eq.mp hlt with hlt | rfl
  · obtain ⟨owner, hroot, hslot, hreach⟩ := h slot hlt hempty
    exact ⟨owner, hroot, (Move.reserve hs hr).slot? hslot, hreach⟩
  · exact ⟨name, hr, Registry.slot?_reserve_self _ name, .refl⟩

end Awaits

/-- The parts of a type can be compiled within the bound. -/
structure Ready (source : Source) (bound : Nat) (registry : Registry) (name : String) : Prop where
  faithful : source.Faithful registry
  awaits : source.Awaits registry name
  remaining : 2 * source.remaining registry + 1 ≤ bound

theorem Ready.compiles (hn : source.NamesApart) (h : source.Ready bound before name)
    (hc : source.Compiles before after) : source.Ready bound after name := by
  have hr := h.remaining
  have hle := hc.remaining_le
  exact ⟨h.faithful.moves hn hc.moves, h.awaits.compiles hc, by omega⟩

/-- The implicit value of a field can be read, however the compilation has come to its struct. -/
def ReadsImplicit (source : Source) (owner : String) (entry : String × StructField)
    (json : Json Empty) : Prop :=
  ∃ literal, scalar? json = some literal ∧
    ∀ after found, source.Faithful after → source.Awaits after owner →
      after.slot? (entry.2.type.nameIn owner entry.1) = some found →
        ∃ value, after.Types found literal value

/-- Types that pass the checks, with all that they refer to. -/
structure Compilable (source : Source) (good : String → Prop) : Prop where
  refers : ∀ {name next}, good name → source.Refers name next → good next
  root : ∀ {name}, good name → ∃ target, source.Leads name target ∧ source.IsRoot target
  valid : ∀ {name transform}, good name → source.custom.get? name = some transform →
    transform.isValid = true
  admissible : ∀ {name defn}, good name → source.custom.get? name = none →
    source.Origin name defn → defn.Admissible
  implicit : ∀ {owner defn details entry json}, good owner → source.custom.get? owner = none →
    source.Origin owner (.struct defn) → defn.representation = .map details →
      entry ∈ defn.fields.entries → ((details.get? entry.1).getD {}).implicit = some json →
        source.ReadsImplicit owner entry json

theorem Compilable.leads (hg : source.Compilable good) (h : good name)
    (hl : source.Leads name target) : good target := by
  induction hl with
  | refl => exact h
  | copy hc hd _ ih =>
    exact ih (hg.refers h ⟨hc, _, .declared hd, _, List.mem_singleton_self _, rfl⟩)

/-- A name that leads to a type is declared, unless it was made up or has a transform. -/
theorem Leads.exists_definition? (hl : source.Leads name target) (hr : source.IsRoot target)
    (hm : ∀ defn, (name, defn) ∉ source.inlines) (hc : source.custom.get? name = none) :
    ∃ defn, source.definition? name = some defn := by
  cases hl with
  | copy _ hd _ => exact ⟨_, hd⟩
  | refl =>
    cases hr with
    | custom hc' => simp [hc] at hc'
    | defined _ ho _ =>
      cases ho with
      | declared hd => exact ⟨_, hd⟩
      | inline hin => exact absurd hin (hm _)

/-- The bound allows a definition to be compiled. -/
def Affords (source : Source) (bound : Nat) (registry : Registry) (name : String)
    (defn : TypeDefn) : Prop :=
  2 * source.remaining registry + 1 ≤ bound ∨
    (∀ fromType, defn ≠ .copy fromType) ∧ registry.slot? name = none ∧
      2 * source.remaining registry ≤ bound

/-- Definitions can be compiled within the bound. -/
def AddsAll (source : Source) (good : String → Prop) (add : DefnCompiler) (bound : Nat) : Prop :=
  ∀ name defn before, source.Origin name defn → source.custom.get? name = none → good name →
    source.Faithful before → source.Awaits before name → source.Affords bound before name defn →
      ∃ after, Gives (add name defn) before () after

namespace AddsAll

theorem addNamed (hall : source.AddsAll good add bound) (hg : source.Compilable good)
    (hm : ∀ defn, (name, defn) ∉ source.inlines) (h : good name) (hf : source.Faithful before)
    (ha : source.Awaits before name)
    (hb : ∀ defn, source.definition? name = some defn → source.custom.get? name = none →
      before.slot? name = none → source.Affords bound before name defn) :
    ∃ after, Gives (addNamed source add name) before () after := by
  cases hs : before.slot? name with
  | some slot => exact ⟨before, gives_addNamed.mpr (.inl ⟨by rw [hs]; rfl, rfl⟩)⟩
  | none =>
    cases hc : source.custom.get? name with
    | some transform =>
      have hlt : before.nodes.size < (before.reserve name).nodes.size := by
        rw [Registry.size_reserve]
        exact Nat.lt_succ_self _
      obtain ⟨after, hfill⟩ := Registry.exists_fill? hlt (.custom name transform)
      exact ⟨after, gives_addNamed.mpr
        (.inr ⟨hs, .inl ⟨transform, hc, gives_addCustom.mpr ⟨hg.valid h hc, hfill⟩⟩⟩)⟩
    | none =>
      obtain ⟨target, hl, hr⟩ := hg.root h
      obtain ⟨defn, hd⟩ := hl.exists_definition? hr hm hc
      obtain ⟨after, hadd⟩ := hall name defn before (.declared hd) hc h hf ha (hb defn hd hc hs)
      exact ⟨after, gives_addNamed.mpr (.inr ⟨hs, .inr ⟨defn, hc, hd, hadd⟩⟩)⟩

theorem slotOfTerm (hall : source.AddsAll good add bound) (hadd : source.AddsWell add)
    (hn : source.NamesApart) (hg : source.Compilable good) {part : String × TypeTerm}
    (hc : source.custom.get? owner = none) (ho : source.Origin owner defn) (h : good owner)
    (hp : part ∈ defn.parts) (hr : source.Ready bound before owner) :
    ∃ slot after, Gives (slotOfTerm source add owner part.1 part.2) before slot after ∧
      source.Ready bound after owner := by
  have hrefers : source.Refers owner (part.2.nameIn owner part.1) := ⟨hc, defn, ho, part, hp, rfl⟩
  have hnext := hg.refers h hrefers
  have ha := hr.awaits.refers hrefers
  cases hi : part.2.inline? with
  | none =>
    have hmeans : source.Means (part.2.nameIn owner part.1)
        (.named (part.2.nameIn owner part.1)) := by
      rw [← TypeTerm.eq_named_of_inline? hi]
      exact hn.means_part ho hc hp
    obtain ⟨after, hgives⟩ := hall.addNamed hg hmeans.not_mem_inlines hnext hr.faithful ha
      fun _ _ _ _ => .inl hr.remaining
    obtain ⟨hcomp, hs⟩ := hadd.addNamed hr.faithful.wellFormed hgives
    obtain ⟨slot, hs⟩ := Option.isSome_iff_exists.mp hs
    refine ⟨slot, after, gives_slotOfTerm.mpr ⟨?_, hs⟩, hr.compiles hn hcomp⟩
    rw [hi]
    exact hgives
  | some inner =>
    have hin : (part.2.nameIn owner part.1, inner) ∈ source.inlines := by
      rw [TypeTerm.nameIn_of_inline? hi]
      exact ho.mem_inlines hc hp hi
    obtain ⟨after, hgives⟩ := hall _ inner before (.inline hin) (hn.custom _ hin) hnext
      hr.faithful ha (.inl hr.remaining)
    obtain ⟨hcomp, hs⟩ := hadd _ _ _ _ (.inline hin) hr.faithful.wellFormed hgives
    obtain ⟨slot, hs⟩ := Option.isSome_iff_exists.mp hs
    refine ⟨slot, after, gives_slotOfTerm.mpr ⟨?_, hs⟩, hr.compiles hn hcomp⟩
    rw [hi]
    exact hgives

end AddsAll

end Source

end LinkedSchema
