import LinkedSchema.Proofs.Compile.Closed
import LinkedSchema.Proofs.Compile.Provenance
import LinkedSchema.Proofs.Plain.Stops

namespace LinkedSchema

namespace Registry

variable {registry : Registry}

/-- A conversion by well-formed types comes to no part of a type that is not there. -/
theorem WellFormed.convertUpTo_ne_impossible (hw : registry.WellFormed) (direction : Direction)
    (most : Nat) (slot : Slot) (value : Value) :
    registry.convertUpTo direction most slot value ≠ .error .impossible := by
  suffices StopsWithin (· ≠ .impossible) (registry.outcomeUpTo direction most slot value) by
    intro he
    refine this .impossible ?_ rfl
    rw [outcomeUpTo, PartConversion.result, he]
    rfl
  induction most generalizing slot value with
  | zero => exact .error (by simp)
  | succ most ih =>
    cases hn : registry.node? slot with
    | none =>
      rw [outcomeUpTo_succ_of_none hn]
      exact .error (by simp)
    | some node =>
      rw [hw.outcomeUpTo_succ hn]
      refine Node.stopsWithin_plain (by simp) (hw slot node hn) (fun name transform he => ?_)
        fun next part _ => ih next part
      subst he
      exact Node.stopsWithin_custom (by simp) (fun _ _ => (by simp)) name transform

end Registry

namespace Compilation

variable {α β : Type} {registry : Registry}

/-- On a registry the step does nothing impossible, and the types that it leaves are well-formed,
also if it fails. -/
structure SafeAt (registry : Registry) (x : Compilation α) : Prop where
  possible : ((ExceptT.run x).run registry).1 ≠ .error .impossible
  wellFormed : ((ExceptT.run x).run registry).2.WellFormed

/-- The step is safe wherever the types so far are well-formed. -/
def Safe (x : Compilation α) : Prop :=
  ∀ registry : Registry, registry.WellFormed → SafeAt registry x

namespace SafeAt

theorem of_gives {x : Compilation α} {a : α} {after : Registry} (h : Gives x registry a after)
    (hw : after.WellFormed) : SafeAt registry x := by
  unfold Gives at h
  exact ⟨by rw [h]; simp, by rw [h]; exact hw⟩

theorem bind {x : Compilation α} {f : α → Compilation β} (h : SafeAt registry x)
    (hf : ∀ a after, Gives x registry a after → after.WellFormed → SafeAt after (f a)) :
    SafeAt registry (x >>= f) := by
  obtain ⟨hp, hw⟩ := h
  cases hx : (ExceptT.run x).run registry with
  | mk result between =>
    rw [hx] at hp hw
    cases result with
    | ok a =>
      have hnext := hf a between hx hw
      exact ⟨by rw [run_bind, hx]; exact hnext.possible,
        by rw [run_bind, hx]; exact hnext.wellFormed⟩
    | error error =>
      refine ⟨?_, by rw [run_bind, hx]; exact hw⟩
      rw [run_bind, hx]
      intro he
      cases he
      exact hp rfl

/-- A slot is reserved, and filled with the type that is made for it. -/
theorem fillNewSlot {name : String} {node : Compilation Node}
    (h : SafeAt (registry.reserve name) node)
    (hm : ∀ made between, Gives node (registry.reserve name) made between →
      made.WellFormed ∧ (registry.reserve name).Grows between) :
    SafeAt registry (fillNewSlot name node) := by
  obtain ⟨hp, hw⟩ := h
  cases hx : (ExceptT.run node).run (registry.reserve name) with
  | mk result between =>
    rw [hx] at hp hw
    cases result with
    | ok made =>
      obtain ⟨hmade, hgrows⟩ := hm made between hx
      -- The slot was reserved before the type was made, so it is in range.
      have hlt : registry.nodes.size < between.nodes.size := by
        have hsize := hgrows.size
        rw [Registry.size_reserve] at hsize
        omega
      cases hf : between.fill? registry.nodes.size made with
      | none =>
        have hle := Registry.fill?_eq_none_iff.mp hf
        omega
      | some filled =>
        have hrun : (ExceptT.run (Compilation.fillNewSlot name node)).run registry =
            (.ok (), filled) := by
          rw [run_fillNewSlot, hx]
          simp only [hf]
        exact of_gives hrun (hw.fill hmade hf)
    | error error =>
      have hrun : (ExceptT.run (Compilation.fillNewSlot name node)).run registry =
          (.error error, between) := by
        rw [run_fillNewSlot, hx]
      refine ⟨?_, by rw [hrun]; exact hw⟩
      rw [hrun]
      intro he
      cases he
      exact hp rfl

end SafeAt

namespace Safe

theorem bind {x : Compilation α} {f : α → Compilation β} (h : Safe x) (hf : ∀ a, Safe (f a)) :
    Safe (x >>= f) :=
  fun registry hw => (h registry hw).bind fun a after _ hafter => hf a after hafter

theorem pure (a : α) : Safe (pure a : Compilation α) :=
  fun _ hw => .of_gives (gives_pure.mpr ⟨rfl, rfl⟩) hw

theorem throw {error : SchemaError} (h : error ≠ .impossible) :
    Safe (throw error : Compilation α) := by
  refine fun _ hw => ⟨fun he => ?_, hw⟩
  cases he
  exact h rfl

theorem get : Safe (get : Compilation Registry) :=
  fun _ hw => .of_gives (gives_get.mpr ⟨rfl, rfl⟩) hw

theorem modify {f : Registry → Registry} (h : ∀ registry, registry.WellFormed →
    (f registry).WellFormed) : Safe (modify f : Compilation PUnit) :=
  fun registry hw => .of_gives (gives_modify (u := ⟨⟩).mpr rfl) (h registry hw)

end Safe

/-- An implicit value is read by well-formed types. -/
theorem safe_typedImplicit (owner name : String) (type : PartType) (value : Value) :
    Safe (StructDefn.typedImplicit owner name type value) := by
  intro registry hw
  refine (Safe.get registry hw).bind fun found after hg hafter => ?_
  obtain ⟨rfl, rfl⟩ := gives_get.mp hg
  cases hc : after.convert .toTyped type.slot value with
  | ok change => exact Safe.pure _ _ hafter
  | error stop =>
    have hne := hafter.convertUpTo_ne_impossible .toTyped (after.budget value) type.slot value
    cases stop with
    | impossible => exact absurd hc hne
    | _ => exact Safe.throw (by simp) after hafter

theorem closed_safe : Closed (fun _ _ _ => True) Safe where
  pure := .pure
  throw he := .throw fun h => by subst h; exact he
  bind := .bind
  implicit owner name type _ value _ _ := safe_typedImplicit owner name type value

variable {source : Source} {add : DefnCompiler} {name owner : String}

theorem safe_isRegistered (name : String) : Safe (isRegistered name) :=
  fun _ hw => .of_gives (gives_isRegistered.mpr ⟨rfl, rfl⟩) hw

theorem safe_slotOfAdded (name : String) : Safe (slotOfAdded name) := by
  have hslot : Safe (slot? name) := fun _ hw => .of_gives (gives_slot?.mpr ⟨rfl, rfl⟩) hw
  refine hslot.bind fun slot => ?_
  cases slot with
  | none => exact .throw (by simp)
  | some slot => exact .pure slot

theorem safe_definition (source : Source) (name : String) :
    Safe (liftM (source.definition name) : Compilation TypeDefn) := by
  refine closed_safe.except fun error he => ?_
  unfold Source.definition at he
  split at he
  · cases he
  · cases he
    exact trivial

theorem safe_addCustom (name : String) (transform : CustomTransform) :
    Safe (addCustom name transform) := by
  intro registry hw
  unfold addCustom
  split
  · refine .fillNewSlot (Safe.pure _ _ (hw.reserve name)) fun made between hg => ?_
    obtain ⟨rfl, rfl⟩ := gives_pure.mp hg
    exact ⟨trivial, .refl _⟩
  · have hthrow : Safe (throw (.emptyTransform name) : Compilation Unit) := .throw (by simp)
    exact hthrow registry hw

/-- Definitions are added safely. -/
def AddsSafely (add : DefnCompiler) : Prop :=
  ∀ name defn, Safe (add name defn)

theorem AddsSafely.addNamed (h : AddsSafely add) (source : Source) (name : String) :
    Safe (addNamed source add name) := by
  refine (safe_isRegistered name).bind fun known => ?_
  split
  · exact .pure ()
  · split
    · exact safe_addCustom name _
    · exact (safe_definition source name).bind fun defn => h name defn

theorem AddsSafely.slotOfName (h : AddsSafely add) (source : Source) (name : String) :
    Safe (slotOfName source add name) :=
  (h.addNamed source name).bind fun _ => safe_slotOfAdded name

theorem AddsSafely.slotOfTerm (h : AddsSafely add) (source : Source) (owner part : String)
    (term : TypeTerm) : Safe (slotOfTerm source add owner part term) := by
  have hinline : ∀ defn, Safe (slotOfTerm.anonymous add owner part defn) :=
    fun defn => (h _ defn).bind fun _ => safe_slotOfAdded _
  cases term with
  | named name => exact h.slotOfName source name
  | map defn => exact hinline _
  | list defn => exact hinline _
  | link defn => exact hinline _

end Compilation

open Compilation

namespace Source

theorem safe_followCopies (source : Source) (name : String) (most : Nat) (chain : List String)
    (target : String) : Safe (followCopies source name most chain target) := by
  induction most generalizing chain target with
  | zero => exact .throw (by simp)
  | succ most ih =>
    simp only [followCopies]
    split
    · exact closed_safe.throwBind trivial
    · refine (safe_isRegistered target).bind fun known => ?_
      split
      · exact .pure _
      · refine (safe_definition source target).bind fun defn => ?_
        split
        · exact ih _ _
        · exact .pure _

theorem safe_addCopy {add : DefnCompiler} (h : AddsSafely add) (source : Source)
    (name fromType : String) : Safe (addCopy source add name fromType) := by
  have hcopied : Safe (copiedSlot source add name fromType) :=
    (source.safe_followCopies name _ _ fromType).bind fun ⟨chain, target⟩ =>
      (h.slotOfName source target).bind fun slot => .pure (chain, slot)
  refine hcopied.bind fun ⟨chain, slot⟩ => closed_safe.forM fun other _ => ?_
  exact .modify fun registry hw => hw.addName other slot

/-- Definitions are added safely, by induction on how deep they may lie within one another. -/
theorem addsSafely_addDefnUpTo (source : Source) (most : Nat) :
    AddsSafely (addDefnUpTo source most) := by
  induction most with
  | zero => exact fun _ _ => .throw (by simp)
  | succ most ih =>
    intro name defn registry hw
    refine (safe_isRegistered name registry hw).bind fun known after hg hafter => ?_
    obtain ⟨rfl, rfl⟩ := gives_isRegistered.mp hg
    split
    · exact Safe.pure _ _ hafter
    · split
      · exact safe_addCustom name _ after hafter
      · exact source.safe_addCopy ih name _ after hafter
      · rename_i defn _ _ hc hcopy
        have hcompile : Safe (defn.compile source (addDefnUpTo source most) name) :=
          TypeDefn.closed_compile closed_safe hcopy (fun _ _ _ _ _ => trivial) fun part _ =>
            ih.slotOfTerm source name _ _
        refine .fillNewSlot (hcompile _ (hafter.reserve name)) fun made between hg => ?_
        -- With its slot reserved, the name may as well be declared with the definition.
        have hself := Option.isSome_of_eq_some (after.slot?_reserve_self name)
        have hagrees := (AgreesOpen.refl source (after.reserve name)).declare hself defn
        have hs : source.Advances _ _ (source.declare name defn).Provides := Provides.advances rfl
        obtain ⟨hstep, hb⟩ := hs.compile (hs.addDefnUpTo most)
          (.declared definition?_declare_self) hself hc hagrees hg
        exact ⟨hb.wellFormed, hstep.grows⟩

theorem safe_perform (source : Source) (call : Call) : Safe (source.perform call) := by
  have hadd : AddsSafely source.addDefn := fun name defn =>
    source.addsSafely_addDefnUpTo (source.budget defn) name defn
  cases call with
  | type name => exact hadd.addNamed source name
  | defn name defn => exact hadd name defn
  | all => exact closed_safe.forM fun name _ => hadd.addNamed source name

theorem wellFormed_reached (source : Source) {registry : Registry} (hw : registry.WellFormed)
    (calls : List Call) : (source.reached registry calls).WellFormed := by
  induction calls generalizing registry with
  | nil => exact hw
  | cons call calls ih => exact ih (source.safe_perform call registry hw).wellFormed

end Source

/-- The places of members to which the table of a strategy leads. -/
def Strategy.places : Strategy → List Nat
  | kinded table => table.map Prod.snd
  | keyed table => table.map Prod.snd
  | envelope _ _ table => table.map Prod.snd
  | inlined _ table => table.map Prod.snd
  | stringPrefix table => table.map Prod.snd
  | bytesPrefix table => table.map Prod.snd

/-- The table of a union leads to members only, and the keys of a struct lead to the fields with
these keys. -/
def Node.InRange : Node → Prop
  | union members strategy => ∀ place ∈ strategy.places, place < members.length
  | structMap layout => ∀ key index, layout.keys.get? key = some index →
      index < layout.fields.size ∧
        ∃ field, layout.fields.values[index]? = some field ∧ field.key = key
  | _ => True

theorem SelectsApart.lt_of_mem_places {α : Type} {table : List (α × Nat)} {count place : Nat}
    (h : SelectsApart table count) (hm : place ∈ table.map Prod.snd) : place < count := by
  obtain ⟨entry, he, rfl⟩ := List.mem_map.mp hm
  exact h.bound entry he

theorem Strategy.WellFormed.lt_of_mem_places {strategy : Strategy} {count place : Nat}
    (h : strategy.WellFormed count) (hm : place ∈ strategy.places) : place < count := by
  cases strategy with
  | kinded => exact SelectsApart.lt_of_mem_places h hm
  | keyed => exact SelectsApart.lt_of_mem_places h hm
  | envelope => exact SelectsApart.lt_of_mem_places h.2 hm
  | inlined => exact SelectsApart.lt_of_mem_places h hm
  | stringPrefix => exact SelectsApart.lt_of_mem_places h.1 hm
  | bytesPrefix => exact SelectsApart.lt_of_mem_places h.1 hm

theorem Node.WellFormed.inRange {node : Node} (h : node.WellFormed) : node.InRange := by
  cases node with
  | union members strategy => exact fun place hm => h.2.lt_of_mem_places hm
  | structMap layout =>
    intro key index hk
    obtain ⟨field, hf, hkey⟩ := h.keys_get?_eq_some_iff.mp hk
    have hlt := (List.getElem?_eq_some_iff.mp hf).1
    rw [Table.values, List.length_map] at hlt
    exact ⟨hlt, field, hf, hkey⟩
  | _ => trivial

/-- Whatever calls came before, and whether they succeeded or failed: the next call fills no slot
and takes no field that is not there, compiled types lead to members and fields that are there, and
no conversion takes a member or a field that is not there or counts below zero the fields that are
still to come. All of these would be impossible. -/
theorem possible_of_calls (source : Source) (calls : List Call) :
    (∀ call, ((source.reached ∅ calls).after (source.perform call)).1 ≠ .error .impossible) ∧
      (∀ slot node, (source.reached ∅ calls).node? slot = some node → node.InRange) ∧
        ∀ direction most slot value,
          (source.reached ∅ calls).convertUpTo direction most slot value ≠ .error .impossible := by
  have hw := source.wellFormed_reached Registry.WellFormed.empty calls
  refine ⟨fun call => ?_, fun slot node hn => ?_, fun direction most slot value => ?_⟩
  · exact (source.safe_perform call _ hw).possible
  · exact (hw slot node hn).inRange
  · exact hw.convertUpTo_ne_impossible direction most slot value

end LinkedSchema
