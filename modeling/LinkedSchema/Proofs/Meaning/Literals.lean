import LinkedSchema.Proofs.Compile.Faithful
import LinkedSchema.Proofs.Meaning.Definitions
import LinkedSchema.Proofs.RoundTrip.Scalars
import Mathlib.Order.Filter.AtTopBot.Basic
import Mathlib.Order.Filter.Finite

namespace LinkedSchema

open Filter

namespace Source

variable {source : Source} {registry : Registry} {name target : String} {term : TypeTerm}
  {defn : TypeDefn} {direction : Direction} {slot : Slot} {literal value : Value}
  {path : List String}

theorem NamesApart.interpret_custom (hn : source.NamesApart) (h : source.Means name term)
    {transform : CustomTransform} (hc : source.custom.get? name = some transform) (most : Nat)
    (value : Value) :
    source.interpretUpTo (most + 1) direction term value =
      Conversion.result (transform.convert name direction value) value := by
  cases h with
  | named => simp only [interpretUpTo, hc]
  | inline _ hm =>
    rw [hn.custom _ hm] at hc
    cases hc

/-- A reference is interpreted by the definition of the name that it stands for. -/
theorem NamesApart.interpret_defn (hn : source.NamesApart) (h : source.Means name term)
    (hc : source.custom.get? name = none) (ho : source.Origin name defn) (most : Nat)
    (value : Value) :
    source.interpretUpTo (most + 1) direction term value =
      defn.interpret direction (source.interpretUpTo most) value := by
  cases h with
  | named h =>
    cases ho with
    | declared hd => simp only [interpretUpTo, hc, hd]
    | inline hm => exact absurd hm (h _)
  | inline hi hm =>
    rw [hn.origin_unique ho (.inline hm)]
    cases term with
    | named other => cases hi
    | map inner =>
      cases hi
      rfl
    | list inner =>
      cases hi
      rfl
    | link inner =>
      cases hi
      rfl

/-- Copies take steps, and change nothing else. -/
theorem NamesApart.interpret_leads (hn : source.NamesApart) (hl : source.Leads name target) :
    ∃ steps, ∀ term, source.Means name term → ∃ stop, source.Means target stop ∧
      ∀ most direction value, source.interpretUpTo (most + steps) direction term value =
        source.interpretUpTo most direction stop value := by
  induction hl with
  | refl => exact ⟨0, fun term h => ⟨term, h, fun _ _ _ => rfl⟩⟩
  | copy hc hd hnext ih =>
    rename_i name next target
    have hm : ("fromType", TypeTerm.named next) ∈ (TypeDefn.copy next).parts :=
      List.mem_singleton_self _
    have hpart : source.Means next (.named next) := hn.means_part (.declared hd) hc hm
    obtain ⟨steps, hsteps⟩ := ih
    refine ⟨steps + 1, fun term h => ?_⟩
    obtain ⟨stop, hstop, hsame⟩ := hsteps _ hpart
    refine ⟨stop, hstop, fun most direction value => ?_⟩
    rw [← Nat.add_assoc, hn.interpret_defn h hc (.declared hd), ← hsame]
    rfl

/-- Copies lead to one name that is no copy. -/
theorem NamesApart.leads_unique (hn : source.NamesApart) {other : String}
    (hl : source.Leads name target) (hl' : source.Leads name other) (hr : source.IsRoot target)
    (hr' : source.IsRoot other) : target = other := by
  induction hl with
  | refl => exact hn.eq_of_leads hr hl'
  | copy hc hd hnext ih =>
    cases hl' with
    | refl => exact (hn.eq_of_leads hr' (.copy hc hd hnext)).symm
    | copy _ hd' hnext' =>
      rw [hd] at hd'
      cases hd'
      exact ih hnext' hr

/-- The type of a name reads a literal, by the types of the names in the path. -/
inductive ReadsLiteral (source : Source) : String → Value → List String → Value → Prop where
  | custom {name : String} {transform : CustomTransform} {literal value : Value}
      (hc : source.custom.get? name = some transform)
      (hr : (transform.convert name .toTyped literal).result literal = .ok value) :
      ReadsLiteral source name literal [name] value
  /-- A type without parts. -/
  | leaf {name : String} {defn : TypeDefn} {literal value : Value}
      (hc : source.custom.get? name = none) (ho : source.Origin name defn) (hp : defn.parts = [])
      (hr : ∀ part, defn.interpret .toTyped part literal = .ok value) :
      ReadsLiteral source name literal [name] value
  | union {name member target : String} {defn : UnionDefn} {literal content value : Value}
      {path : List String} (hc : source.custom.get? name = none)
      (ho : source.Origin name (.union defn)) (hm : member ∈ defn.members)
      (hs : defn.representation.select? literal = some (member, content))
      (hl : source.Leads member target) (h : ReadsLiteral source target content path value) :
      ReadsLiteral source name literal (name :: path) (.map (SortedMap.singleton member value))

theorem ReadsLiteral.isRoot (h : source.ReadsLiteral name literal path value) :
    source.IsRoot name := by
  cases h with
  | custom hc => exact .custom hc
  | leaf hc ho hp =>
    refine .defined hc ho fun fromType he => ?_
    subst he
    cases hp
  | union hc ho => exact .defined hc ho nofun

/-- Every type of a path reads a literal. -/
theorem ReadsLiteral.of_mem {via : String} (h : source.ReadsLiteral name literal path value)
    (hm : via ∈ path) :
    ∃ literal path value, source.ReadsLiteral via literal path value := by
  induction h with
  | custom hc hr =>
    rw [List.mem_singleton.mp hm]
    exact ⟨_, _, _, .custom hc hr⟩
  | leaf hc ho hp hr =>
    rw [List.mem_singleton.mp hm]
    exact ⟨_, _, _, .leaf hc ho hp hr⟩
  | union hc ho hmem hsel hl h ih =>
    rcases List.mem_cons.mp hm with rfl | hm
    · exact ⟨_, _, _, .union hc ho hmem hsel hl h⟩
    · exact ih hm

end Source

/-- A type without parts converts as its definition says. -/
theorem Built.interpret_of_parts {slotOf : String → Option Slot} {typed : Reading} {owner : String}
    {defn : TypeDefn} {node : Node} (hb : Built slotOf typed owner defn node)
    (hp : defn.parts = []) (direction : Direction) (p : PartOutcome) (q : TermOutcome)
    (value : Value) : node.plain direction p value = defn.interpret direction q value :=
  hb.related Congruence.eq (by simp [hp]) (by simp [hp]) value

namespace Source

variable {source : Source} {registry : Registry} {name target : String} {term : TypeTerm}
  {slot : Slot} {literal value : Value} {path : List String} {most : Nat}

/-- What a scalar is read as, is read by a path of types. -/
theorem Faithful.exists_readsLiteral (hf : source.Faithful registry) (hr : source.IsRoot name)
    (hs : registry.slot? name = some slot) (hv : (Kind.of literal).isScalar = true)
    (h : registry.outcomeUpTo .toTyped most slot literal = .ok value) :
    ∃ path, source.ReadsLiteral name literal path value := by
  induction most generalizing name slot literal value with
  | zero => cases h
  | succ most ih =>
    obtain ⟨less, node, he, hnode, h⟩ := hf.wellFormed.exists_of_outcomeUpTo h
    cases he
    cases hf.compiled hr hs hnode with
    | custom hc => exact ⟨_, .custom hc h⟩
    | built hc ho hb =>
      rename_i defn
      by_cases hp : defn.parts = []
      · refine ⟨_, .leaf hc ho hp fun q => ?_⟩
        rw [← hb.interpret_of_parts hp, h]
      · have hscalar := Node.readsScalar hb.wellFormed hb.untransformed hv h
        cases hb with
        | union hst hnames hm =>
          rename_i defn strategy members
          obtain ⟨place, content, member, converted, hsel, hget, hconv, rfl⟩ :=
            Node.readPlainUnion_eq_ok_iff.mp h
          have hagree := UnionDefn.select?_agrees (UnionDefn.builtStrategy_of_eq_ok hst) literal
          rw [hsel] at hagree
          generalize hnamed : defn.representation.select? literal = named at hagree
          cases hagree with
          | some hshows =>
            obtain ⟨hplace, rfl⟩ := hshows
            obtain ⟨_, hget', hname, hslot⟩ := UnionDefn.exists_member_of_places hm hplace
            rw [hget] at hget'
            cases hget'
            obtain ⟨target, hl, hroot, ht⟩ := hf.root _ _ hslot
            obtain ⟨path, hpath⟩ := ih hroot ht (Strategy.isScalar_of_select? hsel hv) hconv
            rw [hname]
            exact ⟨_, .union hc ho (UnionDefn.mem_of_places hplace) hnamed hl hpath⟩
        | enum => exact absurd rfl hp
        | null | bool | string | bytes | int | float | link => exact absurd rfl hp
        | _ => cases hscalar

/-- A filled slot of a union shows the member that the union selects. -/
theorem NamesApart.exists_member (hn : source.NamesApart) (hf : source.Faithful registry)
    {defn : UnionDefn} {node : Node} {member : String} {content : Value}
    (hc : source.custom.get? name = none) (ho : source.Origin name (.union defn))
    (hs : registry.slot? name = some slot) (hnode : registry.node? slot = some node)
    (hsel : defn.representation.select? literal = some (member, content))
    (hl : source.Leads member target) (hr : source.IsRoot target) :
    ∃ members strategy place found, node = .union members strategy ∧
      strategy.select? literal = some (place, content) ∧ members[place]? = some found ∧
        found.name = member ∧ registry.slot? target = some found.slot := by
  cases hf.compiled (.defined hc ho nofun) hs hnode with
  | custom hc' => simp [hc] at hc'
  | built _ ho' hb =>
    cases hn.origin_unique ho ho'
    cases hb with
    | union hst hnames hm =>
      rename_i strategy members
      have hagree := UnionDefn.select?_agrees (UnionDefn.builtStrategy_of_eq_ok hst) literal
      rw [hsel] at hagree
      generalize hplaced : strategy.select? literal = placed at hagree
      cases hagree with
      | some hshows =>
        rename_i placed
        obtain ⟨place, shown⟩ := placed
        obtain ⟨hplace, rfl⟩ := hshows
        obtain ⟨found, hget, hname, hslot⟩ := UnionDefn.exists_member_of_places hm hplace
        obtain ⟨other, hlead, hroot, hother⟩ := hf.root _ _ hslot
        rw [← hn.leads_unique hl hlead hr hroot] at hother
        exact ⟨members, strategy, place, found, rfl, hplaced, hget, hname, hother⟩

/-- A literal can be read once all types of its path are compiled. -/
theorem Faithful.types_of_readsLiteral (hn : source.NamesApart) (hf : source.Faithful registry)
    (h : source.ReadsLiteral name literal path value) (hs : registry.slot? name = some slot)
    (hfilled : ∀ other ∈ path, ∀ slot, registry.slot? other = some slot →
      (registry.node? slot).isSome = true) :
    registry.Types slot literal value := by
  refine hf.wellFormed.outcome_eq_ok_iff.mpr ?_
  induction h generalizing slot with
  | custom hc hr =>
    obtain ⟨node, hnode⟩ := Option.isSome_iff_exists.mp (hfilled _ (by simp) slot hs)
    refine ⟨1, ?_⟩
    rw [hf.wellFormed.outcomeUpTo_succ hnode]
    cases hf.compiled (.custom hc) hs hnode with
    | custom hc' =>
      rw [hc] at hc'
      cases hc'
      exact hr
    | built hc' => simp [hc] at hc'
  | leaf hc ho hp hr =>
    have hroot := (ReadsLiteral.leaf hc ho hp hr).isRoot
    obtain ⟨node, hnode⟩ := Option.isSome_iff_exists.mp (hfilled _ (by simp) slot hs)
    refine ⟨1, ?_⟩
    rw [hf.wellFormed.outcomeUpTo_succ hnode]
    cases hf.compiled hroot hs hnode with
    | custom hc' => simp [hc] at hc'
    | built _ ho' hb =>
      cases hn.origin_unique ho ho'
      rw [hb.interpret_of_parts hp _ _ (fun _ _ _ => .error .exhausted)]
      exact hr _
  | union hc ho hm hsel hl h ih =>
    obtain ⟨node, hnode⟩ := Option.isSome_iff_exists.mp (hfilled _ (by simp) slot hs)
    obtain ⟨members, strategy, place, found, rfl, hplace, hget, rfl, ht⟩ :=
      hn.exists_member hf hc ho hs hnode hsel hl h.isRoot
    obtain ⟨most, hconv⟩ := ih ht fun other ho => hfilled other (List.mem_cons_of_mem _ ho)
    refine ⟨most + 1, ?_⟩
    rw [hf.wellFormed.outcomeUpTo_succ hnode]
    exact Node.readPlainUnion_eq_ok_iff.mpr ⟨place, _, found, _, hplace, hget, hconv, rfl⟩

/-- A literal that was read met no empty slot. -/
theorem Faithful.filled_of_readsLiteral (hn : source.NamesApart) (hf : source.Faithful registry)
    (h : source.ReadsLiteral name literal path value) (hs : registry.slot? name = some slot)
    {result : Value} (hread : registry.outcomeUpTo .toTyped most slot literal = .ok result) :
    ∀ other ∈ path, ∃ slot node, registry.slot? other = some slot ∧
      registry.node? slot = some node := by
  induction h generalizing slot most result with
  | custom hc hr =>
    obtain ⟨_, node, _, hnode, _⟩ := hf.wellFormed.exists_of_outcomeUpTo hread
    intro other ho
    rw [List.mem_singleton.mp ho]
    exact ⟨slot, node, hs, hnode⟩
  | leaf hc ho hp hr =>
    obtain ⟨_, node, _, hnode, _⟩ := hf.wellFormed.exists_of_outcomeUpTo hread
    intro other ho
    rw [List.mem_singleton.mp ho]
    exact ⟨slot, node, hs, hnode⟩
  | union hc ho hm hsel hl h ih =>
    obtain ⟨less, node, _, hnode, hread⟩ := hf.wellFormed.exists_of_outcomeUpTo hread
    obtain ⟨members, strategy, place, found, rfl, hplace, hget, rfl, ht⟩ :=
      hn.exists_member hf hc ho hs hnode hsel hl h.isRoot
    obtain ⟨_, _, _, _, hplace', hget', hconv, _⟩ := Node.readPlainUnion_eq_ok_iff.mp hread
    rw [hplace] at hplace'
    cases hplace'
    rw [hget] at hget'
    cases hget'
    intro other ho
    rcases List.mem_cons.mp ho with rfl | ho
    · exact ⟨slot, _, hs, hnode⟩
    · exact ih ht hconv other ho

theorem eventually_of_add {P : Nat → Prop} (k : Nat) (h : ∀ᶠ n in atTop, P (n + k)) :
    ∀ᶠ n in atTop, P n := by
  rw [← map_add_atTop_eq_nat k]
  exact eventually_map.mpr h

/-- The interpreter reads a literal as the types of its path do, given enough steps. -/
theorem ReadsLiteral.eventually_interpret (hn : source.NamesApart)
    (h : source.ReadsLiteral target literal path value) (hl : source.Leads name target) :
    ∀ᶠ most in atTop, ∀ term, source.Means name term →
      source.interpretUpTo most .toTyped term literal = .ok value := by
  induction h generalizing name with
  | custom hc hr =>
    obtain ⟨steps, hsteps⟩ := hn.interpret_leads hl
    refine eventually_of_add (1 + steps) (.of_forall fun most term hm => ?_)
    obtain ⟨stop, hstop, hsame⟩ := hsteps term hm
    rw [← Nat.add_assoc, hsame, hn.interpret_custom hstop hc]
    exact hr
  | leaf hc ho hp hr =>
    obtain ⟨steps, hsteps⟩ := hn.interpret_leads hl
    refine eventually_of_add (1 + steps) (.of_forall fun most term hm => ?_)
    obtain ⟨stop, hstop, hsame⟩ := hsteps term hm
    rw [← Nat.add_assoc, hsame, hn.interpret_defn hstop hc ho]
    exact hr _
  | union hc ho hmem hsel hlead h ih =>
    rename_i member _ defn _ content value _
    obtain ⟨steps, hsteps⟩ := hn.interpret_leads hl
    have hpart : ("member", .named member) ∈ (TypeDefn.union defn).parts :=
      List.mem_map.mpr ⟨member, hmem, rfl⟩
    have hmember : source.Means member (.named member) := hn.means_part ho hc hpart
    refine eventually_of_add (1 + steps) ((ih hlead).mono fun most hread term hm => ?_)
    obtain ⟨stop, hstop, hsame⟩ := hsteps term hm
    rw [← Nat.add_assoc, hsame, hn.interpret_defn hstop hc ho]
    simp only [TypeDefn.interpret, UnionDefn.interpret, hsel, Plain.tag, hread _ hmember,
      Outcome.ok_bind]
    rfl

end Source

end LinkedSchema
