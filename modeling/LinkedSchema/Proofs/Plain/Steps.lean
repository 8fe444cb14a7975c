import LinkedSchema.Proofs.Plain.Agreement
import LinkedSchema.Proofs.Plain.Parts
import Mathlib.Data.List.Perm.Subperm

namespace LinkedSchema.Registry

variable {registry : Registry} {direction : Direction} {slot : Slot} {value : Value}

@[simp] theorem node?_empty (slot : Slot) : node? ∅ slot = none := by
  simp [node?, EmptyCollection.emptyCollection]

theorem WellFormed.empty : WellFormed ∅ :=
  fun slot node hn => by simp at hn

/-- What the type in a slot makes of a value in at most the given number of steps. -/
def outcomeUpTo (registry : Registry) (direction : Direction) (most : Nat) : PartOutcome :=
  PartConversion.result (registry.convertUpTo direction most)

/-- What the type in a slot makes of a value. -/
def outcome (registry : Registry) (direction : Direction) : PartOutcome :=
  PartConversion.result (registry.convert direction)

theorem outcomeUpTo_succ_of_none (h : registry.node? slot = none) (most : Nat) :
    registry.outcomeUpTo direction (most + 1) slot value = .error .nonconforming := by
  simp only [outcomeUpTo, PartConversion.result, convertUpTo, h]
  rfl

theorem WellFormed.outcomeUpTo_succ (hw : registry.WellFormed) {node : Node}
    (h : registry.node? slot = some node) (most : Nat) :
    registry.outcomeUpTo direction (most + 1) slot value =
      node.plain direction (registry.outcomeUpTo direction most) value := by
  simp only [outcomeUpTo, PartConversion.result, convertUpTo, h]
  exact Node.result_convert _ value (hw slot node h) direction

theorem WellFormed.outcomeUpTo_le (hw : registry.WellFormed) {most more : Nat} (h : most ≤ more)
    (slot : Slot) (value : Value) :
    StopsOrEq .exhausted (registry.outcomeUpTo direction most slot value)
      (registry.outcomeUpTo direction more slot value) := by
  induction most generalizing more slot value with
  | zero => exact .inl rfl
  | succ most ih =>
    obtain ⟨more, rfl⟩ : ∃ m, more = m + 1 := ⟨more - 1, by omega⟩
    cases hn : registry.node? slot with
    | none =>
      rw [outcomeUpTo_succ_of_none hn, outcomeUpTo_succ_of_none hn]
      exact .inr rfl
    | some node =>
      rw [hw.outcomeUpTo_succ hn, hw.outcomeUpTo_succ hn]
      exact Node.rel_plain (StopsOrEq.congruence _) fun slot part _ => ih (by omega) slot part

/-- Steps that allow every conversion of the value by the slot that ends in any number of steps. -/
def Enough (registry : Registry) (direction : Direction) (slot : Slot) (value : Value)
    (most : Nat) : Prop :=
  ∀ n, StopsOrEq .exhausted (registry.outcomeUpTo direction n slot value)
    (registry.outcomeUpTo direction most slot value)

/-- The slots through which a value is passed on as a whole, up to the one that takes it apart. -/
inductive Passing (registry : Registry) (direction : Direction) (value : Value) :
    Slot → List Slot → Prop where
  | stop {slot : Slot}
      (h : ∀ node, registry.node? slot = some node → node.passesOn? direction value = none) :
      Passing registry direction value slot []
  | pass {slot next : Slot} {node : Node} {rest : List Slot} (h : registry.node? slot = some node)
      (hp : node.passesOn? direction value = some next)
      (hr : Passing registry direction value next rest) :
      Passing registry direction value slot (slot :: rest)

namespace Passing

theorem unique {passed others : List Slot} (h : Passing registry direction value slot passed)
    (ho : Passing registry direction value slot others) : passed = others := by
  induction h generalizing others with
  | stop h =>
    cases ho with
    | stop => rfl
    | pass hn hp _ => simp [h _ hn] at hp
  | pass hn hp _ ih =>
    cases ho with
    | stop ho => simp [ho _ hn] at hp
    | pass hn' hp' hr' =>
      rw [hn] at hn'
      cases hn'
      rw [hp] at hp'
      cases hp'
      rw [ih hr']

theorem of_mem {passed : List Slot} {other : Slot}
    (h : Passing registry direction value slot passed) (hm : other ∈ passed) :
    ∃ rest, Passing registry direction value other rest ∧ rest.length ≤ passed.length := by
  induction h with
  | stop => simp at hm
  | pass hn hp hr ih =>
    rcases List.mem_cons.mp hm with rfl | hm
    · exact ⟨_, .pass hn hp hr, Nat.le_refl _⟩
    · obtain ⟨rest, hr, hl⟩ := ih hm
      exact ⟨rest, hr, Nat.le_succ_of_le hl⟩

/-- A slot that came twice would come again and again. -/
theorem nodup {passed : List Slot} (h : Passing registry direction value slot passed) :
    passed.Nodup := by
  induction h with
  | stop => exact .nil
  | pass hn hp hr ih =>
    refine List.nodup_cons.mpr ⟨fun hm => ?_, ih⟩
    obtain ⟨rest, hrest, hl⟩ := hr.of_mem hm
    rw [← unique (.pass hn hp hr) hrest, List.length_cons] at hl
    omega

theorem lt_size {passed : List Slot} {other : Slot}
    (h : Passing registry direction value slot passed) (hm : other ∈ passed) :
    other < registry.nodes.size := by
  induction h with
  | stop => simp at hm
  | pass hn _ _ ih =>
    rcases List.mem_cons.mp hm with rfl | hm
    · refine Nat.lt_of_not_le fun hle => ?_
      simp [node?, Array.getElem?_eq_none hle] at hn
    · exact ih hm

theorem length_le {passed : List Slot} (h : Passing registry direction value slot passed) :
    passed.length ≤ registry.nodes.size := by
  have hs : passed ⊆ List.range registry.nodes.size := fun _ hm => List.mem_range.mpr (h.lt_size hm)
  simpa using (List.subperm_of_subset h.nodup hs).length_le

end Passing

/-- A value that is passed on for ever exhausts all steps. -/
theorem WellFormed.passing_or_exhausted (hw : registry.WellFormed) (direction : Direction) (n : Nat)
    (slot : Slot) (value : Value) :
    (∃ passed, Passing registry direction value slot passed) ∨
      registry.outcomeUpTo direction n slot value = .error .exhausted := by
  induction n generalizing slot with
  | zero => exact .inr rfl
  | succ n ih =>
    cases hn : registry.node? slot with
    | none => exact .inl ⟨[], .stop fun node h => by simp [hn] at h⟩
    | some node =>
      cases hp : node.passesOn? direction value with
      | none =>
        refine .inl ⟨[], .stop fun other h => ?_⟩
        rw [hn] at h
        cases h
        exact hp
      | some next =>
        rcases ih next with ⟨passed, h⟩ | h
        · exact .inl ⟨slot :: passed, .pass hn hp h⟩
        · refine .inr ?_
          rw [hw.outcomeUpTo_succ hn]
          exact Node.plain_of_passesOn? hp h

theorem WellFormed.enough_of_passing (hw : registry.WellFormed) (most : Nat) {passed : List Slot}
    (hp : Passing registry direction value slot passed)
    (h : ∀ slot part, part.weight < value.weight → ∀ more, most ≤ more →
      Enough registry direction slot part more)
    {more : Nat} (hm : most + passed.length < more) :
    Enough registry direction slot value more := by
  obtain ⟨more, rfl⟩ : ∃ m, more = m + 1 := ⟨more - 1, by omega⟩
  intro n
  cases n with
  | zero => exact .inl rfl
  | succ n =>
    induction hp generalizing n more with
    | stop hs =>
      rename_i slot
      cases hn : registry.node? slot with
      | none =>
        rw [outcomeUpTo_succ_of_none hn, outcomeUpTo_succ_of_none hn]
        exact .inr rfl
      | some node =>
        rw [hw.outcomeUpTo_succ hn, hw.outcomeUpTo_succ hn]
        refine Node.rel_plain (StopsOrEq.congruence _) fun slot part hc => ?_
        rcases hc.part with hlt | ⟨hpass, _⟩
        · exact h slot part hlt more (by omega) n
        · simp [hs node hn] at hpass
    | pass hn hpass hr ih =>
      rw [hw.outcomeUpTo_succ hn, hw.outcomeUpTo_succ hn]
      refine Node.rel_plain (StopsOrEq.congruence _) fun slot part hc => ?_
      rw [List.length_cons] at hm
      rcases hc.part with hlt | ⟨hpass', rfl⟩
      · exact h slot part hlt more (by omega) n
      · rw [hpass] at hpass'
        cases hpass'
        cases n with
        | zero => exact .inl rfl
        | succ n =>
          obtain ⟨more, rfl⟩ : ∃ m, more = m + 1 := ⟨more - 1, by omega⟩
          exact ih more (by omega) n

theorem WellFormed.enough (hw : registry.WellFormed) {most : Nat}
    (h : value.weight * (registry.nodes.size + 1) ≤ most) :
    Enough registry direction slot value most := by
  induction hk : value.weight using Nat.strongRecOn generalizing slot value most with
  | ind weight ih =>
    intro n
    rcases hw.passing_or_exhausted direction n slot value with hp | he
    · obtain ⟨passed, hp⟩ := hp
      have hl := hp.length_le
      have hpos := value.weight_pos
      obtain ⟨below, rfl⟩ : ∃ below, weight = below + 1 := ⟨weight - 1, by omega⟩
      rw [hk, Nat.add_mul, Nat.one_mul] at h
      refine hw.enough_of_passing (below * (registry.nodes.size + 1)) hp ?_ (by omega) n
      intro slot part hlt more hm
      rw [hk] at hlt
      refine ih part.weight hlt ?_ rfl
      exact Nat.le_trans (Nat.mul_le_mul_right _ (by omega)) hm
    · exact .inl he

theorem WellFormed.enough_budget (hw : registry.WellFormed) :
    Enough registry direction slot value (registry.budget value) :=
  hw.enough (Nat.mul_le_mul_right _ (Nat.le_succ _))

/-- A conversion ends within the steps that are allowed for it, if it ends at all. -/
theorem WellFormed.outcome_eq_iff (hw : registry.WellFormed) {result : Outcome}
    (hr : result ≠ .error .exhausted) :
    registry.outcome direction slot value = result ↔
      ∃ n, registry.outcomeUpTo direction n slot value = result := by
  constructor
  · intro h
    exact ⟨registry.budget value, h⟩
  · intro h
    obtain ⟨n, rfl⟩ := h
    exact ((hw.enough_budget n).eq_of_ne hr).symm

theorem WellFormed.outcome_eq_ok_iff (hw : registry.WellFormed) {result : Value} :
    registry.outcome direction slot value = .ok result ↔
      ∃ n, registry.outcomeUpTo direction n slot value = .ok result :=
  hw.outcome_eq_iff nofun

theorem WellFormed.outcomeUpTo_eq_outcome (hw : registry.WellFormed) {most : Nat}
    (h : registry.budget value ≤ most) :
    registry.outcomeUpTo direction most slot value = registry.outcome direction slot value := by
  have hle : StopsOrEq .exhausted (registry.outcome direction slot value)
      (registry.outcomeUpTo direction most slot value) := hw.outcomeUpTo_le h slot value
  rcases hle with he | he
  · exact ((hw.enough_budget most).elim id fun heq => heq.trans he).trans he.symm
  · exact he.symm

/-- A conversion by a compiled type goes on with conversions of the parts, however many steps these
take. -/
theorem WellFormed.outcome_eq_plain (hw : registry.WellFormed) {node : Node}
    (h : registry.node? slot = some node) :
    registry.outcome direction slot value =
      node.plain direction (registry.outcome direction) value := by
  have hbudget : ∀ {part : Value}, part.weight ≤ value.weight →
      registry.budget part ≤ registry.budget value := fun hp =>
    Nat.mul_le_mul_right _ (Nat.succ_le_succ hp)
  calc registry.outcome direction slot value
      = registry.outcomeUpTo direction (registry.budget value + 1) slot value :=
        (hw.outcomeUpTo_eq_outcome (Nat.le_succ _)).symm
    _ = node.plain direction (registry.outcomeUpTo direction (registry.budget value)) value :=
        hw.outcomeUpTo_succ h _
    _ = node.plain direction (registry.outcome direction) value := by
        refine Node.rel_plain Congruence.eq fun slot part hc => hw.outcomeUpTo_eq_outcome ?_
        rcases hc.part with hlt | ⟨-, rfl⟩
        · exact hbudget (Nat.le_of_lt hlt)
        · exact Nat.le_refl _

/-- Every filled slot of the first registry is filled in the second, with the same type. -/
def Extends (first second : Registry) : Prop :=
  ∀ slot node, first.node? slot = some node → second.node? slot = some node

namespace Extends

variable {first second third : Registry}

theorem refl (registry : Registry) : registry.Extends registry := fun _ _ h => h

theorem trans (h : first.Extends second) (h' : second.Extends third) : first.Extends third :=
  fun slot node hn => h' slot node (h slot node hn)

theorem wellFormed (h : first.Extends second) (hw : second.WellFormed) : first.WellFormed :=
  fun slot node hn => hw slot node (h slot node hn)

theorem outcomeUpTo (h : first.Extends second) (hw : second.WellFormed) (most : Nat) (slot : Slot)
    (value : Value) :
    StopsOrEq .nonconforming (first.outcomeUpTo direction most slot value)
      (second.outcomeUpTo direction most slot value) := by
  induction most generalizing slot value with
  | zero => exact .inr rfl
  | succ most ih =>
    cases hn : first.node? slot with
    | none => exact .inl (outcomeUpTo_succ_of_none hn most)
    | some node =>
      rw [(h.wellFormed hw).outcomeUpTo_succ hn, hw.outcomeUpTo_succ (h slot node hn)]
      exact Node.rel_plain (StopsOrEq.congruence _) fun slot part _ => ih slot part

/-- A conversion that met no empty slot stays as it was. -/
theorem outcome_eq (h : first.Extends second) (hw : second.WellFormed) {result : Outcome}
    (hr : result ≠ .error .exhausted) (hn : result ≠ .error .nonconforming)
    (ho : first.outcome direction slot value = result) :
    second.outcome direction slot value = result := by
  obtain ⟨n, rfl⟩ := ((h.wellFormed hw).outcome_eq_iff hr).mp ho
  exact (hw.outcome_eq_iff hr).mpr ⟨n, ((h.outcomeUpTo hw n slot value).eq_of_ne hn).symm⟩

end Extends

end LinkedSchema.Registry
