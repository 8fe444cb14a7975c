import LinkedSchema.Proofs.Plain.Steps

namespace LinkedSchema

section Parts

variable {rel : {α : Type} → Except Stop α → Except Stop α → Prop} {f g : PartConversion}

theorem PartType.rel_convert (hrel : Congruence rel) (h : ∀ slot part, rel (f slot part) (g slot part))
    (type : PartType) (value : Value) : rel (type.convert f value) (type.convert g value) := by
  unfold convert
  split
  · exact hrel.refl _
  · exact h type.slot value

namespace StructMap

theorem rel_read (hrel : Congruence rel) (h : ∀ slot part, rel (f slot part) (g slot part))
    (layout : StructMap) (value : Value) : rel (layout.read f value) (layout.read g value) := by
  cases value with
  | map entries =>
    refine hrel.bind (hrel.foldlM fun progress entry _ => ?_) fun _ => hrel.refl _
    simp only [readEntry]
    split
    · split
      · exact hrel.bind (PartType.rel_convert hrel h _ _) fun _ => hrel.refl _
      · exact hrel.refl _
    · exact hrel.refl _
  | _ => exact hrel.refl _

theorem rel_write (hrel : Congruence rel) (h : ∀ slot part, rel (f slot part) (g slot part))
    (layout : StructMap) (value : Value) : rel (layout.write f value) (layout.write g value) := by
  cases value with
  | map entries =>
    refine hrel.bind (hrel.foldlM fun progress entry _ => ?_) fun _ => hrel.refl _
    simp only [writeEntry]
    split
    · refine hrel.bind (hrel.refl _) fun missing => ?_
      split
      · exact hrel.refl _
      · exact hrel.bind (PartType.rel_convert hrel h _ _) fun _ => hrel.refl _
    · exact hrel.refl _
  | _ => exact hrel.refl _

end StructMap

namespace Node

theorem rel_convertList (hrel : Congruence rel) {f g : Value → Conversion}
    (h : ∀ part, rel (f part) (g part)) (value : Value) :
    rel (convertList f value) (convertList g value) := by
  cases value with
  | list items =>
    refine hrel.bind (hrel.foldlM fun built item _ => ?_) fun _ => hrel.refl _
    exact hrel.bind (h item.1) fun _ => hrel.refl _
  | _ => exact hrel.refl _

theorem rel_convertMap (hrel : Congruence rel) {f g : Value → Conversion}
    (h : ∀ part, rel (f part) (g part)) (value : Value) :
    rel (convertMap f value) (convertMap g value) := by
  cases value with
  | map entries =>
    refine hrel.bind (hrel.foldlM fun draft entry _ => ?_) fun _ => hrel.refl _
    exact hrel.bind (h entry.1.2) fun _ => hrel.refl _
  | _ => exact hrel.refl _

theorem rel_readPairs (hrel : Congruence rel) {f g : Value → Conversion}
    (h : ∀ part, rel (f part) (g part)) (value : Value) :
    rel (readPairs f value) (readPairs g value) := by
  cases value with
  | list items =>
    refine hrel.bind (hrel.foldlM fun built pair _ => ?_) fun _ => hrel.refl _
    unfold readPair
    split
    · split
      · exact hrel.refl _
      · exact hrel.bind (h _) fun _ => hrel.refl _
    · exact hrel.refl _
  | _ => exact hrel.refl _

theorem rel_writePairs (hrel : Congruence rel) {f g : Value → Conversion}
    (h : ∀ part, rel (f part) (g part)) (value : Value) :
    rel (writePairs f value) (writePairs g value) := by
  cases value with
  | map entries =>
    refine hrel.bind (hrel.mapM fun entry _ => ?_) fun _ => hrel.refl _
    exact hrel.bind (h entry.2) fun _ => hrel.refl _
  | _ => exact hrel.refl _

variable (hrel : Congruence rel) (h : ∀ slot part, rel (f slot part) (g slot part))

include hrel h

theorem rel_readTuple (fields : List Field) (value : Value) :
    rel (readTuple fields f value) (readTuple fields g value) := by
  cases value with
  | list items =>
    simp only [readTuple]
    split
    · exact hrel.refl _
    · refine hrel.bind (hrel.mapM fun entry _ => ?_) fun _ => hrel.refl _
      exact hrel.bind (PartType.rel_convert hrel h _ _) fun _ => hrel.refl _
  | _ => exact hrel.refl _

theorem rel_writeTuple (fields : List Field) (value : Value) :
    rel (writeTuple fields f value) (writeTuple fields g value) := by
  cases value with
  | map entries =>
    simp only [writeTuple]
    split
    · exact hrel.refl _
    · refine hrel.bind (hrel.mapM fun field _ => ?_) fun _ => hrel.refl _
      split
      · exact hrel.bind (PartType.rel_convert hrel h _ _) fun _ => hrel.refl _
      · exact hrel.refl _
  | _ => exact hrel.refl _

theorem rel_readUnion (members : List Member) (strategy : Strategy) (value : Value) :
    rel (readUnion members strategy f value) (readUnion members strategy g value) := by
  unfold readUnion
  split
  · split
    · exact hrel.bind (h _ _) fun _ => hrel.refl _
    · exact hrel.refl _
  · exact hrel.refl _

theorem rel_writeUnion (members : List Member) (strategy : Strategy) (value : Value) :
    rel (writeUnion members strategy f value) (writeUnion members strategy g value) := by
  unfold writeUnion
  split
  · split
    · split
      · split
        · exact hrel.bind (h _ _) fun _ => hrel.refl _
        · exact hrel.refl _
      · exact hrel.refl _
    · exact hrel.refl _
  · exact hrel.refl _

/-- Conversions by a type are related if the conversions by the types of its parts are. -/
theorem rel_convert (node : Node) (direction : Direction) (value : Value) :
    rel (node.convert direction f value) (node.convert direction g value) := by
  cases node with
  | list items => exact rel_convertList hrel (PartType.rel_convert hrel h items) value
  | map values => exact rel_convertMap hrel (PartType.rel_convert hrel h values) value
  | pairs values =>
    cases direction with
    | toTyped => exact rel_readPairs hrel (PartType.rel_convert hrel h values) value
    | toRepresentation => exact rel_writePairs hrel (PartType.rel_convert hrel h values) value
  | structMap layout =>
    cases direction with
    | toTyped => exact layout.rel_read hrel h value
    | toRepresentation => exact layout.rel_write hrel h value
  | structTuple fields =>
    cases direction with
    | toTyped => exact rel_readTuple hrel h fields value
    | toRepresentation => exact rel_writeTuple hrel h fields value
  | union members strategy =>
    cases direction with
    | toTyped => exact rel_readUnion hrel h members strategy value
    | toRepresentation => exact rel_writeUnion hrel h members strategy value
  | enum members => cases direction <;> exact hrel.refl _
  | _ => exact hrel.refl _

end Node

end Parts

namespace Registry

variable {registry first second : Registry} {direction : Direction} {slot : Slot} {value : Value}

/-- Converts as `convertUpTo` does, only that an empty slot gives the given stop. -/
def convertUpToOr (registry : Registry) (atEmpty : Stop) (direction : Direction) :
    Nat → Slot → Value → Conversion
  | 0, _, _ => throw .exhausted
  | most + 1, slot, value =>
    match registry.node? slot with
    | none => throw atEmpty
    | some node => node.convert direction (registry.convertUpToOr atEmpty direction most) value

/-- Converts as `convert` does, only that an empty slot gives the given stop. -/
def convertOr (registry : Registry) (atEmpty : Stop) (direction : Direction) (slot : Slot)
    (value : Value) : Conversion :=
  registry.convertUpToOr atEmpty direction (registry.budget value) slot value

/-- The conversion comes to an empty slot. It gives what the slot gives. -/
def StopsAtEmpty (registry : Registry) (direction : Direction) (slot : Slot) (value : Value) :
    Prop :=
  ∀ atEmpty, registry.convertOr atEmpty direction slot value = .error atEmpty

theorem convertUpToOr_nonconforming (registry : Registry) (direction : Direction) (most : Nat) :
    registry.convertUpToOr .nonconforming direction most =
      registry.convertUpTo direction most := by
  induction most with
  | zero => rfl
  | succ most ih =>
    funext slot value
    cases hn : registry.node? slot with
    | none => simp only [convertUpToOr, convertUpTo, hn]
    | some node => simp only [convertUpToOr, convertUpTo, hn, ih]

theorem convertOr_nonconforming (registry : Registry) (direction : Direction) (slot : Slot)
    (value : Value) :
    registry.convertOr .nonconforming direction slot value =
      registry.convert direction slot value := by
  rw [convertOr, convertUpToOr_nonconforming, convert]

theorem StopsAtEmpty.convert_eq (h : registry.StopsAtEmpty direction slot value) :
    registry.convert direction slot value = .error .nonconforming := by
  rw [← convertOr_nonconforming]
  exact h .nonconforming

theorem convertUpToOr_le (atEmpty : Stop) {most more : Nat} (h : most ≤ more) (slot : Slot)
    (value : Value) :
    StopsOrEq .exhausted (registry.convertUpToOr atEmpty direction most slot value)
      (registry.convertUpToOr atEmpty direction more slot value) := by
  induction most generalizing more slot value with
  | zero => exact .inl rfl
  | succ most ih =>
    obtain ⟨more, rfl⟩ : ∃ m, more = m + 1 := ⟨more - 1, by omega⟩
    rw [convertUpToOr, convertUpToOr]
    cases registry.node? slot with
    | none => exact .inr rfl
    | some node =>
      exact Node.rel_convert (StopsOrEq.congruence _) (fun slot part => ih (by omega) slot part)
        node direction value

/-- The outcomes are those of two stops, or both the same. -/
def StopsWith (stop other : Stop) {α : Type} (x y : Except Stop α) : Prop :=
  x = y ∨ x = .error stop ∧ y = .error other

theorem StopsWith.congruence (stop other : Stop) : Congruence (StopsWith stop other) where
  refl _ := .inl rfl
  bind h hf := by
    rcases h with rfl | ⟨rfl, rfl⟩
    · rename_i x _ _
      cases x with
      | error e => exact .inl rfl
      | ok a => exact hf a
    · exact .inr ⟨rfl, rfl⟩

/-- What an empty slot gives is all that a conversion can tell of it. -/
theorem convertUpToOr_stopsWith (stop other : Stop) (most : Nat) (slot : Slot) (value : Value) :
    StopsWith stop other (registry.convertUpToOr stop direction most slot value)
      (registry.convertUpToOr other direction most slot value) := by
  induction most generalizing slot value with
  | zero => exact .inl rfl
  | succ most ih =>
    rw [convertUpToOr, convertUpToOr]
    cases registry.node? slot with
    | none => exact .inr ⟨rfl, rfl⟩
    | some node => exact Node.rel_convert (StopsWith.congruence stop other) ih node direction value

theorem exists_convertOr_eq (h : ¬registry.StopsAtEmpty direction slot value) :
    ∃ stop, registry.convertOr stop direction slot value ≠ .error stop := by
  simpa [StopsAtEmpty] using h

/-- A conversion for which an empty slot does not give the given stop does not come to one. -/
theorem convert_eq_of_convertOr_ne {stop : Stop}
    (h : registry.convertOr stop direction slot value ≠ .error stop) :
    registry.convert direction slot value = registry.convertOr stop direction slot value := by
  rw [← convertOr_nonconforming]
  rcases convertUpToOr_stopsWith stop .nonconforming (registry.budget value) slot value with he | he
  · exact he.symm
  · exact absurd he.1 h

theorem Extends.convertUpToOr (h : first.Extends second) (atEmpty : Stop) (most : Nat)
    (slot : Slot) (value : Value) :
    StopsOrEq atEmpty (first.convertUpToOr atEmpty direction most slot value)
      (second.convertUpToOr atEmpty direction most slot value) := by
  induction most generalizing slot value with
  | zero => exact .inr rfl
  | succ most ih =>
    rw [Registry.convertUpToOr, Registry.convertUpToOr]
    cases hn : first.node? slot with
    | none => exact .inl rfl
    | some node =>
      rw [h slot node hn]
      exact Node.rel_convert (StopsOrEq.congruence _) ih node direction value

/-- A conversion that ends and does not come to an empty slot is the same when more slots are
filled. -/
theorem Extends.convert_eq (h : first.Extends second)
    (hsize : first.nodes.size ≤ second.nodes.size)
    (he : first.convert direction slot value ≠ .error .exhausted)
    (hs : ¬first.StopsAtEmpty direction slot value) :
    second.convert direction slot value = first.convert direction slot value := by
  obtain ⟨stop, hstop⟩ := exists_convertOr_eq hs
  have hfirst := convert_eq_of_convertOr_ne hstop
  have hbudget : first.budget value ≤ second.budget value :=
    Nat.mul_le_mul_left _ (Nat.succ_le_succ hsize)
  have hsame : first.convertOr stop direction slot value =
      second.convertOr stop direction slot value := by
    have hfilled := (h.convertUpToOr stop (first.budget value) slot value).eq_of_ne hstop
    have hends : second.convertUpToOr stop direction (first.budget value) slot value ≠
        .error .exhausted := by
      rw [← hfilled]
      exact fun hx => he (hfirst.trans hx)
    exact hfilled.trans ((convertUpToOr_le stop hbudget slot value).eq_of_ne hends)
  rw [convert_eq_of_convertOr_ne (hsame ▸ hstop), hfirst, hsame]

/-- A conversion that gives a value is the same when more slots are filled. -/
theorem Extends.convert_eq_ok (h : first.Extends second)
    (hsize : first.nodes.size ≤ second.nodes.size) {change : Change}
    (hc : first.convert direction slot value = .ok change) :
    second.convert direction slot value = .ok change := by
  rw [h.convert_eq hsize (by simp [hc]) fun hs => ?_, hc]
  rw [hs.convert_eq] at hc
  cases hc

end Registry

end LinkedSchema
