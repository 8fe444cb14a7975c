import LinkedSchema.Proofs.Compile.Reordered
import LinkedSchema.Proofs.Meaning.Literals

namespace LinkedSchema

namespace Source

/-- Two sources that declare the same in another order are compiled. -/
structure Counterparts (first second : Source) (one other : Registry) : Prop where
  reordered : first.Reordered second
  namesApart : second.NamesApart
  faithful : first.Faithful one
  faithful' : second.Faithful other
  full : one.Full
  full' : other.Full

namespace Counterparts

variable {first second : Source} {one other : Registry} {direction : Direction} {name : String}
  {slot slot' : Slot} {value : Value}

/-- The slots of a name hold what the same name is compiled to. -/
theorem exists_compiled (h : first.Counterparts second one other)
    (hs : one.slot? name = some slot) (hs' : other.slot? name = some slot') :
    ∃ target node node', one.node? slot = some node ∧ other.node? slot' = some node' ∧
      first.Compiled one target node ∧ second.Compiled other target node' := by
  obtain ⟨node, hnode⟩ := h.full.exists_node? (h.faithful.bound _ _ hs)
  obtain ⟨node', hnode'⟩ := h.full'.exists_node? (h.faithful'.bound _ _ hs')
  obtain ⟨target, hl, -, hc⟩ := h.faithful.exists_compiled hs hnode
  obtain ⟨target', hl', -, hc'⟩ := h.faithful'.exists_compiled hs' hnode'
  have he : target = target' :=
    h.namesApart.leads_unique (h.reordered.leads hl) hl' (h.reordered.isRoot hc.isRoot) hc'.isRoot
  subst he
  exact ⟨target, node, node', hnode, hnode', hc, hc'⟩

/-- One more step leads to the same, if the steps before do and implicit values are read alike. -/
theorem outcomeUpTo_succ_eq (h : first.Counterparts second one other) {most : Nat}
    (hs : one.slot? name = some slot) (hs' : other.slot? name = some slot')
    (hp : ∀ name slot slot', one.slot? name = some slot → other.slot? name = some slot' →
      ∀ inner, ((Kind.of value).isScalar = true → (Kind.of inner).isScalar = true) →
        one.outcomeUpTo direction most slot inner = other.outcomeUpTo direction most slot' inner)
    (ht : (Kind.of value).isScalar = false → ∀ name slot slot', one.slot? name = some slot →
      other.slot? name = some slot' → ∀ literal result result',
        (Kind.of literal).isScalar = true → one.Types slot literal result →
          other.Types slot' literal result' → result = result') :
    one.outcomeUpTo direction (most + 1) slot value =
      other.outcomeUpTo direction (most + 1) slot' value := by
  obtain ⟨target, node, node', hnode, hnode', hc, hc'⟩ := h.exists_compiled hs hs'
  rw [h.faithful.wellFormed.outcomeUpTo_succ hnode, h.faithful'.wellFormed.outcomeUpTo_succ hnode']
  cases hc with
  | custom hc =>
    rw [h.reordered.custom] at hc
    cases hc' with
    | custom hc' =>
      rw [hc] at hc'
      cases hc'
      rfl
    | built hc' =>
      rw [hc] at hc'
      cases hc'
  | built hc ho hb =>
    rw [h.reordered.custom] at hc
    cases hc' with
    | custom hc' =>
      rw [hc] at hc'
      cases hc'
    | built _ ho' hb' =>
      obtain ⟨defn, hdefn, hr⟩ := h.reordered.origin ho
      cases h.namesApart.origin_unique hdefn ho'
      exact Built.plain_eq hr hb hb' fun part _ => ⟨hp _, fun hv => ht hv _⟩

/-- Scalars need no implicit values. -/
theorem outcomeUpTo_eq_of_isScalar (h : first.Counterparts second one other) (most : Nat)
    (hs : one.slot? name = some slot) (hs' : other.slot? name = some slot')
    (hv : (Kind.of value).isScalar = true) :
    one.outcomeUpTo direction most slot value = other.outcomeUpTo direction most slot' value := by
  induction most generalizing name slot slot' value with
  | zero => rfl
  | succ most ih =>
    refine h.outcomeUpTo_succ_eq hs hs'
      (fun name slot slot' hs hs' inner hi => ih hs hs' (hi hv)) fun hv' => ?_
    rw [hv] at hv'
    cases hv'

/-- Implicit values, which are scalars, are read alike. -/
theorem types_eq (h : first.Counterparts second one other)
    (hs : one.slot? name = some slot) (hs' : other.slot? name = some slot')
    {literal result result' : Value} (hv : (Kind.of literal).isScalar = true)
    (ht : one.Types slot literal result) (ht' : other.Types slot' literal result') :
    result = result' := by
  obtain ⟨most, hm⟩ := h.faithful.wellFormed.outcome_eq_ok_iff.mp ht
  rw [h.outcomeUpTo_eq_of_isScalar most hs hs' hv] at hm
  have hsame := (h.faithful'.wellFormed.outcome_eq_ok_iff.mpr ⟨most, hm⟩).symm.trans ht'
  exact Except.ok.inj hsame

theorem outcomeUpTo_eq (h : first.Counterparts second one other) (most : Nat)
    (hs : one.slot? name = some slot) (hs' : other.slot? name = some slot') :
    one.outcomeUpTo direction most slot value = other.outcomeUpTo direction most slot' value := by
  induction most generalizing name slot slot' value with
  | zero => rfl
  | succ most ih =>
    exact h.outcomeUpTo_succ_eq hs hs'
      (fun name slot slot' hs hs' inner _ => ih hs hs') fun _ name slot slot' hs hs' _ _ _ =>
        h.types_eq hs hs'

/-- The slots of a name convert alike. -/
theorem outcome_eq (h : first.Counterparts second one other)
    (hs : one.slot? name = some slot) (hs' : other.slot? name = some slot') :
    one.outcome direction slot value = other.outcome direction slot' value := by
  refine Outcome.eq_of_iff_of_ne fun result (hr : result ≠ .error .exhausted) => ?_
  rw [h.faithful.wellFormed.outcome_eq_iff hr, h.faithful'.wellFormed.outcome_eq_iff hr]
  refine exists_congr fun most => ?_
  rw [h.outcomeUpTo_eq most hs hs']

end Counterparts

end Source

open Compilation

/-- Types are converted alike if they are declared in another order. A tuple that lists the order of
its items is accepted exactly if one that declares its fields in this order is, and is then compiled
to the same. Unless both are refused for a field that may be absent, they are even refused alike. -/
theorem convert_eq_of_reordered {first second : Source} {root : String} {one other : Transformer}
    (hr : first.Reordered second) (hn : first.NamesApart) (hn' : second.NamesApart)
    (h : first.create root = .ok one) (h' : second.create root = .ok other) :
    (∀ direction value, (one.convert direction value).result value =
      (other.convert direction value).result value) ∧
    ∀ fields others : Table StructField, fields.entries.Perm others.entries → ∀ source add name,
      (∀ before node after,
        Gives (StructDefn.compile source add name ⟨fields, .tuple (some others.keys)⟩) before node
          after ↔
        Gives (StructDefn.compile source add name ⟨others, .tuple none⟩) before node after) ∧
      ((∀ entry ∈ fields.entries, entry.2.isOptional = false) →
        StructDefn.compile source add name ⟨fields, .tuple (some others.keys)⟩ =
          StructDefn.compile source add name ⟨others, .tuple none⟩) := by
  refine ⟨fun direction value => ?_, fun fields others hp source add name =>
    ⟨fun _ _ _ => StructDefn.gives_compile_tuple_iff hp, fun hrequired =>
      StructDefn.compile_tuple_eq hp hrequired source add name⟩⟩
  have hc := Source.compiles_create h
  have hc' := Source.compiles_create h'
  obtain ⟨-, registry, slot, -, hs, rfl⟩ := Source.create_eq_ok_iff.mp h
  obtain ⟨-, registry', slot', -, hs', rfl⟩ := Source.create_eq_ok_iff.mp h'
  have hcounterparts : first.Counterparts second registry registry' :=
    ⟨hr, hn', .moves hn .empty hc.moves, .moves hn' .empty hc'.moves, hc.full, hc'.full⟩
  exact hcounterparts.outcome_eq hs hs'

/-- Items on offer, which have a price or are given away for a reason. -/
def offerTypes : List (String × TypeDefn) := [
  ("Item", .struct ⟨Table.ofList [("offer", ⟨.named "Offer", false, false⟩),
    ("count", ⟨.named "Int", false, false⟩)],
    .map (Table.ofList [("offer", ⟨some "o", none⟩), ("count", ⟨none, some (.int 1)⟩)])⟩),
  ("Offer", .union ⟨["Price", "String"],
    .kinded (Table.ofList [("list", "Price"), ("string", "String")])⟩),
  ("Price", .struct ⟨Table.ofList [("amount", ⟨.named "Int", false, false⟩),
    ("coin", ⟨.named "Coin", false, false⟩)], .tuple none⟩),
  ("Coin", .enum ⟨["penny", "crown"], .string (Table.ofList [("penny", "p"), ("crown", "c")])⟩)]

/-- The same, with everything the other way round. The tuple lists the order of its items. -/
def offerReordered : List (String × TypeDefn) := [
  ("Coin", .enum ⟨["crown", "penny"], .string (Table.ofList [("crown", "c"), ("penny", "p")])⟩),
  ("Price", .struct ⟨Table.ofList [("coin", ⟨.named "Coin", false, false⟩),
    ("amount", ⟨.named "Int", false, false⟩)], .tuple (some ["amount", "coin"])⟩),
  ("Offer", .union ⟨["String", "Price"],
    .kinded (Table.ofList [("string", "String"), ("list", "Price")])⟩),
  ("Item", .struct ⟨Table.ofList [("count", ⟨.named "Int", false, false⟩),
    ("offer", ⟨.named "Offer", false, false⟩)],
    .map (Table.ofList [("count", ⟨none, some (.int 1)⟩), ("offer", ⟨some "o", none⟩)])⟩)]

def sourceOfTypes (types : List (String × TypeDefn)) : Source :=
  ⟨{ types := Table.ofList types }, ∅⟩

theorem reordered_offer : (sourceOfTypes offerTypes).Reordered (sourceOfTypes offerReordered) := by
  refine ⟨rfl, by decide +kernel, fun name defn other hd ho => ?_⟩
  have hentries : (Table.ofList offerTypes).entries = offerTypes := Table.entries_ofList (by decide)
  have hentries' : (Table.ofList offerReordered).entries = offerReordered :=
    Table.entries_ofList (by decide)
  have hm : (name, defn) ∈ offerTypes := hentries ▸ Table.get?_eq_some_iff.mp hd
  have hm' : (name, other) ∈ offerReordered := hentries' ▸ Table.get?_eq_some_iff.mp ho
  simp only [offerTypes, List.mem_cons, Prod.mk.injEq, List.not_mem_nil, or_false] at hm
  rcases hm with ⟨rfl, rfl⟩ | ⟨rfl, rfl⟩ | ⟨rfl, rfl⟩ | ⟨rfl, rfl⟩ <;>
    simp only [offerReordered, List.mem_cons, Prod.mk.injEq, List.not_mem_nil, or_false,
      String.reduceEq, false_and, true_and, false_or] at hm' <;> subst hm'
  · exact .struct (by decide +kernel) (.map (by decide +kernel))
  · exact .union (by decide +kernel) (.kinded (by decide +kernel))
  · exact .struct (by decide +kernel) (.tuple (by decide +kernel))
  · exact .enum (by decide +kernel) (.string (by decide +kernel))

def offerGiven : Value :=
  .map (.ofList [("o", .list [.int 3, .string "p"])])

def offerTyped : Value :=
  .map (.ofList [("count", .int 1), ("offer", .map (.ofList [("Price",
    .map (.ofList [("amount", .int 3), ("coin", .string "penny")]))]))])

/-- An item is read alike by both, and the count that it does not give is filled in. -/
theorem convert_eq_of_reordered_offer : ∃ one other,
    (sourceOfTypes offerTypes).create "Item" = .ok one ∧
      (sourceOfTypes offerReordered).create "Item" = .ok other ∧
      (one.convert .toTyped offerGiven).result offerGiven = .ok offerTyped ∧
      (other.convert .toTyped offerGiven).result offerGiven = .ok offerTyped := by
  have hn : (sourceOfTypes offerTypes).NamesApart :=
    ⟨by decide +kernel, by decide +kernel, by decide +kernel, by decide +kernel⟩
  have hn' : (sourceOfTypes offerReordered).NamesApart :=
    ⟨by decide +kernel, by decide +kernel, by decide +kernel, by decide +kernel⟩
  have hrun : ((sourceOfTypes offerTypes).create "Item").toOption.any (fun one =>
      (one.convert .toTyped offerGiven).result offerGiven = .ok offerTyped) = true := by
    decide +kernel
  have hrun' : ((sourceOfTypes offerReordered).create "Item").toOption.isSome = true := by
    decide +kernel
  cases h : (sourceOfTypes offerTypes).create "Item" with
  | error error =>
    rw [h] at hrun
    cases hrun
  | ok one =>
    cases h' : (sourceOfTypes offerReordered).create "Item" with
    | error error =>
      rw [h'] at hrun'
      cases hrun'
    | ok other =>
      rw [h] at hrun
      have hread := of_decide_eq_true hrun
      have hsame := (convert_eq_of_reordered reordered_offer hn hn' h h').1 .toTyped offerGiven
      exact ⟨one, other, rfl, rfl, hread, hsame ▸ hread⟩

end LinkedSchema
