import LinkedSchema.Proofs.Compile.Simulation
import LinkedSchema.Proofs.Order.Declaration

namespace LinkedSchema

namespace Source

open Compilation

/-- The definition that a reference stands for. -/
def denoted? (source : Source) : TypeTerm → Option TypeDefn
  | .named name => source.definition? name
  | term => term.inline?

theorem denoted?_of_inline? {source : Source} {term : TypeTerm} {defn : TypeDefn}
    (h : term.inline? = some defn) : source.denoted? term = some defn := by
  cases term with
  | named name => cases h
  | _ => exact h

/-- References that are met on the way from a named type, with the names under which their types
are compiled. -/
inductive Meets (source : Source) (root : String) : String → TypeTerm → Prop where
  | root : Meets source root root (.named root)
  | part {name : String} {term : TypeTerm} {defn : TypeDefn} {part : String × TypeTerm}
      (h : Meets source root name term) (hc : source.custom.get? name = none)
      (hd : source.denoted? term = some defn) (hp : part ∈ defn.parts) :
      Meets source root (part.2.nameIn name part.1) part.2

variable {source first second : Source} {root name : String} {term : TypeTerm} {defn : TypeDefn}

namespace Meets

theorem eq_of_named {target : String} (h : source.Meets root name (.named target)) :
    name = target := by
  generalize ht : TypeTerm.named target = term at h
  cases h with
  | root => exact (TypeTerm.named.inj ht).symm
  | part =>
    rw [← ht]
    rfl

/-- What is met has its definition from the source. -/
theorem origin (h : source.Meets root name term) (hc : source.custom.get? name = none)
    (hd : source.denoted? term = some defn) : source.Origin name defn := by
  induction h generalizing defn with
  | root => exact .declared hd
  | part h hc' hd' hp ih =>
    rename_i part
    cases hi : part.2.inline? with
    | none =>
      rw [TypeTerm.eq_named_of_inline? hi] at hd
      exact .declared hd
    | some inner =>
      rw [denoted?_of_inline? hi] at hd
      cases hd
      rw [TypeTerm.nameIn_of_inline? hi]
      exact (ih hc' hd').part hc' hp hi

/-- What is met lies in every list that has the root and all parts of what it has. -/
theorem mem_of_closed {met : List (String × TypeTerm)} (hr : (root, .named root) ∈ met)
    (hp : ∀ entry ∈ met, source.custom.get? entry.1 = none → ∀ defn ∈ source.denoted? entry.2,
      ∀ part ∈ defn.parts, (part.2.nameIn entry.1 part.1, part.2) ∈ met)
    (h : source.Meets root name term) : (name, term) ∈ met := by
  induction h with
  | root => exact hr
  | part _ hc hd hpart ih => exact hp _ ih hc _ hd _ hpart

end Meets

/-- The sources have the same transforms, and the same definitions wherever they are met. -/
structure AgreesFrom (first second : Source) (root : String) : Prop where
  custom : first.custom = second.custom
  definition? : ∀ name, first.Meets root name (.named name) → first.custom.get? name = none →
    first.definition? name = second.definition? name

namespace AgreesFrom

variable (h : first.AgreesFrom second root)

include h

theorem denoted? (hm : first.Meets root name term) (hc : first.custom.get? name = none) :
    first.denoted? term = second.denoted? term := by
  cases term with
  | named target =>
    obtain rfl := hm.eq_of_named
    exact h.definition? name hm hc
  | _ => rfl

theorem meets (hm : first.Meets root name term) : second.Meets root name term := by
  induction hm with
  | root => exact .root
  | part hm hc hd hp ih => exact .part ih (h.custom ▸ hc) (h.denoted? hm hc ▸ hd) hp

/-- Compiling what is met runs in the same way for both sources. -/
theorem simulates : first.Simulates second fun known name defn most more =>
    (∃ term, first.Meets root name term ∧ first.denoted? term = some defn) ∧
      first.Suffices known defn most ∧ second.Suffices known defn more where
  custom := h.custom
  positive hs := ⟨hs.2.1.positive, hs.2.2.positive⟩
  parts {known name defn most more} hs hn hc _ part hp := by
    obtain ⟨⟨term, hm, hd⟩, hmost, hmore⟩ := hs
    have hfirst := (hm.origin hc hd).mem_definedNames
    have hsecond := ((h.meets hm).origin (h.custom ▸ hc) (h.denoted? hm hc ▸ hd)).mem_definedNames
    have hpart : first.Meets root (part.2.nameIn name part.1) part.2 := .part hm hc hd hp
    unfold SamePart
    split
    · rename_i hi
      have hterm : part.2 = .named (part.2.nameIn name part.1) := TypeTerm.eq_named_of_inline? hi _ _
      intro _ hc'
      refine ⟨h.definition? _ (hterm ▸ hpart) hc', fun inner hi => ?_⟩
      exact ⟨⟨part.2, hpart, hterm ▸ hi⟩, hmost.part hfirst hn inner, hmore.part hsecond hn inner⟩
    · rename_i inner hi
      exact ⟨⟨part.2, hpart, denoted?_of_inline? hi⟩, hmost.part hfirst hn inner,
        hmore.part hsecond hn inner⟩
  copies {known name fromType most more} hs hn hc := by
    obtain ⟨⟨term, hm, hd⟩, hmost, hmore⟩ := hs
    refine ⟨fun target => first.Meets root target (.named target),
      .part hm hc hd (List.mem_singleton_self _), fun target hmet _ hn' hc' => ?_⟩
    have hsame := h.definition? target hmet hc'
    refine ⟨hsame, fun inner hi => ⟨fun next he => ?_, fun hcopy => ⟨⟨_, hmet, hi⟩, ?_, ?_⟩⟩⟩
    · subst he
      exact .part hmet hc' hi (List.mem_singleton_self _)
    · exact hmost.root (Origin.declared hi).mem_definedNames hn' hcopy
    · exact hmore.root (Origin.declared (hsame ▸ hi)).mem_definedNames hn' hcopy

end AgreesFrom

theorem suffices_budget (source : Source) (defn : TypeDefn) :
    source.Suffices [] defn (source.budget defn) := by
  have hlength := source.length_definedNames_le defn
  have hmissing : source.missing [] ≤ source.definedNames.length :=
    (Finset.card_le_card Finset.sdiff_subset).trans (List.toFinset_card_le _)
  exact .of_lt (by omega)

theorem AgreesFrom.after_addType_eq (h : first.AgreesFrom second root) :
    Registry.after ∅ (first.addType root) = Registry.after ∅ (second.addType root) := by
  refine SameRunAt.run_eq (.addNamed h.custom fun _ hc => ⟨h.definition? root .root hc, ?_⟩)
  intro defn hd
  exact (h.simulates.sameRun ⟨⟨_, .root, hd⟩, first.suffices_budget defn,
    second.suffices_budget defn⟩).everywhere ∅

/-- Sources that differ in one definition, which a transform replaces or which is not met. -/
theorem agreesFrom_of_hidden {changed : String} (hc : first.custom = second.custom)
    (hm : first.Meets root changed (.named changed) →
      (first.custom.get? changed).isSome = true)
    (hd : ∀ name, name ≠ changed → first.definition? name = second.definition? name) :
    first.AgreesFrom second root := by
  refine ⟨hc, fun name hmet hnone => hd name ?_⟩
  rintro rfl
  have hsome := hm hmet
  rw [hnone] at hsome
  cases hsome

end Source

open Source

/-- Compiling a type gives the same error or the same converter for all sources that agree on what
is met on the way from it. A definition that is not met, or that a transform replaces, may be added,
changed or taken away. -/
theorem create_eq_of_agreesFrom (first second : Source) (root : String) :
    (first.AgreesFrom second root → first.create root = second.create root) ∧
      ∀ changed, first.custom = second.custom →
        (first.Meets root changed (.named changed) →
          (first.custom.get? changed).isSome = true) →
        (∀ name, name ≠ changed → first.definition? name = second.definition? name) →
          first.create root = second.create root := by
  have hcreate : first.AgreesFrom second root → first.create root = second.create root := by
    intro h
    unfold create
    rw [h.after_addType_eq]
  exact ⟨hcreate, fun changed hc hm hd => hcreate (agreesFrom_of_hidden hc hm hd)⟩

/-- Letters with stamps, which are made by hand. -/
def letterSource : Source where
  schema := { types := Table.ofList [
    ("Letter", .struct { fields := Table.ofList [
      ("lines", { type := .list ⟨.named "String", false, .list⟩ }),
      ("stamp", { type := .named "Stamp" })] }),
    ("Stamp", .string)] }
  custom := Table.ofList [("Stamp", { toTyped := some fun value => .ok (some value) })]

/-- All that is met on the way from a letter. -/
def letterMet : List (String × TypeTerm) :=
  [("Letter", .named "Letter"),
    ("Letter > lines (anon)", .list ⟨.named "String", false, .list⟩),
    ("String", .named "String"), ("Stamp", .named "Stamp")]

theorem not_meets_parcel : ¬letterSource.Meets "Letter" "Parcel" (.named "Parcel") := by
  intro h
  have hm : ("Parcel", TypeTerm.named "Parcel") ∈ letterMet :=
    h.mem_of_closed (by decide +kernel) (by decide +kernel)
  revert hm
  decide +kernel

/-- Letters stay as they are when stamps get an ill-formed definition, and when parcels are added
that stand for themselves. -/
theorem create_eq_of_agreesFrom_letter :
    letterSource.create "Letter" =
        (letterSource.declare "Stamp" (.map ⟨"Int", .named "Wax", false, .map⟩)).create "Letter" ∧
      letterSource.create "Letter" =
        (letterSource.declare "Parcel" (.copy "Parcel")).create "Letter" := by
  constructor
  · refine (create_eq_of_agreesFrom _ _ "Letter").2 "Stamp" rfl (fun _ => by decide +kernel) ?_
    exact fun name hn => letterSource.definition?_declare_of_ne _ hn
  · refine (create_eq_of_agreesFrom _ _ "Letter").1 (agreesFrom_of_hidden rfl ?_ fun name hn =>
      letterSource.definition?_declare_of_ne (.copy "Parcel") hn)
    exact fun hm => absurd hm not_meets_parcel

end LinkedSchema
