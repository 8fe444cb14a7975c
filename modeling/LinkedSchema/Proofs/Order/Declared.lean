import LinkedSchema.Proofs.Compile.Simulation
import LinkedSchema.Proofs.Order.Declaration
import LinkedSchema.Proofs.Order.Orders

namespace LinkedSchema

namespace Source

open Compilation

variable {source : Source} {name : String} {defn : TypeDefn}

section Runs

variable {known : List String} {owner : String}

/-- A definition of the source with the declaration is compiled where the declared name has its slot
or cannot be met, and there are steps enough for what it needs. -/
structure Undisturbed (source : Source) (name : String) (known : List String) (owner : String)
    (inner : TypeDefn) (most more : Nat) : Prop where
  origin : source.Origin owner inner
  apart : name ∈ known ∨ ¬source.Reaches owner name
  most : source.Suffices (known ++ [name]) inner most
  more : source.Suffices (known ++ [name]) inner more

theorem Refers.not_reaches {next : String} (h : source.Refers owner next)
    (hn : name ∈ known ∨ ¬source.Reaches owner name) :
    name ∈ known ∨ ¬source.Reaches next name :=
  hn.imp_right fun hn hr => hn (Relation.ReflTransGen.head h hr)

theorem ne_of_apart (hm : owner ∉ known) (hn : name ∈ known ∨ ¬source.Reaches owner name) :
    owner ≠ name := by
  rintro rfl
  exact hn.elim hm fun hn => hn .refl

/-- The parts of a definition are undisturbed, once its name has a slot. -/
theorem samePart_declare {inner : TypeDefn} {most more : Nat}
    (ho : (source.declare name defn).Origin owner inner) (hc : source.custom.get? owner = none)
    (hn : name ∈ owner :: known ∨ ¬(source.declare name defn).Reaches owner name)
    (hmost : ∀ inner, (source.declare name defn).Suffices (owner :: known ++ [name]) inner most)
    (hmore : ∀ inner, (source.declare name defn).Suffices (owner :: known ++ [name]) inner more)
    {part : String × TypeTerm} (hp : part ∈ inner.parts) :
    SamePart source (source.declare name defn) (owner :: known)
      (fun part inner => (source.declare name defn).Undisturbed name (owner :: known) part inner
        most more) owner part := by
  have hr : (source.declare name defn).Refers owner (part.2.nameIn owner part.1) :=
    ⟨hc, inner, ho, part, hp, rfl⟩
  have hnext := hr.not_reaches hn
  unfold SamePart
  split
  · intro hm _
    have hd := source.definition?_declare_of_ne defn (ne_of_apart hm hnext)
    exact ⟨hd, fun inner hi => ⟨.declared (hd ▸ hi), hnext, hmost inner, hmore inner⟩⟩
  · rename_i inner hi
    rw [TypeTerm.nameIn_of_inline? hi] at hnext ⊢
    exact ⟨ho.part hc hp hi, hnext, hmost inner, hmore inner⟩

theorem simulates_declare (source : Source) (name : String) (defn : TypeDefn) :
    source.Simulates (source.declare name defn) ((source.declare name defn).Undisturbed name) where
  custom := rfl
  positive h := ⟨h.most.positive, h.more.positive⟩
  parts {known owner inner most more} h hn hc _ part hp := by
    have hm := h.origin.mem_definedNames
    have hne := ne_of_apart hn h.apart
    have hn' : owner ∉ known ++ [name] := by simp [hn, hne]
    exact samePart_declare h.origin hc (h.apart.imp_left (List.mem_cons_of_mem _))
      (fun inner => h.most.part hm hn' inner) (fun inner => h.more.part hm hn' inner) hp
  copies {known owner fromType most more} h hn hc := by
    have hrefers : ∀ {owner next}, (source.declare name defn).Origin owner (.copy next) →
        source.custom.get? owner = none → (source.declare name defn).Refers owner next :=
      fun ho hc => ⟨hc, _, ho, _, List.mem_singleton_self _, rfl⟩
    refine ⟨fun target => name ∈ known ∨ ¬(source.declare name defn).Reaches target name,
      (hrefers h.origin hc).not_reaches h.apart, fun target hmet _ hm ht => ?_⟩
    have hne := ne_of_apart hm hmet
    have hd := source.definition?_declare_of_ne defn hne
    refine ⟨hd, fun inner hi => ?_⟩
    have ho : (source.declare name defn).Origin target inner := .declared (hd ▸ hi)
    have hm' : target ∉ known ++ [name] := by simp [hm, hne]
    refine ⟨fun next he => ?_, fun hcopy => ⟨ho, hmet, ?_, ?_⟩⟩
    · subst he
      exact (hrefers ho ht).not_reaches hmet
    · exact h.most.root ho.mem_definedNames hm' hcopy
    · exact h.more.root ho.mem_definedNames hm' hcopy

/-- The type that a copy stands for does not refer back to the name of the copy. -/
def Straight (source : Source) (name fromType : String) : Prop :=
  ∀ target, source.Leads fromType target → source.IsRoot target → ¬source.Reaches target name

variable {most more : Nat}

/-- The copied type is compiled in the same way, though only one source has the copy. -/
theorem sameRunAt_declare_copy {fromType : String}
    (hd : (source.declare name (.copy fromType)).Straight name fromType)
    (hmost : 2 * (source.declare name (.copy fromType)).missing [name] < most)
    (hmore : 2 * (source.declare name (.copy fromType)).missing [name] < more) :
    SameRunAt ∅ (addCopy source (addDefnUpTo source most) name fromType)
      (addCopy (source.declare name (.copy fromType))
        (addDefnUpTo (source.declare name (.copy fromType)) more) name fromType) := by
  have hchain : SameChain source (source.declare name (.copy fromType)) ∅ name
      ((source.declare name (.copy fromType)).Leads fromType) := by
    intro target hl hne _ ht
    have hdefinition := source.definition?_declare_of_ne (.copy fromType) hne
    exact ⟨hdefinition, fun next hnext =>
      hl.trans (.copy ht (hdefinition ▸ hnext) (.refl next))⟩
  refine hchain.addCopy rfl (.refl fromType) fun target inner hl hne _ ht hi hcopy => ?_
  have hdefinition := source.definition?_declare_of_ne (.copy fromType) hne
  have ho : (source.declare name (.copy fromType)).Origin target inner :=
    .declared (hdefinition ▸ hi)
  have hapart := hd target hl (.defined ht ho hcopy)
  have hsame : (source.declare name (.copy fromType)).Undisturbed name [] target inner most
      more :=
    ⟨ho, .inr hapart, .of_lt hmost, .of_lt hmore⟩
  exact ((simulates_declare source name (.copy fromType)).sameRun hsame).everywhere ∅

/-- Where the name has its slot, its definition is compiled in the same way. -/
theorem sameRun_declare_compile (hc : source.custom.get? name = none)
    (hmost : 2 * (source.declare name defn).missing [name] < most)
    (hmore : 2 * (source.declare name defn).missing [name] < more) :
    SameRun [name] (defn.compile source (addDefnUpTo source most) name)
      (defn.compile (source.declare name defn) (addDefnUpTo (source.declare name defn) more)
        name) := by
  have ho : (source.declare name defn).Origin name defn := .declared definition?_declare_self
  have htwice : (source.declare name defn).missing ([name] ++ [name]) =
      (source.declare name defn).missing [name] :=
    missing_cons_of_mem (List.mem_singleton_self name)
  refine TypeDefn.sameRun_compile rfl fun part hp => ?_
  refine (samePart_declare ho hc (.inl (List.mem_cons_self ..)) (fun _ => .of_lt ?_)
    (fun _ => .of_lt ?_) hp).imp fun _ _ hsame =>
      (simulates_declare source name defn).sameRun hsame
  · exact htwice ▸ hmost
  · exact htwice ▸ hmore

theorem sameRunAt_declare (hc : source.custom.get? name = none)
    (hd : ∀ fromType, defn = .copy fromType →
      (source.declare name defn).Straight name fromType) :
    SameRunAt ∅ (source.addDefn name defn) ((source.declare name defn).addDefn name defn) := by
  have hpositive : ∀ source : Source, ∃ most, source.budget defn = most + 1 := fun source =>
    ⟨source.budget defn - 1, by unfold budget; omega⟩
  obtain ⟨most, hbudget⟩ := hpositive source
  obtain ⟨more, hbudget'⟩ := hpositive (source.declare name defn)
  have hmissing := missing_lt_of_mem (source.mem_definedNames_declare name defn)
  have hmost : 2 * (source.declare name defn).missing [name] < most := by
    have : 2 * (source.declare name defn).definedNames.length ≤ source.budget defn :=
      length_definedNames_declare_le
    omega
  have hmore : 2 * (source.declare name defn).missing [name] < more := by
    have := (source.declare name defn).length_definedNames_le defn
    omega
  unfold addDefn
  rw [hbudget, hbudget']
  refine .addDefnUpTo rfl (fun _ _ fromType he => ?_) fun _ _ _ => ?_
  · subst he
    exact sameRunAt_declare_copy (hd fromType rfl) hmost hmore
  · have hknown : (Registry.reserve ∅ name).Knows [name] := (Registry.knows_nil ∅).reserve name
    exact .fillNewSlot rfl (sameRun_declare_compile hc hmost hmore _ hknown)

end Runs

/-- Giving a name a definition by hand, in an empty registry, is like declaring it and asking for
the name: it succeeds in the same cases, with the same error in the others, and the name is
converted alike. A copy has the slot of the type that its chain of copies leads to. -/
structure ExplicitAsDeclared (source : Source) (name : String) (defn : TypeDefn) : Prop where
  result : (Registry.after ∅ (source.addDefn name defn)).1 =
    (Registry.after ∅ ((source.declare name defn).addType name)).1
  agree : (Registry.after ∅ (source.addDefn name defn)).1 = .ok () →
    (Registry.after ∅ (source.addDefn name defn)).2.Agree
      (Registry.after ∅ ((source.declare name defn).addType name)).2 name
  copied : (Registry.after ∅ (source.addDefn name defn)).1 = .ok () →
    ∀ fromType, defn = .copy fromType → ∃ target slot,
      (source.declare name defn).Leads name target ∧ (source.declare name defn).IsRoot target ∧
        (Registry.after ∅ (source.addDefn name defn)).2.slot? name = some slot ∧
          (Registry.after ∅ (source.addDefn name defn)).2.slot? target = some slot

/-- The two runs are the same. -/
theorem after_addDefn_eq (hc : source.custom.get? name = none)
    (hd : ∀ fromType, defn = .copy fromType → source.definition? name = some defn ∨
      (source.declare name defn).Straight name fromType) :
    Registry.after ∅ (source.addDefn name defn) =
      Registry.after ∅ ((source.declare name defn).addType name) := by
  have hadd : ∀ source : Source, source.custom.get? name = none →
      source.definition? name = some defn →
        Registry.after ∅ (source.addType name) = Registry.after ∅ (source.addDefn name defn) :=
    fun source hc hd => run_addNamed rfl hc hd
  rw [hadd (source.declare name defn) hc definition?_declare_self]
  by_cases hself : source.declare name defn = source
  · rw [hself]
  · refine (sameRunAt_declare hc fun fromType he => ?_).run_eq
    refine (hd fromType he).resolve_left fun hdefinition => hself ?_
    subst he
    exact declare_eq_self hdefinition

end Source

open Source

/-- A definition that is no copy is given by hand like a declared one. So is a copy that is declared
already, or that stands for a type that does not refer back to the name. -/
theorem explicitAsDeclared_of_straight {source : Source} {name : String} {defn : TypeDefn}
    (hc : source.custom.get? name = none)
    (hd : ∀ fromType, defn = .copy fromType → source.definition? name = some defn ∨
      (source.declare name defn).Straight name fromType) :
    source.ExplicitAsDeclared name defn := by
  have heq := after_addDefn_eq hc hd
  have hrun : (Registry.after ∅ (source.addDefn name defn)).1 = .ok () →
      Compilation.Gives ((source.declare name defn).addType name) ∅ ()
        (Registry.after ∅ (source.addDefn name defn)).2 := by
    intro hok
    exact Prod.ext (heq ▸ hok) (heq ▸ rfl)
  refine ⟨by rw [heq], fun hok => ?_, fun hok fromType _ => ?_⟩
  · obtain ⟨-, hs⟩ := compiles_addType .empty (hrun hok)
    obtain ⟨slot, hs⟩ := Option.isSome_iff_exists.mp hs
    have ht : (Registry.after ∅ (source.addDefn name defn)).2.transformer? name =
        some ⟨name, slot, (Registry.after ∅ (source.addDefn name defn)).2⟩ := by
      rw [Registry.transformer?, hs]
      rfl
    exact ⟨_, _, ht, heq ▸ ht, fun _ _ => rfl⟩
  · obtain ⟨hcompiles, hs⟩ := compiles_addType .empty (hrun hok)
    obtain ⟨slot, hs⟩ := Option.isSome_iff_exists.mp hs
    obtain ⟨target, hl, hr, ht⟩ := hcompiles.moves.rooted name slot hs
    exact ⟨target, slot, hl, hr, hs, ht⟩

/-- Trees whose nodes are texts. -/
def treeSource : Source where
  schema := { types := Table.ofList [
    ("Tree", .list ⟨.named "Node", false, .list⟩), ("Node", .string)] }
  custom := ∅

/-- Trees and their nodes do not refer to groves. -/
theorem straight_grove : (treeSource.declare "Grove" (.copy "Tree")).Straight "Grove" "Tree" := by
  intro target hl _ hreaches
  have hdefined : (treeSource.declare "Grove" (.copy "Tree")).definition? "Tree" =
      some (.list ⟨.named "Node", false, .list⟩) := by
    decide +kernel
  cases hl with
  | refl =>
    have hmem : "Grove" ∈ ["Tree", "Node"] :=
      hreaches.mem_of_closed (by decide) (by decide +kernel) (by decide +kernel)
    revert hmem
    decide
  | copy _ hd _ =>
    rw [hdefined] at hd
    cases hd

/-- Nodes can be made lists of trees by hand, and groves copies of trees. -/
theorem explicitAsDeclared_of_straight_tree :
    treeSource.custom.get? "Node" = none ∧
      treeSource.ExplicitAsDeclared "Node" (.list ⟨.named "Tree", false, .list⟩) ∧
      (treeSource.declare "Grove" (.copy "Tree")).Straight "Grove" "Tree" ∧
      treeSource.ExplicitAsDeclared "Grove" (.copy "Tree") := by
  refine ⟨rfl, explicitAsDeclared_of_straight rfl nofun, straight_grove, ?_⟩
  refine explicitAsDeclared_of_straight rfl fun fromType he => .inr ?_
  cases he
  exact straight_grove

/-- Nodes cannot be made copies of trees by hand: the nodes of the trees stay texts, and so do the
nodes. -/
theorem not_explicitAsDeclared_tree :
    ¬∀ source : Source, ∀ name defn, source.custom.get? name = none →
      source.ExplicitAsDeclared name defn := by
  intro h
  have hok : (Registry.after ∅ (treeSource.addDefn "Node" (.copy "Tree"))).1 = .ok () := by
    decide +kernel
  obtain ⟨one, other, hone, hother, hsame⟩ := (h treeSource "Node" (.copy "Tree") rfl).agree hok
  have hexplicit : ((Registry.after ∅ (treeSource.addDefn "Node" (.copy "Tree"))).2.transformer?
      "Node").map (fun node => (node.toTyped (.list [])).result (.list [])) =
        some (.error .nonconforming) := by
    decide +kernel
  have hdeclared : ((Registry.after ∅ ((treeSource.declare "Node" (.copy "Tree")).addType
      "Node")).2.transformer? "Node").map
        (fun node => (node.toTyped (.list [])).result (.list [])) = some (.ok (.list [])) := by
    decide +kernel
  rw [hone, Option.map_some] at hexplicit
  rw [hother, Option.map_some] at hdeclared
  have hneq := (Option.some.inj hexplicit).symm.trans
    ((hsame .toTyped (.list [])).trans (Option.some.inj hdeclared))
  cases hneq

end LinkedSchema
