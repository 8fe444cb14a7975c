import LinkedSchema.Proofs.Compile.Built
import LinkedSchema.Proofs.Meaning.Interpreter

namespace LinkedSchema.UnionDefn

variable {members : List String}

/-- The place is that of the named member. -/
def Places (members : List String) (place : Nat) (name : String) : Prop :=
  members.idxOf? name = some place

section Tables

variable {α : Type} {form : String → α → Prop} {items : List (α × Nat)}
  {entries : List (String × String)}

theorem selected?_resolves [DecidableEq α] (h : List.Forall₂ (Resolves form members) entries items)
    {text : String} {discriminant : α}
    (hd : ∀ other a, form other a → (a = discriminant ↔ other = text)) :
    Option.Rel (Places members) (selected? items discriminant) (entries.lookup text) := by
  unfold selected?
  induction h with
  | nil => exact .none
  | cons hfirst _ ih =>
    rename_i entry item _ _ _
    obtain ⟨other, name⟩ := entry
    obtain ⟨hform, hplace⟩ := hfirst
    rw [List.lookup_cons]
    by_cases hk : item.1 = discriminant
    · have hb : (text == other) = true := by simpa using ((hd _ _ hform).mp hk).symm
      rw [List.find?_cons_of_pos (by simpa using hk), hb]
      exact .some hplace
    · have hb : (text == other) = false := by
        simpa using fun he : text = other => hk ((hd _ _ hform).mpr he.symm)
      rw [List.find?_cons_of_neg (by simpa using hk), hb]
      exact ih

theorem discriminant?_resolves {β : Type} {f : String → β} {g : α → β} {table : Table String}
    (h : List.Forall₂ (Resolves form members) table.entries items)
    (hform : ∀ text a, form text a → f text = g a) {name : String} {place : Nat}
    (hp : Places members place name) :
    (UnionRepresentation.discriminant? table name).map f =
      (LinkedSchema.discriminant? items place).map g := by
  unfold UnionRepresentation.discriminant? LinkedSchema.discriminant?
  generalize table.entries = entries at h
  induction h with
  | nil => rfl
  | cons hfirst _ ih =>
    rename_i entry item _ _ _
    obtain ⟨ht, hplace⟩ := hfirst
    by_cases hk : entry.2 = name
    · have hi : item.2 = place := by
        rw [hk, hp] at hplace
        exact (Option.some.inj hplace).symm
      rw [List.find?_cons_of_pos (by simpa using hk), List.find?_cons_of_pos (by simpa using hi)]
      exact congrArg some (hform _ _ ht)
    · have hi : item.2 ≠ place := fun hi => hk (eq_of_idxOf? (hi ▸ hplace) hp)
      rw [List.find?_cons_of_neg (by simpa using hk), List.find?_cons_of_neg (by simpa using hi)]
      exact ih

theorem discriminant?_eq {table : Table String} {items : List (String × Nat)}
    (h : List.Forall₂ (Resolves Eq members) table.entries items) {name : String} {place : Nat}
    (hp : Places members place name) :
    UnionRepresentation.discriminant? table name = LinkedSchema.discriminant? items place := by
  simpa using discriminant?_resolves (f := id) (g := id) h (fun _ _ he => he) hp

/-- The place of a member with some content, and the name of the member with that content. -/
def Shows (members : List String) (placed : Nat × Value) (named : String × Value) : Prop :=
  Places members placed.1 named.1 ∧ placed.2 = named.2

theorem findSome?_resolves (h : List.Forall₂ (Resolves form members) entries items)
    {f : α × Nat → Option (Nat × Value)} {g : String × String → Option (String × Value)}
    (hfg : ∀ entry item, Resolves form members entry item →
      Option.Rel (Shows members) (f item) (g entry)) :
    Option.Rel (Shows members) (items.findSome? f) (entries.findSome? g) := by
  induction h with
  | nil => exact .none
  | cons hfirst _ ih =>
    have hr := hfg _ _ hfirst
    rw [List.findSome?_cons, List.findSome?_cons]
    generalize f _ = a, g _ = b at hr
    cases hr with
    | none => exact ih
    | some hr => exact .some hr

theorem shows_map {place : Option Nat} {name : Option String}
    (h : Option.Rel (Places members) place name) (content : Value) :
    Option.Rel (Shows members) (place.map (·, content)) (name.map (·, content)) := by
  cases h with
  | none => exact .none
  | some h => exact .some ⟨h, rfl⟩

end Tables

variable {representation : UnionRepresentation} {built : Strategy}

theorem get?_resolves {table : Table String} {items : List (String × Nat)}
    (h : List.Forall₂ (Resolves Eq members) table.entries items) (text : String) :
    Option.Rel (Places members) (selected? items text) (table.get? text) :=
  selected?_resolves h fun _ _ he => by rw [he]

/-- Both select the same member, by its place and by its name. -/
theorem select?_agrees (h : BuiltStrategy members representation built) (value : Value) :
    Option.Rel (Shows members) (built.select? value) (representation.select? value) := by
  cases h with
  | kinded h ha =>
    simp only [Strategy.select?, UnionRepresentation.select?]
    split
    · refine shows_map (selected?_resolves h fun other kind hk => ?_) value
      rw [← hk]
      exact Kind.name_inj.symm
    · exact .none
  | keyed h ha =>
    cases value with
    | map entries =>
      simp only [Strategy.select?, UnionRepresentation.select?]
      rcases entries.toList with - | ⟨⟨key, content⟩, - | ⟨_, _⟩⟩
      · exact .none
      · exact shows_map (get?_resolves h key) content
      · exact .none
    | _ => exact .none
  | envelope hne h ha =>
    rename_i discriminantKey contentKey table items
    cases value with
    | map entries =>
      simp only [Strategy.select?, UnionRepresentation.select?]
      split
      · cases entries.get? discriminantKey with
        | none => exact .none
        | some tag =>
          cases entries.get? contentKey with
          | none => cases tag <;> exact .none
          | some content =>
            cases tag with
            | string tag => exact shows_map (get?_resolves h tag) content
            | _ => exact .none
      · exact .none
    | _ => exact .none
  | inlined h ha =>
    rename_i discriminantKey table items
    cases value with
    | map entries =>
      simp only [Strategy.select?, UnionRepresentation.select?]
      cases entries.get? discriminantKey with
      | none => exact .none
      | some tag =>
        cases tag with
        | string tag => exact shows_map (get?_resolves h tag) _
        | _ => exact .none
    | _ => exact .none
  | stringPrefix h ha hs =>
    cases value with
    | string s =>
      refine findSome?_resolves h fun entry item hr => ?_
      obtain ⟨beginning, place⟩ := item
      obtain ⟨rfl, hplace⟩ := hr
      simp only []
      cases after? entry.1.toList s.toList with
      | none => exact .none
      | some rest => exact .some ⟨hplace, rfl⟩
    | _ => exact .none
  | bytesPrefix h ha hs =>
    cases value with
    | bytes bytes =>
      refine findSome?_resolves h fun entry item hr => ?_
      simp only [hr.1]
      cases after? item.1 bytes with
      | none => exact .none
      | some rest => exact .some ⟨hr.2, rfl⟩
    | _ => exact .none

/-- Both show a member in the same way. -/
theorem wrap?_agrees (h : BuiltStrategy members representation built) {name : String} {place : Nat}
    (hp : Places members place name) (value : Value) :
    built.wrap? place value = representation.wrap? name value := by
  cases h with
  | kinded h ha =>
    have hd := discriminant?_resolves (f := id) h (fun _ _ he => he.symm) hp
    rw [Option.map_id_fun, id] at hd
    simp only [Strategy.wrap?, UnionRepresentation.wrap?]
    rw [hd]
    cases LinkedSchema.discriminant? _ place with
    | none => simp
    | some kind =>
      have he : kind.admits value = true ↔
          some kind.name = some (Kind.of value).name ∧ (Kind.of value).admits value = true := by
        rw [Kind.admits_iff, Option.some.injEq, Kind.name_inj, eq_comm]
      simp only [he, Option.map_some]
  | keyed h ha => simp only [Strategy.wrap?, UnionRepresentation.wrap?, discriminant?_eq h hp]
  | envelope hne h ha =>
    simp only [Strategy.wrap?, UnionRepresentation.wrap?, discriminant?_eq h hp]
  | inlined h ha =>
    have hd := discriminant?_eq h hp
    simp only [Strategy.wrap?, UnionRepresentation.wrap?]
    generalize UnionRepresentation.discriminant? _ name = tag at hd ⊢
    subst hd
    rfl
  | stringPrefix h ha hs =>
    have hd := discriminant?_eq h hp
    simp only [Strategy.wrap?, UnionRepresentation.wrap?]
    generalize UnionRepresentation.discriminant? _ name = beginning at hd ⊢
    subst hd
    rfl
  | bytesPrefix h ha hs =>
    have hd := discriminant?_resolves h (fun _ _ he => he) hp
    simp only [Strategy.wrap?, UnionRepresentation.wrap?, hd]
    cases LinkedSchema.discriminant? _ place with
    | none => cases value <;> rfl
    | some beginning => cases value <;> rfl

end LinkedSchema.UnionDefn
