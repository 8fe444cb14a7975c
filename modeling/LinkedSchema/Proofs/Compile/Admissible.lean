import LinkedSchema.Proofs.Compile.Built
import LinkedSchema.Proofs.RoundTrip.Same

namespace LinkedSchema

/-- The key of a field in the representation. -/
def StructDefn.keyOf (details : Table FieldDetails) (entry : String × StructField) : String :=
  ((details.get? entry.1).getD {}).rename.getD entry.1

/-- Keys are strings, and maps are represented as maps or as lists of pairs. -/
structure MapDefn.Admissible (defn : MapDefn TypeTerm) : Prop where
  keyType : defn.keyType = "String"
  representation : defn.representation = .map ∨ defn.representation = .listPairs

/-- Lists are represented as lists. -/
def ListDefn.Admissible (defn : ListDefn TypeTerm) : Prop :=
  defn.representation = .list

/-- Structs are represented as maps, with details of declared fields only and another key for each
field, or as tuples, in which no field may be absent and every field has one place. -/
inductive StructDefn.Admissible (defn : StructDefn) : Prop where
  | map {details : Table FieldDetails} (hr : defn.representation = .map details)
      (hd : details.keys ⊆ defn.fields.keys)
      (hk : (defn.fields.entries.map (keyOf details)).Nodup)
  | tuple {order : Option (List String)} (hr : defn.representation = .tuple order)
      (ho : ∀ entry ∈ defn.fields.entries, entry.2.isOptional = false)
      (hn : ∀ names, order = some names → names.Perm defn.fields.keys)

namespace UnionDefn

/-- The table leads to members only, and to none of them twice. -/
structure SelectsMembers (members : List String) (table : Table String) : Prop where
  subset : table.values ⊆ members
  nodup : table.values.Nodup

/-- No beginning starts another. -/
def PrefixFree {α : Type} (beginnings : List (List α)) : Prop :=
  beginnings.Pairwise fun a b => ¬a <+: b ∧ ¬b <+: a

/-- The representation tells the members apart that it selects: by the names of kinds, by keys, by
two further keys that are neither empty nor the same, by one that is not empty, or by beginnings, as
texts or in hexadecimal digits. -/
inductive Distinguishes (members : List String) : UnionRepresentation → Prop where
  | kinded {table : Table String} (ht : SelectsMembers members table)
      (hk : ∀ key ∈ table.keys, ∃ kind : Kind, kind.name = key) :
      Distinguishes members (.kinded table)
  | keyed {table : Table String} (ht : SelectsMembers members table) :
      Distinguishes members (.keyed table)
  | envelope {discriminantKey contentKey : String} {table : Table String}
      (hd : discriminantKey.isEmpty = false) (hc : contentKey.isEmpty = false)
      (hne : discriminantKey ≠ contentKey) (ht : SelectsMembers members table) :
      Distinguishes members (.envelope discriminantKey contentKey table)
  | inlined {discriminantKey : String} {table : Table String}
      (hd : discriminantKey.isEmpty = false) (ht : SelectsMembers members table) :
      Distinguishes members (.inlined discriminantKey table)
  | stringPrefix {table : Table String} (ht : SelectsMembers members table)
      (hp : PrefixFree (table.keys.map String.toList)) :
      Distinguishes members (.stringPrefix table)
  | bytesPrefix {table : Table String} {beginnings : List (List UInt8)}
      (ht : SelectsMembers members table)
      (hk : table.keys.mapM Encoding.readHex = .ok beginnings) (hp : PrefixFree beginnings) :
      Distinguishes members (.bytesPrefix table)

/-- No member is listed twice, and the members are told apart. -/
structure Admissible (defn : UnionDefn) : Prop where
  nodup : defn.members.Nodup
  distinguishes : Distinguishes defn.members defn.representation

end UnionDefn

/-- No member is listed twice, details are given for members only, and each member is represented by
a text or a number of its own; numbers have to be given for all of them. -/
inductive EnumDefn.Admissible (defn : EnumDefn) : Prop where
  | string {table : Table String} (hr : defn.representation = .string table)
      (hn : defn.members.Nodup) (hk : table.keys ⊆ defn.members)
      (hv : (defn.members.map fun member => (table.get? member).getD member).Nodup)
  | int {table : Table Int64} (hr : defn.representation = .int table) (hn : defn.members.Nodup)
      (hk : table.keys ⊆ defn.members) (hall : defn.members ⊆ table.keys)
      (hv : (defn.members.map table.get?).Nodup)

/-- The definition passes all checks that are not about the types it refers to. -/
def TypeDefn.Admissible : TypeDefn → Prop
  | map defn => defn.Admissible
  | list defn => defn.Admissible
  | struct defn => defn.Admissible
  | union defn => defn.Admissible
  | enum defn => defn.Admissible
  | _ => True

theorem StructDefn.exists_tupleOrder_iff {name : String} {fields : Table StructField}
    {order : Option (List String)} :
    (∃ names, tupleOrder name fields order = .ok names) ↔
      ∀ names, order = some names → names.Perm fields.keys := by
  simp only [StructDefn.tupleOrder_eq_ok_iff]
  cases order with
  | none => simp
  | some names => simp

namespace UnionDefn

variable {members : List String} {table : Table String}

/-- The members of a table are resolved one after the other, if they are members and none comes
twice. -/
theorem exists_foldlM_resolve {done rest : List (String × String)} {before : List (String × Nat)}
    (hd : List.Forall₂ (Resolves Eq members) done before)
    (hn : ((done ++ rest).map Prod.snd).Nodup) (hm : ∀ entry ∈ rest, entry.2 ∈ members) :
    ∃ after, rest.foldlM (resolve.step members) before = .ok after := by
  induction rest generalizing done before with
  | nil => exact ⟨before, rfl⟩
  | cons entry rest ih =>
    obtain ⟨place, hp⟩ : ∃ place, members.idxOf? entry.2 = some place :=
      Option.isSome_iff_exists.mp (List.isSome_idxOf?.mpr (hm entry (List.mem_cons_self ..)))
    have hnew : before.any (·.2 = place) = false := by
      rw [List.any_eq_false]
      intro other ho he
      obtain ⟨earlier, hearlier, -, hplace⟩ := exists_mem_of_forall₂ hd.flip other ho
      rw [of_decide_eq_true he] at hplace
      rw [List.map_append, List.map_cons] at hn
      refine not_mem_of_nodup_append hn ?_
      rw [← eq_of_idxOf? hplace hp]
      exact List.mem_map_of_mem hearlier
    have hstep : resolve.step members before entry = .ok (before ++ [(entry.1, place)]) := by
      simp [resolve.step, hp, hnew]
    have hnext : List.Forall₂ (Resolves Eq members) (done ++ [entry])
        (before ++ [(entry.1, place)]) := List.rel_append hd (.cons ⟨rfl, hp⟩ .nil)
    rw [List.foldlM_cons, hstep, Outcome.ok_bind]
    refine ih hnext ?_ fun other ho => hm other (List.mem_cons_of_mem _ ho)
    rwa [List.append_assoc, List.singleton_append]

theorem exists_resolve_iff :
    (∃ resolved, resolve members table = .ok resolved) ↔ SelectsMembers members table := by
  constructor
  · intro h
    obtain ⟨resolved, h⟩ := h
    obtain ⟨hr, hn⟩ := resolve_eq_ok h
    refine ⟨fun member hm => ?_, ?_⟩
    · obtain ⟨entry, he, rfl⟩ := List.mem_map.mp hm
      obtain ⟨_, -, hp⟩ := exists_of_forall₂ hr entry he
      exact List.isSome_idxOf?.mp (Option.isSome_of_eq_some hp)
    · have hplaces : table.entries.map (fun entry => members.idxOf? entry.2) =
          resolved.map (some ∘ Prod.snd) := map_eq_of_forall₂ hr fun _ _ h => h.2
      refine List.Nodup.of_map members.idxOf? ?_
      rw [Table.values, List.map_map]
      rw [← List.map_map] at hplaces
      exact hplaces ▸ hn.map fun _ _ => Option.some.inj
  · intro h
    exact exists_foldlM_resolve .nil h.nodup fun entry he => h.subset (List.mem_map_of_mem he)

theorem prefixFree_map_fst {α : Type} {table : List (List α × Nat)} :
    PrefixFree (table.map Prod.fst) ↔ StartsApart table :=
  List.pairwise_map

/-- What is resolved keeps the keys of its table. -/
theorem exists_resolved (h : SelectsMembers members table) :
    ∃ resolved, resolve members table = .ok resolved ∧ resolved.map Prod.fst = table.keys := by
  obtain ⟨resolved, hr⟩ := exists_resolve_iff.mpr h
  exact ⟨resolved, hr, resolve_keys (resolve_eq_ok hr).1⟩

theorem selectsMembers_of_resolve {resolved : List (String × Nat)}
    (h : resolve members table = .ok resolved) :
    SelectsMembers members table ∧ resolved.map Prod.fst = table.keys :=
  ⟨exists_resolve_iff.mp ⟨resolved, h⟩, resolve_keys (resolve_eq_ok h).1⟩

/-- Texts are read one by one, beside the places of their members. -/
theorem mapM_fst_eq_ok {α : Type} {read : String → Except UnionFlaw α}
    {resolved : List (String × Nat)} {items : List (α × Nat)}
    (h : resolved.mapM (fun entry => do return (← read entry.1, entry.2)) = .ok items) :
    (resolved.map Prod.fst).mapM read = .ok (items.map Prod.fst) := by
  rw [Outcome.mapM_eq_ok, List.forall₂_map_left_iff, List.forall₂_map_right_iff]
  refine (Outcome.mapM_eq_ok.mp h).imp fun entry item he => ?_
  obtain ⟨value, hv, he⟩ := Outcome.bind_eq_ok.mp he
  cases he
  exact hv

theorem exists_mapM_fst {α : Type} {read : String → Except UnionFlaw α}
    {resolved : List (String × Nat)} {values : List α}
    (h : (resolved.map Prod.fst).mapM read = .ok values) :
    ∃ items, resolved.mapM (fun entry => do return (← read entry.1, entry.2)) = .ok items ∧
      items.map Prod.fst = values := by
  have hstep : ∀ entry ∈ resolved, ∃ item, (do return (← read entry.1, entry.2)) = .ok item := by
    intro entry he
    obtain ⟨value, hv⟩ := Outcome.forall_of_mapM_eq_ok h _ (List.mem_map_of_mem he)
    exact ⟨(value, entry.2), Outcome.bind_eq_ok.mpr ⟨value, hv, rfl⟩⟩
  obtain ⟨items, hi⟩ := Outcome.exists_mapM_eq_ok hstep
  refine ⟨items, hi, ?_⟩
  have hsame := mapM_fst_eq_ok hi
  rw [h] at hsame
  exact (Except.ok.inj hsame).symm

theorem mapM_bytesOf_eq_ok_iff {texts : List String} {beginnings : List (List UInt8)} :
    texts.mapM bytesOf = .ok beginnings ↔ texts.mapM Encoding.readHex = .ok beginnings := by
  simp only [Outcome.mapM_eq_ok, bytesOf, Outcome.mapError_eq_ok]

theorem distinguishes_of_strategy {representation : UnionRepresentation} {built : Strategy}
    (h : strategy members representation = .ok built) : Distinguishes members representation := by
  cases representation with
  | kinded table =>
    obtain ⟨resolved, hr, h⟩ := Outcome.bind_eq_ok.mp h
    obtain ⟨kinds, hk, -⟩ := Outcome.bind_eq_ok.mp h
    obtain ⟨ht, hkeys⟩ := selectsMembers_of_resolve hr
    refine .kinded ht fun key hm => ?_
    rw [← hkeys] at hm
    obtain ⟨kind, hkind⟩ := Outcome.forall_of_mapM_eq_ok (mapM_fst_eq_ok hk) key hm
    exact ⟨kind, kindOf_eq_ok_iff.mp hkind⟩
  | keyed table =>
    obtain ⟨resolved, hr, -⟩ := Outcome.bind_eq_ok.mp h
    exact .keyed (selectsMembers_of_resolve hr).1
  | envelope discriminantKey contentKey table =>
    simp only [strategy] at h
    split at h
    · cases h
    rename_i hempty
    split at h
    · cases h
    rename_i hne
    obtain ⟨resolved, hr, -⟩ := Outcome.bind_eq_ok.mp h
    obtain ⟨hd, hc⟩ := Bool.or_eq_false_iff.mp (Bool.not_eq_true _ ▸ hempty)
    exact .envelope hd hc hne (selectsMembers_of_resolve hr).1
  | inlined discriminantKey table =>
    simp only [strategy] at h
    split at h
    · cases h
    rename_i hempty
    obtain ⟨resolved, hr, -⟩ := Outcome.bind_eq_ok.mp h
    exact .inlined (Bool.not_eq_true _ ▸ hempty) (selectsMembers_of_resolve hr).1
  | stringPrefix table =>
    obtain ⟨resolved, hr, h⟩ := Outcome.bind_eq_ok.mp h
    obtain ⟨_, hb, -⟩ := Outcome.bind_eq_ok.mp h
    obtain ⟨ht, hkeys⟩ := selectsMembers_of_resolve hr
    refine .stringPrefix ht ?_
    have hp := prefixFree_map_fst.mpr (checkBeginnings_eq_ok_iff.mp hb)
    rw [List.map_map] at hp
    rw [← hkeys, List.map_map]
    exact hp
  | bytesPrefix table =>
    obtain ⟨resolved, hr, h⟩ := Outcome.bind_eq_ok.mp h
    obtain ⟨texts, ht, h⟩ := Outcome.bind_eq_ok.mp h
    obtain ⟨_, hb, -⟩ := Outcome.bind_eq_ok.mp h
    obtain ⟨hselects, hkeys⟩ := selectsMembers_of_resolve hr
    have hread := mapM_fst_eq_ok ht
    rw [hkeys] at hread
    exact .bytesPrefix hselects (mapM_bytesOf_eq_ok_iff.mp hread)
      (prefixFree_map_fst.mpr (checkBeginnings_eq_ok_iff.mp hb))

theorem exists_strategy {representation : UnionRepresentation}
    (h : Distinguishes members representation) :
    ∃ built, strategy members representation = .ok built := by
  cases h with
  | kinded ht hk =>
    obtain ⟨resolved, hr, hkeys⟩ := exists_resolved ht
    have hkind : ∀ key ∈ resolved.map Prod.fst, ∃ kind, kindOf key = .ok kind := by
      intro key hm
      obtain ⟨kind, hkind⟩ := hk key (hkeys ▸ hm)
      exact ⟨kind, kindOf_eq_ok_iff.mpr hkind⟩
    obtain ⟨kinds, hkinds⟩ := Outcome.exists_mapM_eq_ok hkind
    obtain ⟨items, hi, -⟩ := exists_mapM_fst hkinds
    exact ⟨.kinded items,
      Outcome.bind_eq_ok.mpr ⟨resolved, hr, Outcome.bind_eq_ok.mpr ⟨items, hi, rfl⟩⟩⟩
  | keyed ht =>
    obtain ⟨resolved, hr, -⟩ := exists_resolved ht
    exact ⟨.keyed resolved, Outcome.bind_eq_ok.mpr ⟨resolved, hr, rfl⟩⟩
  | envelope hd hc hne ht =>
    obtain ⟨resolved, hr, -⟩ := exists_resolved ht
    simp [strategy, hd, hc, hne, hr]
  | inlined hd ht =>
    obtain ⟨resolved, hr, -⟩ := exists_resolved ht
    simp [strategy, hd, hr]
  | stringPrefix ht hp =>
    obtain ⟨resolved, hr, hkeys⟩ := exists_resolved ht
    have hb : checkBeginnings (beginnings resolved) = .ok () := by
      rw [checkBeginnings_eq_ok_iff, ← prefixFree_map_fst, beginnings, List.map_map]
      rw [← hkeys, List.map_map] at hp
      exact hp
    exact ⟨.stringPrefix resolved,
      Outcome.bind_eq_ok.mpr ⟨resolved, hr, Outcome.bind_eq_ok.mpr ⟨(), hb, rfl⟩⟩⟩
  | bytesPrefix ht hk hp =>
    obtain ⟨resolved, hr, hkeys⟩ := exists_resolved ht
    obtain ⟨items, hi, rfl⟩ := exists_mapM_fst (mapM_bytesOf_eq_ok_iff.mpr (hkeys.symm ▸ hk))
    have hb := checkBeginnings_eq_ok_iff.mpr (prefixFree_map_fst.mp hp)
    exact ⟨.bytesPrefix items, Outcome.bind_eq_ok.mpr ⟨resolved, hr,
      Outcome.bind_eq_ok.mpr ⟨items, hi, Outcome.bind_eq_ok.mpr ⟨(), hb, rfl⟩⟩⟩⟩

theorem exists_strategy_iff {representation : UnionRepresentation} :
    (∃ built, strategy members representation = .ok built) ↔
      Distinguishes members representation :=
  ⟨fun ⟨_, h⟩ => distinguishes_of_strategy h, exists_strategy⟩

end UnionDefn

namespace EnumDefn

theorem checkNames_eq_ok_iff {α : Type} {members : List String} {table : Table α} :
    checkNames members table = .ok () ↔ table.keys ⊆ members := by
  unfold checkNames
  split
  · rename_i name h
    have hn := List.find?_some h
    have hm := List.mem_of_find?_eq_some h
    simp only [Outcome.throw_eq, reduceCtorEq, false_iff]
    exact fun hsub => by simp [hsub hm] at hn
  · rename_i h
    rw [List.find?_eq_none] at h
    refine iff_of_true rfl fun name hm => ?_
    simpa using h name hm

/-- Texts and numbers are told apart if they differ. -/
theorem checkValues_nil_iff {members : List (String × Value)}
    (h : ∀ member ∈ members, (∃ s, member.2 = .string s) ∨ ∃ n, member.2 = .int n) :
    checkValues [] members = .ok () ↔ (members.map Prod.snd).Nodup := by
  rw [checkValues_eq_ok_iff, List.Nodup, List.pairwise_map]
  refine (and_iff_right (by simp)).trans (List.Pairwise.iff_of_mem fun ha _ => ?_)
  rw [← Bool.not_eq_true, Value.same_iff_eq (h _ ha)]

/-- A member that the table does not name is represented by its name. -/
theorem values_eq_ok_iff_of_string {defn : EnumDefn} {table : Table String}
    {members : List (String × Value)} (hr : defn.representation = .string table) :
    defn.values = .ok members ↔ defn.members.Nodup ∧ table.keys ⊆ defn.members ∧
      (defn.members.map fun member => (member, .string ((table.get? member).getD member))) =
        members := by
  by_cases hn : defn.members.Nodup
  · simp only [values, hn, hr, not_true_eq_false, if_false, true_and, Outcome.check_bind_eq_ok,
      checkNames_eq_ok_iff, Outcome.pure_eq, Except.ok.injEq]
  · simp [values, hn]

/-- Every member is represented by its number. -/
theorem values_eq_ok_iff_of_int {defn : EnumDefn} {table : Table Int64}
    {members : List (String × Value)} (hr : defn.representation = .int table) :
    defn.values = .ok members ↔ defn.members.Nodup ∧ table.keys ⊆ defn.members ∧
      List.Forall₂ (fun name member => ∃ n, table.get? name = some n ∧ (name, .int n.toInt) = member)
        defn.members members := by
  by_cases hn : defn.members.Nodup
  · simp only [values, hn, hr, not_true_eq_false, if_false, true_and, Outcome.check_bind_eq_ok,
      checkNames_eq_ok_iff, Outcome.mapM_eq_ok]
    refine and_congr_right fun _ => ?_
    constructor <;>
      refine fun h => h.imp fun name member => ?_ <;> cases table.get? name <;> simp
  · simp [values, hn]

/-- Members are told apart by numbers if the table has another number for each. -/
theorem nodup_ints_iff {table : Table Int64} {names : List String} {members : List (String × Value)}
    (h : List.Forall₂ (fun name member => ∃ n, table.get? name = some n ∧
      (name, .int n.toInt) = member) names members) :
    (members.map Prod.snd).Nodup ↔ (names.map table.get?).Nodup := by
  have hsome : names.map ((Option.map fun n => Value.int n.toInt) ∘ table.get?) =
      members.map (some ∘ Prod.snd) :=
    map_eq_of_forall₂ h fun name member ⟨n, hn, he⟩ => by simp [hn, ← he]
  have hint : Function.Injective (Option.map fun n : Int64 => Value.int n.toInt) := by
    intro a b hab
    cases a <;> cases b <;> simp_all [Int64.toInt_inj]
  rw [← List.map_map, ← List.map_map] at hsome
  rw [← List.nodup_map_iff hint, hsome, List.nodup_map_iff fun _ _ => Option.some.inj]

theorem exists_compile_iff {name : String} {defn : EnumDefn} :
    (∃ node, compile name defn = .ok node) ↔ defn.Admissible := by
  simp only [compile_eq_ok_iff]
  constructor
  · intro h
    obtain ⟨_, members, hv, hc, -⟩ := h
    obtain ⟨hn, -, hscalars⟩ := values_eq_ok hv
    have hnodup := (checkValues_nil_iff hscalars).mp hc
    cases hr : defn.representation with
    | string table =>
      obtain ⟨-, hk, rfl⟩ := (values_eq_ok_iff_of_string hr).mp hv
      rw [List.map_map] at hnodup
      refine .string hr hn hk (List.Nodup.of_map Value.string ?_)
      rwa [List.map_map]
    | int table =>
      obtain ⟨-, hk, hf⟩ := (values_eq_ok_iff_of_int hr).mp hv
      refine .int hr hn hk (fun member hm => ?_) ((nodup_ints_iff hf).mp hnodup)
      obtain ⟨_, n, hg, -⟩ := exists_of_forall₂ hf member hm
      exact Table.get?_isSome_iff.mp (Option.isSome_of_eq_some hg)
  · intro h
    cases h with
    | string hr hn hk hv =>
      have hvalues := (values_eq_ok_iff_of_string hr).mpr ⟨hn, hk, rfl⟩
      refine ⟨_, _, hvalues, (checkValues_nil_iff (values_eq_ok hvalues).2.2).mpr ?_, rfl⟩
      rw [List.map_map]
      have hstring := hv.map (f := Value.string) fun _ _ => Value.string.inj
      rwa [List.map_map] at hstring
    | int hr hn hk hall hv =>
      rename_i table
      have hm : List.Forall₂ (fun name member => ∃ n, table.get? name = some n ∧
          (name, Value.int n.toInt) = member) defn.members (defn.members.map fun member =>
            (member, Value.int ((table.get? member).getD 0).toInt)) := by
        rw [List.forall₂_map_right_iff, List.forall₂_same]
        intro member hm
        obtain ⟨n, hn⟩ := Option.isSome_iff_exists.mp (Table.get?_isSome_iff.mpr (hall hm))
        exact ⟨n, hn, by rw [hn]; rfl⟩
      have hvalues := (values_eq_ok_iff_of_int hr).mpr ⟨hn, hk, hm⟩
      exact ⟨_, _, hvalues, (checkValues_nil_iff (values_eq_ok hvalues).2.2).mpr
        ((nodup_ints_iff hm).mpr hv), rfl⟩

end EnumDefn

variable {slotOf : String → Option Slot} {typed : Reading} {owner : String}

/-- The keys of what is built are those of the definition. -/
theorem BuiltField.keys {details : Table FieldDetails} {entries : List (String × StructField)}
    {fields : List Field} (h : List.Forall₂ (fun entry => BuiltField slotOf typed owner
      ((details.get? entry.1).getD {}) entry) entries fields) :
    fields.map Field.key = entries.map (StructDefn.keyOf details) :=
  (map_eq_of_forall₂ (f := StructDefn.keyOf details) h fun _ _ h => h.key.symm).symm

/-- What is built has passed all checks. -/
theorem Built.admissible {defn : TypeDefn} {node : Node}
    (h : Built slotOf typed owner defn node) : defn.Admissible := by
  cases h with
  | map hk hr _ => exact ⟨hk, .inl hr⟩
  | pairs hk hr _ => exact ⟨hk, .inr hr⟩
  | list hr _ => exact hr
  | structMap hr hd hf hk =>
    rw [BuiltField.keys hf] at hk
    exact .map hr (fun name hm => Table.contains_iff.mp (hd name hm)) hk
  | structTuple hr ho hn _ =>
    exact .tuple hr ho (StructDefn.exists_tupleOrder_iff.mp ⟨_, hn⟩)
  | union hs hn _ => exact ⟨hn, UnionDefn.exists_strategy_iff.mp ⟨_, hs⟩⟩
  | enum h => exact EnumDefn.exists_compile_iff.mp ⟨_, h⟩
  | _ => trivial

end LinkedSchema
