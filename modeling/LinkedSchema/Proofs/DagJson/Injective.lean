import LinkedSchema.Proofs.DagJson.Domain
import LinkedSchema.Proofs.Json.Injective

namespace LinkedSchema.DagJson

open Json

/-- A map that is written as a link or as bytes are. -/
def Posing (value : Value) : Prop :=
  (∃ cid : Cid, value = .map (.singleton linkKey (.string cid.text))) ∨
    ∃ bytes, value = .map (.singleton linkKey
      (.map (.singleton bytesKey (.string (Encoding.writeBase64 bytes)))))

/-- No part of the value is written as a link or as bytes without being one. -/
def Genuine (value : Value) : Prop :=
  ∀ part, part.Inside value → ¬ Posing part

theorem Posing.reserved {value : Value} (h : Posing value) : Reserved value := by
  rcases h with ⟨cid, rfl⟩ | ⟨bytes, rfl⟩
  · exact .inl ⟨_, rfl⟩
  · exact .inr ⟨_, rfl⟩

theorem genuine_of_unreserved {value : Value} (h : Unreserved value) : Genuine value :=
  fun part hp hposing => h part hp hposing.reserved

section Trees

variable {value other : Value}

theorem eq_string_of_toJson {s : String} (h : toJson value = .string s) : value = .string s := by
  cases value with
  | string =>
    cases h
    rfl
  | _ => cases h

theorem toList_eq_of_toJsonEntries {entries : SortedMap Value none} {key : String}
    {j : Json Empty} (h : toJsonEntries entries = [(key, j)]) :
    ∃ value, entries = .singleton key value ∧ toJson value = j := by
  rw [toJsonEntries_eq] at h
  obtain ⟨⟨first, value⟩, he, hf⟩ := List.map_eq_singleton_iff.mp h
  cases hf
  exact ⟨value, SortedMap.toList_injective (by rw [he, SortedMap.toList_singleton]), rfl⟩

/-- Only a link is written as that link. -/
theorem eq_link_of_toJson {cid : Cid} (hg : Genuine value)
    (h : toJson value = toJson (.link cid)) : value = .link cid := by
  cases value with
  | link found =>
    have ht : found.text = cid.text := by simpa [toJson, Json.ofEntries] using h
    have hc := Cid.ofText_text found
    rw [ht, Cid.ofText_text] at hc
    rw [Except.ok.inj hc]
  | map entries =>
    obtain ⟨inner, rfl, hi⟩ := toList_eq_of_toJsonEntries (Json.object.inj h).1
    obtain rfl := eq_string_of_toJson hi
    exact absurd (.inl ⟨cid, rfl⟩) (hg _ (.self _))
  | bytes b => simp [toJson, Json.ofEntries] at h
  | _ => cases h

/-- Only bytes are written as those bytes. -/
theorem eq_bytes_of_toJson {bytes : List UInt8} (hg : Genuine value)
    (h : toJson value = toJson (.bytes bytes)) : value = .bytes bytes := by
  cases value with
  | bytes found =>
    have ht : Encoding.writeBase64 found = Encoding.writeBase64 bytes := by
      simpa [toJson, Json.ofEntries] using h
    have hb := Encoding.readBase64_writeBase64 found
    rw [ht, Encoding.readBase64_writeBase64] at hb
    rw [Except.ok.inj hb]
  | map entries =>
    obtain ⟨inner, rfl, hi⟩ := toList_eq_of_toJsonEntries (Json.object.inj h).1
    cases inner with
    | map entries =>
      obtain ⟨text, rfl, ht⟩ := toList_eq_of_toJsonEntries (Json.object.inj hi).1
      obtain rfl := eq_string_of_toJson ht
      exact absurd (.inr ⟨bytes, rfl⟩) (hg _ (.self _))
    | link => simp [toJson, Json.ofEntries, linkKey, bytesKey] at hi
    | bytes => simp [toJson, Json.ofEntries] at hi
    | _ => cases hi
  | link cid => simp [toJson, Json.ofEntries] at h
  | _ => cases h

theorem eq_of_map_eq_map {α β : Type} {f : α → β} {as bs : List α} (h : as.map f = bs.map f)
    (hf : ∀ a ∈ as, ∀ b ∈ bs, f a = f b → a = b) : as = bs := by
  induction as generalizing bs with
  | nil => exact (List.map_eq_nil_iff.mp h.symm).symm
  | cons a as ih =>
    cases bs with
    | nil => cases h
    | cons b bs =>
      obtain ⟨hab, h⟩ := List.cons.inj h
      rw [hf a (List.mem_cons_self ..) b (List.mem_cons_self ..) hab,
        ih h fun a ha b hb => hf a (List.mem_cons_of_mem _ ha) b (List.mem_cons_of_mem _ hb)]

/-- Genuine values are the same if they are written as the same tree. -/
theorem eq_of_toJson_eq (hg : Genuine value) (ho : Genuine other)
    (h : toJson value = toJson other) : value = other := by
  induction hn : value.weight using Nat.strongRecOn generalizing value other with
  | ind n ih =>
    subst hn
    cases value with
    | link cid => exact (eq_link_of_toJson ho h.symm).symm
    | bytes bytes => exact (eq_bytes_of_toJson ho h.symm).symm
    | list items =>
      cases other with
      | list others =>
        have hitems := (Value.forall_inside_list.mp hg).2
        have hothers := (Value.forall_inside_list.mp ho).2
        rw [toJson, toJson, toJsonItems_eq, toJsonItems_eq, Json.list.injEq] at h
        rw [eq_of_map_eq_map h fun item hi other ho he =>
          ih _ (Value.weight_lt_of_mem hi) (hitems item hi) (hothers other ho) he rfl]
      | _ => cases h
    | map entries =>
      cases other with
      | link cid => exact eq_link_of_toJson hg h
      | bytes bytes => exact eq_bytes_of_toJson hg h
      | map others =>
        have hentries := (Value.forall_inside_map.mp hg).2
        have hothers := (Value.forall_inside_map.mp ho).2
        have h := (Json.object.inj h).1
        rw [toJsonEntries_eq, toJsonEntries_eq] at h
        have he := eq_of_map_eq_map h fun entry hm other ho he => by
          obtain ⟨hkey, hvalue⟩ := Prod.mk.inj he
          exact Prod.ext hkey (ih _ (Value.weight_lt_of_mem_toList hm) (hentries entry hm)
            (hothers other ho) hvalue rfl)
        rw [SortedMap.toList_injective he]
      | _ => cases h
    | _ =>
      cases other <;> cases h
      rfl

end Trees

section Texts

/-- Finite numbers stay what they are in the text. -/
theorem written_toJson {value : Value}
    (h : ∀ x, (Value.float x).Inside value → x.isFinite = true) :
    (toJson value).written = toJson value := by
  induction hn : value.weight using Nat.strongRecOn generalizing value with
  | ind n ih =>
    subst hn
    cases value with
    | float x => rw [toJson, written, if_pos (h x (.self _))]
    | list items =>
      rw [toJson, written, writtenItems_eq, toJsonItems_eq, List.map_map]
      refine congrArg Json.list (List.map_congr_left fun item hi => ?_)
      exact ih _ (Value.weight_lt_of_mem hi) (fun x hx => h x (.item hi hx)) rfl
    | map entries =>
      rw [toJson, Json.ofEntries, written, writtenEntries_eq, toJsonEntries_eq, List.map_map]
      refine congrArg Json.ofEntries (List.map_congr_left fun entry he => ?_)
      exact Prod.ext rfl
        (ih _ (Value.weight_lt_of_mem_toList he) (fun x hx => h x (.entry he hx)) rfl)
    | _ => rfl

theorem encode_eq_encode_iff {value other : Value} :
    encode value = encode other ↔ (toJson value).written = (toJson other).written :=
  text_eq_text_iff

/-- A value with finite numbers and without a posing map is the only such value with its text. -/
theorem encode_inj_of_genuine {value other : Value}
    (hv : ∀ x, (Value.float x).Inside value → x.isFinite = true)
    (ho : ∀ x, (Value.float x).Inside other → x.isFinite = true)
    (hg : Genuine value) (hg' : Genuine other) : encode value = encode other ↔ value = other := by
  rw [encode_eq_encode_iff, written_toJson hv, written_toJson ho]
  exact ⟨eq_of_toJson_eq hg hg', congrArg toJson⟩

/-- A map from the key of links to bytes, which is written with that key twice. -/
def slashValue : Value :=
  .map (.singleton linkKey (.bytes [0]))

theorem unreserved_slashValue : Unreserved slashValue := by
  refine unreserved_map.mpr ⟨?_, fun entry he => ?_⟩
  · rintro (⟨_, he⟩ | ⟨_, he⟩) <;> cases he
  · obtain rfl := List.mem_singleton.mp he
    exact unreserved_of_scalar rfl

theorem finite_slashValue : ∀ x, (Value.float x).Inside slashValue → x.isFinite = true := by
  intro x hx
  rcases hx with _ | _ | ⟨he, hx⟩
  obtain rfl := List.mem_singleton.mp he
  cases hx

theorem encode_inj_of_genuine_slash :
    Genuine slashValue ∧ (encode slashValue = encode (.bytes [0]) ↔ slashValue = .bytes [0]) :=
  have hg := genuine_of_unreserved unreserved_slashValue
  ⟨hg, encode_inj_of_genuine finite_slashValue nofun hg
    (genuine_of_unreserved (unreserved_of_scalar rfl))⟩

/-- Not every value without other numbers than finite ones is told by its text from the others: a
map can be written like bytes. -/
theorem not_encode_inj : ¬ ∀ value other : Value,
    (∀ x, (Value.float x).Inside value → x.isFinite = true) →
      (∀ x, (Value.float x).Inside other → x.isFinite = true) →
        encode value = encode other → value.same other = true := by
  intro h
  have hv : ∀ x, (Value.float x).Inside hiddenValue → x.isFinite = true := by
    intro x hx
    rcases hx with _ | _ | ⟨he, hx⟩
    obtain rfl := List.mem_singleton.mp he
    rcases hx with _ | _ | ⟨he, hx⟩
    obtain rfl := List.mem_singleton.mp he
    cases hx
  have ho : ∀ x, (Value.float x).Inside (.bytes [0]) → x.isFinite = true := nofun
  have he : encode hiddenValue = encode (.bytes [0]) := by decide +kernel
  exact absurd (h _ _ hv ho he) (by decide)

end Texts

end LinkedSchema.DagJson
