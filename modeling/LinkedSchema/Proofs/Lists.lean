import Mathlib.Data.List.Forall2
import Mathlib.Data.List.Nodup
import Mathlib.Data.List.Perm.Basic

namespace LinkedSchema

/-- Where one property tells the elements of a list apart, it finds each of them. -/
theorem find?_eq_some_iff_of_nodup {α κ : Type} [DecidableEq κ] {f : α → κ} {as : List α}
    (h : (as.map f).Nodup) {key : κ} {a : α} :
    as.find? (fun a => f a = key) = some a ↔ a ∈ as ∧ f a = key := by
  induction as with
  | nil => simp
  | cons first rest ih =>
    obtain ⟨hn, hr⟩ := List.nodup_cons.mp h
    by_cases hk : f first = key
    · have hs : ∀ a ∈ rest, f a ≠ key := fun a ha he =>
        hn (List.mem_map.mpr ⟨a, ha, he.trans hk.symm⟩)
      constructor
      · intro hf
        have he : first = a := by simpa [List.find?_cons, hk] using hf
        exact ⟨by simp [he], he ▸ hk⟩
      · intro h
        obtain ⟨hm, ha⟩ := h
        rcases List.mem_cons.mp hm with rfl | hm
        · simp [hk]
        · exact absurd ha (hs a hm)
    · rw [List.find?_cons_of_neg (by simpa using hk), ih hr]
      constructor
      · intro h
        obtain ⟨hm, ha⟩ := h
        exact ⟨List.mem_cons_of_mem _ hm, ha⟩
      · intro h
        obtain ⟨hm, ha⟩ := h
        rcases List.mem_cons.mp hm with rfl | hm
        · exact absurd ha hk
        · exact ⟨hm, ha⟩

theorem nodup_append_singleton {α : Type} {as : List α} {a : α} (h : as.Nodup) (hn : a ∉ as) :
    (as ++ [a]).Nodup := by
  rw [← List.concat_eq_append]
  exact h.concat hn

theorem not_mem_of_nodup_append {α : Type} {before rest : List α} {a : α}
    (h : (before ++ a :: rest).Nodup) : a ∉ before :=
  fun hm => (List.nodup_cons.mp (List.nodup_middle.mp h)).1 (List.mem_append_left _ hm)

/-- Items that are each found again are all found again. -/
theorem mapM_map_of_leftInverse {α β : Type} {f : β → Option α} {g : α → β} {as : List α}
    (h : ∀ a ∈ as, f (g a) = some a) : (as.map g).mapM f = some as := by
  induction as with
  | nil => rfl
  | cons a as ih =>
    rw [List.map_cons, List.mapM_cons, h a (List.mem_cons_self ..),
      ih fun b hb => h b (List.mem_cons_of_mem _ hb)]
    rfl

theorem map_eq_of_forall₂ {α β γ : Type} {rel : α → β → Prop} {f : α → γ} {g : β → γ} {as : List α}
    {bs : List β} (h : List.Forall₂ rel as bs) (hr : ∀ a b, rel a b → f a = g b) :
    as.map f = bs.map g := by
  induction h with
  | nil => rfl
  | cons h _ ih => rw [List.map_cons, List.map_cons, hr _ _ h, ih]

/-- Steps that lead on from related items lead on from related lists. -/
theorem forall₂_round {α β : Type} {forth : α → β → Prop} {back : β → α → Prop}
    {rel : β → β → Prop} {as : List α} {bs : List β} (h : List.Forall₂ forth as bs)
    (step : ∀ a b, forth a b → ∃ c d, back b c ∧ forth c d ∧ rel d b) :
    ∃ cs ds, List.Forall₂ back bs cs ∧ List.Forall₂ forth cs ds ∧ List.Forall₂ rel ds bs := by
  induction h with
  | nil => exact ⟨[], [], .nil, .nil, .nil⟩
  | cons h _ ih =>
    obtain ⟨c, d, hc, hd, hr⟩ := step _ _ h
    obtain ⟨cs, ds, hcs, hds, hrs⟩ := ih
    exact ⟨c :: cs, d :: ds, .cons hc hcs, .cons hd hds, .cons hr hrs⟩

theorem forall₂_of_exists {α β γ : Type} {rel : α → β → Prop} {other : α → γ → Prop} {as : List α}
    {bs : List β} (h : List.Forall₂ rel as bs) (step : ∀ a b, rel a b → ∃ c, other a c) :
    ∃ cs, List.Forall₂ other as cs := by
  induction h with
  | nil => exact ⟨[], .nil⟩
  | cons h _ ih =>
    obtain ⟨c, hc⟩ := step _ _ h
    obtain ⟨cs, hcs⟩ := ih
    exact ⟨c :: cs, .cons hc hcs⟩

theorem forall₂_and {α β : Type} {rel other : α → β → Prop} {as : List α} {bs : List β}
    (h : List.Forall₂ rel as bs) (ho : List.Forall₂ other as bs) :
    List.Forall₂ (fun a b => rel a b ∧ other a b) as bs := by
  induction h with
  | nil => exact .nil
  | cons h _ ih =>
    cases ho with
    | cons hb hbs => exact .cons ⟨h, hb⟩ (ih hbs)

theorem exists_mem_of_forall₂ {α β : Type} {rel : α → β → Prop} {as : List α} {bs : List β}
    (h : List.Forall₂ rel as bs) : ∀ a ∈ as, ∃ b ∈ bs, rel a b := by
  induction h with
  | nil => simp
  | cons h _ ih =>
    intro a ha
    rcases List.mem_cons.mp ha with rfl | ha
    · exact ⟨_, List.mem_cons_self .., h⟩
    · obtain ⟨b, hb, h⟩ := ih a ha
      exact ⟨b, List.mem_cons_of_mem _ hb, h⟩

theorem exists_of_forall₂ {α β : Type} {rel : α → β → Prop} {as : List α} {bs : List β}
    (h : List.Forall₂ rel as bs) : ∀ a ∈ as, ∃ b, rel a b := by
  intro a ha
  obtain ⟨b, -, h⟩ := exists_mem_of_forall₂ h a ha
  exact ⟨b, h⟩

theorem forall₂_imp_of_mem {α β : Type} {rel other : α → β → Prop} {as : List α} {bs : List β}
    (h : List.Forall₂ rel as bs) (step : ∀ a ∈ as, ∀ b, rel a b → other a b) :
    List.Forall₂ other as bs :=
  ((List.forall₂_and_left as bs).mpr ⟨fun _ hm => hm, h⟩).imp fun a b hab => step a hab.1 b hab.2

theorem forall₂_comp {α β γ : Type} {rel : α → β → Prop} {rel' : β → γ → Prop} {as : List α}
    {bs : List β} {cs : List γ} (h : List.Forall₂ rel as bs) (h' : List.Forall₂ rel' bs cs) :
    List.Forall₂ (fun a c => ∃ b, rel a b ∧ rel' b c) as cs := by
  induction h generalizing cs with
  | nil =>
    cases h'
    exact .nil
  | cons h _ ih =>
    cases h' with
    | cons hc hcs => exact .cons ⟨_, h, hc⟩ (ih hcs)

/-- Related lists stay related item by item when the items of the first are exchanged for others. -/
theorem forall₂_transfer {α β : Type} {rel : α → β → Prop} {alike : α → α → Prop}
    {alike' : β → β → Prop} {as cs : List α} {bs : List β} (h : List.Forall₂ rel as bs)
    (ha : List.Forall₂ alike as cs)
    (step : ∀ a b c, rel a b → alike a c → ∃ d, rel c d ∧ alike' b d) :
    ∃ ds, List.Forall₂ rel cs ds ∧ List.Forall₂ alike' bs ds := by
  induction h generalizing cs with
  | nil =>
    cases ha
    exact ⟨[], .nil, .nil⟩
  | cons h _ ih =>
    cases ha with
    | cons hc hcs =>
      obtain ⟨d, hd, hbd⟩ := step _ _ _ h hc
      obtain ⟨ds, hds, hbds⟩ := ih hcs
      exact ⟨d :: ds, .cons hd hds, .cons hbd hbds⟩

section Order

variable {α β γ δ : Type} {as bs : List α}

/-- The order of a list does not matter for what is found in it, if there is only one thing to be
found. -/
theorem findSome?_eq_of_perm {f : α → Option β} (h : as.Perm bs)
    (hu : ∀ a ∈ as, ∀ other ∈ as, ∀ b c, f a = some b → f other = some c → b = c) :
    as.findSome? f = bs.findSome? f := by
  cases hb : as.findSome? f with
  | none =>
    rw [List.findSome?_eq_none_iff] at hb
    exact (List.findSome?_eq_none_iff.mpr fun a ha => hb a (h.mem_iff.mpr ha)).symm
  | some b =>
    obtain ⟨a, ha, hb⟩ := List.exists_of_findSome?_eq_some hb
    cases hc : bs.findSome? f with
    | none =>
      rw [List.findSome?_eq_none_iff.mp hc a (h.mem_iff.mp ha)] at hb
      cases hb
    | some c =>
      obtain ⟨other, ho, hc⟩ := List.exists_of_findSome?_eq_some hc
      rw [hu a ha other (h.mem_iff.mpr ho) b c hb hc]

theorem find?_eq_of_perm {property : α → Bool} (h : as.Perm bs)
    (hu : ∀ a ∈ as, ∀ b ∈ as, property a = true → property b = true → a = b) :
    as.find? property = bs.find? property := by
  rw [List.find?_eq_findSome?_guard, List.find?_eq_findSome?_guard]
  refine findSome?_eq_of_perm h fun a ha other ho b c hb hc => ?_
  obtain ⟨rfl, hpa⟩ := Option.guard_eq_some_iff.mp hb
  obtain ⟨rfl, hpo⟩ := Option.guard_eq_some_iff.mp hc
  exact hu _ ha _ ho hpa hpo

theorem find?_eq_of_perm_of_nodup [DecidableEq β] {f : α → β} (h : as.Perm bs)
    (hn : (as.map f).Nodup) (key : β) :
    as.find? (fun a => f a = key) = bs.find? fun a => f a = key := by
  refine find?_eq_of_perm h fun a ha b hb hak hbk => ?_
  refine List.inj_on_of_nodup_map hn ha hb ?_
  rw [of_decide_eq_true hak, of_decide_eq_true hbk]

/-- What is determined by the items of a list is reordered along with the list. -/
theorem perm_of_forall₂ {rel : α → β → Prop} {other : α → γ → Prop} {f : β → δ} {g : γ → δ}
    {xs : List β} {ys : List γ} (h : as.Perm bs) (hx : List.Forall₂ rel as xs)
    (hy : List.Forall₂ other bs ys) (he : ∀ a ∈ as, ∀ x y, rel a x → other a y → f x = g y) :
    (xs.map f).Perm (ys.map g) := by
  obtain ⟨zs, hz, hp⟩ := List.perm_comp_forall₂ h hy
  have hboth : List.Forall₂ (fun x z => ∃ a, (rel a x ∧ a ∈ as) ∧ other a z) xs zs := by
    refine forall₂_comp (forall₂_imp_of_mem hx fun a ha x hr => ?_).flip hz
    exact ⟨hr, ha⟩
  rw [map_eq_of_forall₂ hboth fun x z hxz => ?_]
  · exact hp.map g
  · obtain ⟨a, ⟨hr, ha⟩, ho⟩ := hxz
    exact he a ha x z hr ho

end Order

end LinkedSchema
