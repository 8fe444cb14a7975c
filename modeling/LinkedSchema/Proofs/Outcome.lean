import LinkedSchema.Transform.Registry
import Mathlib.Data.List.Forall2

namespace LinkedSchema

/-- The value that a conversion gives, or why it gives none. -/
abbrev Outcome := Except Stop Value

def Conversion.result (conversion : Conversion) (value : Value) : Outcome :=
  conversion.map (·.apply value)

namespace Outcome

variable {ε α β : Type}

@[simp] theorem pure_eq (a : α) : (pure a : Except ε α) = .ok a := rfl

@[simp] theorem throw_eq (e : ε) : (throw e : Except ε α) = .error e := rfl

@[simp] theorem ok_bind (a : α) (f : α → Except ε β) : (Except.ok a >>= f) = f a := rfl

@[simp] theorem error_bind (e : ε) (f : α → Except ε β) : (Except.error e >>= f) = .error e := rfl

@[simp] theorem map_ok (f : α → β) (a : α) : Except.map (ε := ε) f (.ok a) = .ok (f a) := rfl

theorem bind_eq_ok {x : Except ε α} {f : α → Except ε β} {b : β} :
    (x >>= f) = .ok b ↔ ∃ a, x = .ok a ∧ f a = .ok b := by
  cases x <;> simp

/-- A check passes, and so does what follows it. -/
theorem check_bind_eq_ok {x : Except ε Unit} {f : Unit → Except ε β} {b : β} :
    (x >>= f) = .ok b ↔ x = .ok () ∧ f () = .ok b := by
  cases x <;> simp

theorem map_eq_ok {x : Except ε α} {f : α → β} {b : β} :
    x.map f = .ok b ↔ ∃ a, x = .ok a ∧ f a = b := by
  cases x <;> simp [Except.map]

theorem mapError_eq_ok {ε' : Type} {x : Except ε α} {f : ε → ε'} {a : α} :
    x.mapError f = .ok a ↔ x = .ok a := by
  cases x <;> simp [Except.mapError]

theorem toOption_eq_some {x : Except ε α} {a : α} : x.toOption = some a ↔ x = .ok a := by
  cases x <;> simp [Except.toOption]

theorem mapM_eq_ok {f : α → Except ε β} {as : List α} {bs : List β} :
    as.mapM f = .ok bs ↔ List.Forall₂ (fun a b => f a = .ok b) as bs := by
  induction as generalizing bs with
  | nil => cases bs <;> simp
  | cons a as ih =>
    rw [List.mapM_cons]
    constructor
    · intro h
      obtain ⟨b, hb, h⟩ := bind_eq_ok.mp h
      obtain ⟨rest, hr, h⟩ := bind_eq_ok.mp h
      cases h
      exact .cons hb (ih.mp hr)
    · intro h
      cases h with
      | cons hb hr => simp [hb, ih.mpr hr]

theorem mem_of_mapM_eq_ok {f : α → Except ε β} {as : List α} {bs : List β}
    (h : as.mapM f = .ok bs) (b : β) : b ∈ bs ↔ ∃ a ∈ as, f a = .ok b := by
  induction as generalizing bs with
  | nil =>
    cases h
    simp
  | cons first rest ih =>
    rw [List.mapM_cons] at h
    obtain ⟨c, hc, h⟩ := bind_eq_ok.mp h
    obtain ⟨cs, hcs, h⟩ := bind_eq_ok.mp h
    cases h
    rw [List.mem_cons, ih hcs]
    constructor
    · intro h
      rcases h with rfl | ⟨a, ha, hb⟩
      · exact ⟨first, List.mem_cons_self .., hc⟩
      · exact ⟨a, List.mem_cons_of_mem _ ha, hb⟩
    · intro h
      obtain ⟨a, ha, hb⟩ := h
      rcases List.mem_cons.mp ha with rfl | ha
      · rw [hc] at hb
        cases hb
        exact .inl rfl
      · exact .inr ⟨a, ha, hb⟩

theorem forall_of_mapM_eq_ok {f : α → Except ε β} {as : List α} {bs : List β}
    (h : as.mapM f = .ok bs) : ∀ a ∈ as, ∃ b, f a = .ok b := by
  have h := mapM_eq_ok.mp h
  intro a ha
  obtain ⟨i, hi, rfl⟩ := List.mem_iff_getElem.mp ha
  exact ⟨_, (List.forall₂_iff_get.mp h).2 i hi (h.length_eq ▸ hi)⟩

/-- A traversal succeeds if each of its steps does. -/
theorem exists_mapM_eq_ok {f : α → Except ε β} {as : List α}
    (h : ∀ a ∈ as, ∃ b, f a = .ok b) : ∃ bs, as.mapM f = .ok bs := by
  induction as with
  | nil => exact ⟨[], rfl⟩
  | cons a as ih =>
    obtain ⟨b, hb⟩ := h a (by simp)
    obtain ⟨bs, hs⟩ := ih fun a ha => h a (List.mem_cons_of_mem _ ha)
    exact ⟨b :: bs, by simp [hb, hs]⟩

/-- What is the same wherever it is not a given outcome is the same. -/
theorem eq_of_iff_of_ne {x y z : α} (h : ∀ a, a ≠ z → (x = a ↔ y = a)) : x = y := by
  by_cases hx : x = z
  · by_cases hy : y = z
    · rw [hx, hy]
    · exact (h y hy).mpr rfl
  · exact ((h x hx).mp rfl).symm

end Outcome

/-- Two computations that fail alike, or give related results. -/
inductive Alike {ε α β : Type} (rel : α → β → Prop) : Except ε α → Except ε β → Prop where
  | ok {a : α} {b : β} (h : rel a b) : Alike rel (.ok a) (.ok b)
  | error (e : ε) : Alike rel (.error e) (.error e)

namespace Alike

variable {ε α β γ δ : Type} {rel : α → β → Prop} {rel' : γ → δ → Prop}

theorem bind {x : Except ε α} {y : Except ε β} {f : α → Except ε γ} {g : β → Except ε δ}
    (h : Alike rel x y) (hf : ∀ a b, rel a b → Alike rel' (f a) (g b)) :
    Alike rel' (x >>= f) (y >>= g) := by
  cases h with
  | ok h => exact hf _ _ h
  | error e => exact .error e

theorem map_eq {x : Except ε α} {y : Except ε β} {f : α → β}
    (h : Alike (fun a b => f a = b) x y) : x.map f = y := by
  cases h with
  | ok h => exact congrArg Except.ok h
  | error e => rfl

/-- A fold over numbered items does what a traversal does, if each step keeps the invariant between
the items seen, the state and the results so far. -/
theorem foldlM_mapM {σ : Type} {I : List α → σ → List β → Prop} {items : List α}
    {f : σ → α × Nat → Except ε σ} {g : α → Except ε β}
    (step : ∀ before item rest state done, before ++ item :: rest = items → I before state done →
      Alike (fun next result => I (before ++ [item]) next (done ++ [result]))
        (f state (item, before.length)) (g item))
    {start : σ} (h : I [] start []) :
    Alike (I items) (items.zipIdx.foldlM f start) (items.mapM g) := by
  suffices ∀ rest before state done, before ++ rest = items → I before state done →
      Alike (fun state results => I items state (done ++ results))
        ((rest.zipIdx before.length).foldlM f state) (rest.mapM g) by
    simpa using this items [] start [] rfl h
  intro rest
  induction rest with
  | nil =>
    intro before state done hi h
    subst hi
    exact .ok (by simpa using h)
  | cons item rest ih =>
    intro before state done hi h
    rw [List.zipIdx_cons, List.foldlM_cons, List.mapM_cons]
    refine (step before item rest state done hi h).bind fun next result hn => ?_
    have hr := ih (before ++ [item]) next (done ++ [result]) (by simpa using hi) hn
    rw [List.length_append, List.length_singleton] at hr
    generalize (rest.zipIdx (before.length + 1)).foldlM f next = x, rest.mapM g = y at hr
    cases hr with
    | ok hr => exact .ok (by simpa using hr)
    | error e => exact .error e

end Alike

/-- A relation between outcomes that a further step with related continuations keeps. -/
structure Congruence (rel : {α : Type} → Except Stop α → Except Stop α → Prop) : Prop where
  refl {α : Type} (x : Except Stop α) : rel x x
  bind {α β : Type} {x y : Except Stop α} {f g : α → Except Stop β} (h : rel x y)
    (hf : ∀ a, rel (f a) (g a)) : rel (x >>= f) (y >>= g)

namespace Congruence

variable {rel : {α : Type} → Except Stop α → Except Stop α → Prop} {α β : Type}

theorem mapM_forall₂ {γ : Type} (hrel : Congruence rel) {f : α → Except Stop β}
    {g : γ → Except Stop β} {as : List α} {cs : List γ}
    (h : List.Forall₂ (fun a c => rel (f a) (g c)) as cs) : rel (as.mapM f) (cs.mapM g) := by
  induction h with
  | nil => exact hrel.refl _
  | cons h _ ih =>
    rw [List.mapM_cons, List.mapM_cons]
    refine hrel.bind h fun b => ?_
    exact hrel.bind ih fun bs => hrel.refl _

theorem mapM (hrel : Congruence rel) {f g : α → Except Stop β} {as : List α}
    (h : ∀ a ∈ as, rel (f a) (g a)) : rel (as.mapM f) (as.mapM g) :=
  hrel.mapM_forall₂ (List.forall₂_same.mpr h)

theorem foldlM (hrel : Congruence rel) {f g : β → α → Except Stop β} {as : List α} {b : β}
    (h : ∀ b, ∀ a ∈ as, rel (f b a) (g b a)) : rel (as.foldlM f b) (as.foldlM g b) := by
  induction as generalizing b with
  | nil => exact hrel.refl _
  | cons a as ih =>
    rw [List.foldlM_cons, List.foldlM_cons]
    exact hrel.bind (h b a (by simp)) fun b => ih fun b a ha => h b a (List.mem_cons_of_mem _ ha)

protected theorem eq : Congruence fun x y => x = y where
  refl _ := rfl
  bind h hf := by
    subst h
    rw [funext hf]

end Congruence

/-- The first outcome is the second, or it was stopped before. -/
def StopsOrEq (stop : Stop) {α : Type} (x y : Except Stop α) : Prop :=
  x = .error stop ∨ x = y

namespace StopsOrEq

variable {stop : Stop} {α : Type} {x y z : Except Stop α}

theorem congruence (stop : Stop) : Congruence (StopsOrEq stop) where
  refl _ := .inr rfl
  bind h hf := by
    rcases h with rfl | rfl
    · exact .inl rfl
    · rename_i x _ _
      cases x with
      | error e => exact .inr rfl
      | ok a => exact hf a

theorem congruence_flip (stop : Stop) : Congruence fun x y => StopsOrEq stop y x where
  refl _ := .inr rfl
  bind h hf := (congruence stop).bind h hf

theorem trans (h : StopsOrEq stop x y) (h' : StopsOrEq stop y z) : StopsOrEq stop x z := by
  rcases h with h | rfl
  · exact .inl h
  · exact h'

theorem eq_of_ne (h : StopsOrEq stop x y) (hn : x ≠ .error stop) : x = y :=
  h.resolve_left hn

theorem eq_ok {a : α} (h : StopsOrEq stop x y) (hx : x = .ok a) : y = .ok a := by
  rw [← h.eq_of_ne (by simp [hx]), hx]

end StopsOrEq

end LinkedSchema
