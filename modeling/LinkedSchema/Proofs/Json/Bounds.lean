import LinkedSchema.Proofs.Json.Trees

namespace LinkedSchema

namespace Binary64

theorem magnitude_ofMagnitude (negative : Bool) {n : Nat} (h : n < magnitudeCount) :
    (ofMagnitude negative n).magnitude = n := by
  unfold magnitudeCount at h
  have hn : (UInt64.ofNat n).toNat = n := by
    rw [UInt64.toNat_ofNat']
    omega
  have hs : (0x8000000000000000 : UInt64).toNat = 9223372036854775808 := rfl
  have hz : (0 : UInt64).toNat = 0 := rfl
  unfold ofMagnitude magnitude magnitudeCount
  cases negative
  · simp only [Bool.false_eq_true, ↓reduceIte, UInt64.toNat_add, hn, hz]
    omega
  · simp only [↓reduceIte, UInt64.toNat_add, hn, hs]
    omega

theorem isFinite_ofMagnitude (negative : Bool) {n : Nat} (h : n < topField * fractionCount) :
    (ofMagnitude negative n).isFinite = true := by
  have hm := magnitude_ofMagnitude negative (n := n) (h.trans (by decide))
  rw [isFinite, exponentField, hm, decide_eq_true_eq]
  exact Nat.div_lt_of_lt_mul (by rwa [Nat.mul_comm])

theorem isFinite_of_ofRatio? {negative : Bool} {numerator denominator : Nat} {x : Binary64}
    (h : ofRatio? negative numerator denominator = some x) : x.isFinite = true := by
  simp only [ofRatio?] at h
  split at h
  · obtain rfl := Option.some.inj h
    exact isFinite_ofMagnitude _ (by decide)
  · split at h
    · rename_i hm
      obtain rfl := Option.some.inj h
      exact isFinite_ofMagnitude _ hm
    · cases h

end Binary64

theorem Decimal.isFinite_of_toBinary64? {d : Decimal} {x : Binary64}
    (h : d.toBinary64? = some x) : x.isFinite = true := by
  have hz : (Binary64.ofMagnitude d.negative 0).isFinite = true :=
    Binary64.isFinite_ofMagnitude _ (by decide)
  unfold toBinary64? at h
  split at h
  · exact Option.some.inj h ▸ hz
  split at h
  · cases h
  split at h
  · exact Option.some.inj h ▸ hz
  split at h <;> exact Binary64.isFinite_of_ofRatio? h

namespace Json

/-- The numbers of a token are bounded. -/
def Token.Bounded : Token → Prop
  | .int n => IntFits n
  | .float x => x.isFinite = true
  | _ => True

theorem NumberText.fits_of_integer? {n : NumberText} {k : Int} (h : n.integer? = some k) :
    IntFits k := by
  have hm : Int64.minValue.toInt = -9223372036854775808 := rfl
  simp only [integer?] at h
  unfold IntFits
  split at h
  · cases h
  split at h
  · split at h
    · rename_i hb
      simp only [Bool.and_eq_true, decide_eq_true_eq] at hb
      obtain rfl := Option.some.inj h
      have hs : (0 : Int) < UInt64.size := by decide
      omega
    · cases h
  · split at h
    · obtain rfl := Option.some.inj h
      omega
    · cases h

theorem NumberText.bounded_token (n : NumberText) : n.token.Bounded := by
  unfold token
  cases hi : n.integer? with
  | some k => exact fits_of_integer? hi
  | none =>
    cases hx : n.decimal.normalize.toBinary64? with
    | some x => exact Decimal.isFinite_of_toBinary64? hx
    | none => trivial

theorem bounded_readToken_word (token : Token) (h : token.Bounded) (after : List UInt8)
    (letters : String) : (readToken.word after token letters).1.Bounded := by
  unfold readToken.word
  split
  · exact h
  · trivial

theorem bounded_readToken (byte : UInt8) (after : List UInt8) :
    (readToken byte after).1.Bounded := by
  unfold readToken
  split
  case h_7 => exact bounded_readToken_word .null trivial ..
  case h_8 => exact bounded_readToken_word (.bool true) trivial ..
  case h_9 => exact bounded_readToken_word (.bool false) trivial ..
  case h_10 => split <;> trivial
  case h_11 =>
    split
    · split
      · exact NumberText.bounded_token _
      · trivial
    · trivial
  all_goals trivial

theorem bounded_tokensUpTo {most : Nat} {bytes : List UInt8} {token : Token}
    (h : token ∈ tokensUpTo most bytes) : token.Bounded := by
  induction most generalizing bytes with
  | zero => cases h
  | succ most ih =>
    unfold tokensUpTo at h
    split at h
    · cases h
    · rename_i byte rest _
      have hb := bounded_readToken byte rest
      split at h
      · rename_i first rest he
        rw [he] at hb
        rcases List.mem_cons.mp h with rfl | h
        · exact hb
        · exact ih h
      · rename_i first he
        rw [he] at hb
        exact List.mem_singleton.mp h ▸ hb

/-- The numbers of a tree are bounded, and so is the depth of what is not a fault. -/
inductive Bounded : Nat → Json JsonFault → Prop where
  | null {room} : Bounded room .null
  | bool {room b} : Bounded room (.bool b)
  | int {room n} (h : IntFits n) : Bounded room (.int n)
  | float {room x} (h : x.isFinite = true) : Bounded room (.float x)
  | string {room s} : Bounded room (.string s)
  | list {room items} (h : ∀ item ∈ items, Bounded room item) : Bounded (room + 1) (.list items)
  | object {room entries ending} (h : ∀ entry ∈ entries, Bounded room entry.2) :
    Bounded (room + 1) (.object entries ending)
  | fault {room f} : Bounded room (.fault f)

section Reading

variable {limit : Nat}

/-- The parts of a list or of an object that have been read are bounded by what lies around it. -/
def Frame.Bounded (room : Nat) : Frame → Prop
  | .list before => ∀ item ∈ before, Json.Bounded room item
  | .object before _ _ => ∀ entry ∈ before, Json.Bounded room entry.2

def FramesBounded (limit : Nat) : List Frame → Prop
  | [] => True
  | frame :: outer => frame.Bounded (limit - outer.length - 1) ∧ FramesBounded limit outer

theorem bounded_sealed {outer : List Frame} {value : Json JsonFault}
    (h : ∀ room, room + 1 = limit - outer.length → Bounded (room + 1) value) :
    Bounded (limit - outer.length) (sealed limit outer value) := by
  rw [sealed_eq]
  split
  · exact .fault
  · have he : limit - outer.length - 1 + 1 = limit - outer.length := by omega
    have hb := h _ he
    rwa [he] at hb

theorem bounded_sealed_list {outer : List Frame} {items : List (Json JsonFault)}
    (h : ∀ item ∈ items, Bounded (limit - outer.length - 1) item) :
    Bounded (limit - outer.length) (sealed limit outer (.list items)) :=
  bounded_sealed fun room he => .list fun item hi => by
    have hb := h item hi
    rwa [← he, Nat.add_sub_cancel] at hb

theorem bounded_sealedObject {outer : List Frame} {before : List (String × Json JsonFault)}
    (h : ∀ entry ∈ before, Bounded (limit - outer.length - 1) entry.2)
    (ending : Option JsonFault) :
    Bounded (limit - outer.length) (sealedObject limit outer before ending) :=
  bounded_sealed fun room he => .object fun entry hm => by
    have hb := h entry (List.mem_reverse.mp hm)
    rwa [← he, Nat.add_sub_cancel] at hb

theorem bounded_addEntry {room : Nat} {before : List (String × Json JsonFault)}
    {value : Json JsonFault} (h : ∀ entry ∈ before, Bounded room entry.2)
    (hv : Bounded room value) (ending : Option JsonFault) (key : String) :
    ∀ entry ∈ addEntry before ending key value, Bounded room entry.2 := by
  intro entry hm
  unfold addEntry at hm
  split at hm
  · exact h entry hm
  · rcases List.mem_cons.mp hm with rfl | hm
    · exact hv
    · exact h entry hm

theorem bounded_closeAll {last : Json JsonFault} {frames : List Frame}
    (hl : Bounded (limit - frames.length) last) (hf : FramesBounded limit frames) :
    Bounded limit (closeAll limit last frames) := by
  induction frames generalizing last with
  | nil => exact hl
  | cons frame outer ih =>
    obtain ⟨hb, ho⟩ := hf
    rw [List.length_cons, Nat.sub_add_eq] at hl
    cases frame with
    | list before =>
      refine ih (bounded_sealed_list fun item hi => ?_) ho
      rcases List.mem_cons.mp (List.mem_reverse.mp hi) with rfl | hi
      · exact hl
      · exact hb item hi
    | object before ending key =>
      exact ih (bounded_sealedObject (bounded_addEntry hb hl ending key) ending) ho

theorem bounded_breakOff (cause : JsonFault) {frames : List Frame}
    (hf : FramesBounded limit frames) : Bounded limit (breakOff limit cause frames).root :=
  bounded_closeAll .fault hf

theorem bounded_breakObject (cause : JsonFault) {before : List (String × Json JsonFault)}
    {outer : List Frame} (hb : ∀ entry ∈ before, Bounded (limit - outer.length - 1) entry.2)
    (ending : Option JsonFault) (ho : FramesBounded limit outer) :
    Bounded limit (breakObject limit cause before ending outer).root :=
  bounded_closeAll (bounded_sealedObject hb _) ho

theorem bounded_scalar? {token : Token} {value : Json JsonFault} (ht : token.Bounded)
    (h : token.scalar? = some value) (room : Nat) : Bounded room value := by
  unfold Token.scalar? at h
  split at h <;> cases h
  · exact .null
  · exact .bool
  · exact .int ht
  · exact .float ht
  · exact .fault
  · exact .string
  · exact .fault

theorem readValue_of_scalar?_eq_none {token : Token} {frames : List Frame} {rest : List Token}
    (h : token.scalar? = none) (hl : token ≠ .openList) (ho : token ≠ .openObject) :
    readValue limit frames (token :: rest) = breakOff limit token.valueFault frames := by
  cases token with
  | string text => cases text <;> cases h
  | _ => simp_all [readValue, Token.scalar?]

mutual

/-- Reading goes on from frames that are bounded, whichever tokens come. -/
theorem bounded_readValue (limit : Nat) : (tokens : List Token) → (frames : List Frame) →
    (∀ token ∈ tokens, token.Bounded) → FramesBounded limit frames →
      Bounded limit (readValue limit frames tokens).root
  | [], _, _, hf => bounded_breakOff _ hf
  | token :: rest, frames, ht, hf => by
    obtain ⟨hfirst, hrest⟩ := List.forall_mem_cons.mp ht
    by_cases hl : token = .openList
    · subst hl
      exact bounded_readFirstItem limit rest frames hrest hf
    by_cases ho : token = .openObject
    · subst ho
      exact bounded_readFirstKey limit rest frames hrest hf
    cases hs : token.scalar? with
    | some value =>
      rw [readValue_scalar hs]
      exact bounded_readAfter limit rest value frames hrest (bounded_scalar? hfirst hs _) hf
    | none =>
      rw [readValue_of_scalar?_eq_none hs hl ho]
      exact bounded_breakOff _ hf
termination_by tokens => (tokens.length, 0)

/-- Reading goes on after a value that its frames leave room for. -/
theorem bounded_readAfter (limit : Nat) : (tokens : List Token) → (value : Json JsonFault) →
    (frames : List Frame) → (∀ token ∈ tokens, token.Bounded) →
      Bounded (limit - frames.length) value → FramesBounded limit frames →
        Bounded limit (readAfter limit value frames tokens).root
  | [], _, [], _, hv, _ => by simpa [readAfter] using hv
  | _ :: _, _, [], _, hv, _ => by simpa [readAfter] using hv
  | [], value, .list before :: outer, _, hv, ⟨hb, ho⟩ =>
    bounded_breakOff _ ⟨List.forall_mem_cons.mpr ⟨hv, hb⟩, ho⟩
  | token :: rest, value, .list before :: outer, ht, hv, ⟨hb, ho⟩ => by
    have hrest := (List.forall_mem_cons.mp ht).2
    have hall : ∀ item ∈ value :: before, Bounded (limit - outer.length - 1) item :=
      List.forall_mem_cons.mpr ⟨hv, hb⟩
    cases token with
    | comma => exact bounded_readNextItem limit rest _ hrest ⟨hall, ho⟩
    | closeList =>
      have hs := bounded_sealed_list fun item hi => hall item (List.mem_reverse.mp hi)
      exact bounded_readAfter limit rest _ outer hrest hs ho
    | _ => exact bounded_breakOff _ ⟨hall, ho⟩
  | [], value, .object before ending key :: outer, _, hv, ⟨hb, ho⟩ =>
    bounded_breakObject _ (bounded_addEntry hb hv ending key) _ ho
  | token :: rest, value, .object before ending key :: outer, ht, hv, ⟨hb, ho⟩ => by
    have hrest := (List.forall_mem_cons.mp ht).2
    have hall := bounded_addEntry hb hv ending key
    cases token with
    | comma => exact bounded_readNextKey limit rest _ ending outer hrest hall ho
    | closeObject =>
      exact bounded_readAfter limit rest _ outer hrest (bounded_sealedObject hall ending) ho
    | _ => exact bounded_breakObject _ hall _ ho
termination_by tokens => (tokens.length, 0)

theorem bounded_readFirstItem (limit : Nat) : (tokens : List Token) → (outer : List Frame) →
    (∀ token ∈ tokens, token.Bounded) → FramesBounded limit outer →
      Bounded limit (readFirstItem limit outer tokens).root
  | [], outer, _, hf => bounded_breakOff _ ⟨by simp [Frame.Bounded], hf⟩
  | token :: rest, outer, ht, hf => by
    have hempty : (Frame.list []).Bounded (limit - outer.length - 1) := by simp [Frame.Bounded]
    by_cases hc : token = .closeList
    · subst hc
      exact bounded_readAfter limit rest _ outer (List.forall_mem_cons.mp ht).2
        (bounded_sealed_list (by simp)) hf
    · rw [readFirstItem_eq hc]
      exact bounded_readValue limit (token :: rest) _ ht ⟨hempty, hf⟩
termination_by tokens => (tokens.length, 1)

theorem bounded_readNextItem (limit : Nat) : (tokens : List Token) → (frames : List Frame) →
    (∀ token ∈ tokens, token.Bounded) → FramesBounded limit frames →
      Bounded limit (readNextItem limit frames tokens).root
  | [], _, _, hf => bounded_breakOff _ hf
  | token :: rest, frames, ht, hf => by
    by_cases hc : token = .closeList
    · subst hc
      exact bounded_breakOff _ hf
    · rw [readNextItem_eq hc]
      exact bounded_readValue limit (token :: rest) _ ht hf
termination_by tokens => (tokens.length, 1)

theorem bounded_readFirstKey (limit : Nat) : (tokens : List Token) → (outer : List Frame) →
    (∀ token ∈ tokens, token.Bounded) → FramesBounded limit outer →
      Bounded limit (readFirstKey limit outer tokens).root
  | [], _, _, hf => bounded_breakObject _ (by simp) _ hf
  | token :: rest, outer, ht, hf => by
    have hrest := (List.forall_mem_cons.mp ht).2
    have hempty : ∀ entry ∈ ([] : List (String × Json JsonFault)),
        Bounded (limit - outer.length - 1) entry.2 := by simp
    cases token with
    | closeObject =>
      exact bounded_readAfter limit rest _ outer hrest (bounded_sealedObject hempty none) hf
    | string key => exact bounded_readColon limit rest [] none key outer hrest hempty hf
    | _ => exact bounded_breakObject _ hempty _ hf
termination_by tokens => (tokens.length, 0)

theorem bounded_readNextKey (limit : Nat) : (tokens : List Token) →
    (before : List (String × Json JsonFault)) → (ending : Option JsonFault) →
      (outer : List Frame) → (∀ token ∈ tokens, token.Bounded) →
        (∀ entry ∈ before, Bounded (limit - outer.length - 1) entry.2) →
          FramesBounded limit outer →
            Bounded limit (readNextKey limit before ending outer tokens).root
  | [], _, _, _, _, hb, hf => bounded_breakObject _ hb _ hf
  | token :: rest, before, ending, outer, ht, hb, hf => by
    have hrest := (List.forall_mem_cons.mp ht).2
    cases token with
    | string key => exact bounded_readColon limit rest before ending key outer hrest hb hf
    | _ => exact bounded_breakObject _ hb _ hf
termination_by tokens => (tokens.length, 0)

theorem bounded_readColon (limit : Nat) : (tokens : List Token) →
    (before : List (String × Json JsonFault)) → (ending : Option JsonFault) →
      (key : Except JsonFault String) → (outer : List Frame) →
        (∀ token ∈ tokens, token.Bounded) →
          (∀ entry ∈ before, Bounded (limit - outer.length - 1) entry.2) →
            FramesBounded limit outer →
              Bounded limit (readColon limit before ending key outer tokens).root
  | [], _, _, _, _, _, hb, hf => bounded_breakObject _ hb _ hf
  | token :: rest, before, ending, key, outer, ht, hb, hf => by
    have hrest := (List.forall_mem_cons.mp ht).2
    cases token with
    | colon => exact bounded_readValue limit rest _ hrest ⟨hb, hf⟩
    | _ => exact bounded_breakObject _ hb _ hf
termination_by tokens => (tokens.length, 0)

end

/-- What is read from any bytes is bounded. -/
theorem bounded_readUpTo (limit : Nat) (bytes : List UInt8) :
    Bounded limit (readUpTo limit bytes).root :=
  bounded_readValue limit (tokens bytes) [] (fun _ => bounded_tokensUpTo) trivial

end Reading

end Json

end LinkedSchema
