import LinkedSchema.Binary64.Basic
import LinkedSchema.Cid
import LinkedSchema.SortedMap

namespace LinkedSchema

/-- A value of linked data. -/
inductive Value where
  | null
  | bool (b : Bool)
  | int (n : Int)
  | float (x : Binary64)
  | string (s : String)
  | bytes (bytes : List UInt8)
  | list (items : List Value)
  | map (entries : SortedMap Value none)
  | link (cid : Cid)

namespace Value

instance : Inhabited Value := ⟨null⟩

mutual

/-- Equality of the data, floating-point numbers being compared by `Binary64.same`. -/
def same : Value → Value → Bool
  | null, null => true
  | bool a, bool b => a = b
  | int m, int n => m = n
  | float x, float y => x.same y
  | string s, string t => s = t
  | bytes a, bytes b => a = b
  | list a, list b => sameItems a b
  | map a, map b => sameEntries a b
  | link a, link b => a = b
  | _, _ => false

def sameItems : List Value → List Value → Bool
  | [], [] => true
  | a :: as, b :: bs => a.same b && sameItems as bs
  | _, _ => false

def sameEntries {low high : Option String} : SortedMap Value low → SortedMap Value high → Bool
  | .nil, .nil => true
  | .cons key a _ as, .cons other b _ bs => key = other && a.same b && sameEntries as bs
  | _, _ => false

end

mutual

/-- Whether two values are built in the same way, the bits of their numbers included. -/
def identical : Value → Value → Bool
  | null, null => true
  | bool a, bool b => a = b
  | int m, int n => m = n
  | float x, float y => x = y
  | string s, string t => s = t
  | bytes a, bytes b => a = b
  | list a, list b => identicalItems a b
  | map a, map b => identicalEntries a b
  | link a, link b => a = b
  | _, _ => false

def identicalItems : List Value → List Value → Bool
  | [], [] => true
  | a :: as, b :: bs => a.identical b && identicalItems as bs
  | _, _ => false

def identicalEntries {bound : Option String} : SortedMap Value bound → SortedMap Value bound → Bool
  | .nil, .nil => true
  | .cons key a _ as, .cons other b _ bs =>
    if h : key = other then a.identical b && identicalEntries as (h ▸ bs) else false
  | _, _ => false

end

mutual

theorem identical_iff : (a b : Value) → (a.identical b = true ↔ a = b)
  | null, b => by cases b <;> simp [identical]
  | bool _, b => by cases b <;> simp [identical]
  | int _, b => by cases b <;> simp [identical]
  | float _, b => by cases b <;> simp [identical]
  | string _, b => by cases b <;> simp [identical]
  | bytes _, b => by cases b <;> simp [identical]
  | list items, b => by
    cases b with
    | list others => simp [identical, identicalItems_iff items others]
    | _ => simp [identical]
  | map entries, b => by
    cases b with
    | map others => simp [identical, identicalEntries_iff entries others]
    | _ => simp [identical]
  | link _, b => by cases b <;> simp [identical]

theorem identicalItems_iff : (a b : List Value) → (identicalItems a b = true ↔ a = b)
  | [], b => by cases b <;> simp [identicalItems]
  | a :: as, b => by
    cases b with
    | nil => simp [identicalItems]
    | cons b bs => simp [identicalItems, identical_iff a b, identicalItems_iff as bs]

theorem identicalEntries_iff {bound : Option String} :
    (a b : SortedMap Value bound) → (identicalEntries a b = true ↔ a = b)
  | .nil, b => by cases b <;> simp [identicalEntries]
  | .cons key a _ as, b => by
    cases b with
    | nil => simp [identicalEntries]
    | cons other b _ bs =>
      by_cases h : key = other
      · subst h
        simp [identicalEntries, identical_iff a b, identicalEntries_iff as bs]
      · simp [identicalEntries, h]

end

instance : DecidableEq Value := fun a b => decidable_of_iff _ (identical_iff a b)

mutual

/-- A size that counts the parts of lists and maps, characters and bytes. -/
def weight : Value → Nat
  | string s => s.length + 1
  | bytes b => b.length + 1
  | list items => weightItems items + 1
  | map entries => weightEntries entries + 1
  | _ => 1

def weightItems : List Value → Nat
  | [] => 0
  | item :: items => item.weight + weightItems items

def weightEntries {bound : Option String} : SortedMap Value bound → Nat
  | .nil => 0
  | .cons _ value _ rest => value.weight + weightEntries rest

end

def asString? : Value → Option String
  | string s => some s
  | _ => none

def asList? : Value → Option (List Value)
  | list items => some items
  | _ => none

def asMap? : Value → Option (SortedMap Value none)
  | map entries => some entries
  | _ => none

end Value

end LinkedSchema
