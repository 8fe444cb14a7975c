import LinkedSchema.Binary64.Basic
import LinkedSchema.Table

namespace LinkedSchema

/-- A JSON value with faults of the given type in the places of parts that cannot be used; over an
empty type there are none. Objects keep all their entries in order, repeated keys included. -/
inductive Json (Fault : Type) where
  | null
  | bool (b : Bool)
  | int (n : Int)
  | float (x : Binary64)
  | string (s : String)
  | list (items : List (Json Fault))
  | object (entries : List (String × Json Fault)) (ending : Option Fault)
  | fault (f : Fault)

namespace Json

variable {Fault : Type}

instance : Inhabited (Json Fault) := ⟨null⟩

/-- An object whose entries do not end in a fault. -/
def ofEntries (entries : List (String × Json Fault)) : Json Fault :=
  object entries none

mutual

/-- The tree without faults, or its first fault. Of entries with the same key the first gives the
place and the last the value. -/
def clean {Fault : Type} : Json Fault → Except Fault (Json Empty)
  | null => return null
  | bool b => return bool b
  | int n => return int n
  | float x => return float x
  | string s => return string s
  | list items => return list (← cleanItems items)
  | object entries ending => do
    let entries ← cleanEntries entries
    match ending with
    | none => return ofEntries (Table.ofList entries).entries
    | some f => throw f
  | fault f => throw f

def cleanItems {Fault : Type} : List (Json Fault) → Except Fault (List (Json Empty))
  | [] => return []
  | item :: items => do
    let first ← item.clean
    let rest ← cleanItems items
    return first :: rest

def cleanEntries {Fault : Type} :
    List (String × Json Fault) → Except Fault (List (String × Json Empty))
  | [] => return []
  | (key, value) :: entries => do
    let first ← value.clean
    let rest ← cleanEntries entries
    return (key, first) :: rest

end

/-- Whether no part of the tree is a fault. -/
def isClean (j : Json Fault) : Bool :=
  match j.clean with
  | .ok _ => true
  | .error _ => false

mutual

/-- Whether two trees without faults are the same in every part. -/
def identical : Json Empty → Json Empty → Bool
  | null, null => true
  | bool a, bool b => a = b
  | int m, int n => m = n
  | float x, float y => x = y
  | string s, string t => s = t
  | list a, list b => identicalItems a b
  | object a _, object b _ => identicalEntries a b
  | fault f, _ => f.elim
  | _, _ => false

def identicalItems : List (Json Empty) → List (Json Empty) → Bool
  | [], [] => true
  | a :: as, b :: bs => a.identical b && identicalItems as bs
  | _, _ => false

def identicalEntries : List (String × Json Empty) → List (String × Json Empty) → Bool
  | [], [] => true
  | (key, a) :: as, (other, b) :: bs => key = other && a.identical b && identicalEntries as bs
  | _, _ => false

end

mutual

theorem identical_iff : (a b : Json Empty) → (a.identical b = true ↔ a = b)
  | null, b => by cases b <;> simp [identical]
  | bool _, b => by cases b <;> simp [identical]
  | int _, b => by cases b <;> simp [identical]
  | float _, b => by cases b <;> simp [identical]
  | string _, b => by cases b <;> simp [identical]
  | list items, b => by
    cases b with
    | list others => simp [identical, identicalItems_iff items others]
    | _ => simp [identical]
  | object entries ending, b => by
    cases b with
    | object others other =>
      cases ending with
      | some f => exact f.elim
      | none =>
        cases other with
        | some f => exact f.elim
        | none => simp [identical, identicalEntries_iff entries others]
    | _ => simp [identical]
  | fault f, _ => f.elim

theorem identicalItems_iff : (a b : List (Json Empty)) → (identicalItems a b = true ↔ a = b)
  | [], b => by cases b <;> simp [identicalItems]
  | a :: as, b => by
    cases b with
    | nil => simp [identicalItems]
    | cons b bs => simp [identicalItems, identical_iff a b, identicalItems_iff as bs]

theorem identicalEntries_iff :
    (a b : List (String × Json Empty)) → (identicalEntries a b = true ↔ a = b)
  | [], b => by cases b <;> simp [identicalEntries]
  | (key, a) :: as, b => by
    cases b with
    | nil => simp [identicalEntries]
    | cons b bs =>
      obtain ⟨other, b⟩ := b
      simp [identicalEntries, identical_iff a b, identicalEntries_iff as bs]

end

instance : DecidableEq (Json Empty) := fun a b => decidable_of_iff _ (identical_iff a b)

end Json

end LinkedSchema
