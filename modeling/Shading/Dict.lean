/-
  Dictionaries that keep the order in which their keys first came in.
-/

namespace Shading

/-- A dictionary with texts as keys, each key once. -/
structure Dict (α : Type) where
  entries : List (String × α)
  deriving DecidableEq, Repr

namespace Dict

variable {α : Type}

/-- The dictionary without entries. -/
def empty : Dict α := ⟨[]⟩

/-- The value of a key. -/
def get? (d : Dict α) (key : String) : Option α :=
  d.entries.lookup key

/-- Whether a key has a value. -/
def contains (d : Dict α) (key : String) : Bool :=
  (d.get? key).isSome

/-- The entries with the value of a key replaced, or else with a new entry at
    the end. -/
def put (key : String) (a : α) : List (String × α) → List (String × α)
  | [] => [(key, a)]
  | (k, b) :: rest => if k = key then (k, a) :: rest else (k, b) :: put key a rest

/-- The dictionary with a value for a key. -/
def insert (d : Dict α) (key : String) (a : α) : Dict α :=
  ⟨put key a d.entries⟩

/-- The keys in their order. -/
def keys (d : Dict α) : List String :=
  d.entries.map (·.1)

/-- The values in the order of their keys. -/
def values (d : Dict α) : List α :=
  d.entries.map (·.2)

/-- The number of keys. -/
def size (d : Dict α) : Nat :=
  d.entries.length

end Dict

end Shading
