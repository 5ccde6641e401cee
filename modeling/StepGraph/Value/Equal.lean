import StepGraph.Value.Basic

/-!
# Structural equality of values

`Value.deepEqual` compares lists place by place, mappings by key regardless of order, and numbers
by their exact values whatever their kind. A boolean equals only the same boolean, and not a
number equals nothing. Keys are matched by `Scalar.sameKey`, so there a boolean does match the
number it counts as.
-/

set_option autoImplicit false

namespace StepGraph

def Scalar.equal : Scalar → Scalar → Bool
  | .null, .null => true
  | .bool a, .bool b => a == b
  | .num a, .num b => a.sameValue b
  | .str a, .str b => a == b
  | _, _ => false

/-- Whether every key of `entries` is one of `others`. -/
def Entries.keysWithin (entries others : Entries) : Bool :=
  entries.all fun entry => others.hasKey entry.1

def Entries.sameKeys (entries others : Entries) : Bool :=
  entries.keysWithin others && others.keysWithin entries

namespace Value

mutual

def deepEqual : Value → Value → Bool
  | .scalar a, .scalar b => a.equal b
  | .list items, .list others => deepEqualItems items others
  | .map entries, .map others => Entries.sameKeys entries others && deepEqualEntries entries others
  | _, _ => false

def deepEqualItems : List Value → List Value → Bool
  | [], [] => true
  | a :: items, b :: others => deepEqual a b && deepEqualItems items others
  | _, _ => false

/-- Whether each entry has an equal value under the same key among the others. -/
def deepEqualEntries : List (Scalar × Value) → List (Scalar × Value) → Bool
  | [], _ => true
  | (k, v) :: rest, others =>
    (match Entries.find? k others with
      | some w => deepEqual v w
      | none => false) && deepEqualEntries rest others

end

end Value

end StepGraph
