import StepGraph.Num.Number

/-!
# Document values

A `Value` is what a workflow document is made of before it has been checked: scalars, lists, and
mappings from scalars that keep the order of their keys. Two scalars are one key when they are
equal as numbers, a boolean counting as zero or one (`Scalar.sameKey`); `Entries.insert` keeps the
first key and its place and takes the last value.
-/

set_option autoImplicit false

namespace StepGraph

inductive Scalar
  | null
  | bool (b : Bool)
  | num (n : Number)
  | str (s : String)
  deriving DecidableEq, Inhabited

namespace Scalar

@[match_pattern] abbrev int (n : Int) : Scalar := .num (.int n)

@[match_pattern] abbrev float (d : Double) : Scalar := .num (.float d)

/-- The form in which equal keys coincide. -/
def asKey : Scalar → Scalar
  | .bool b => .int (if b then 1 else 0)
  | .num n => .num n.normal
  | s => s

def sameKey (a b : Scalar) : Bool :=
  a.asKey == b.asKey

def isString : Scalar → Bool
  | .str _ => true
  | _ => false

end Scalar

inductive Value
  | scalar (s : Scalar)
  | list (items : List Value)
  | map (entries : List (Scalar × Value))
  deriving Inhabited

/-- The entries of a mapping, in the order in which the keys first came. -/
abbrev Entries := List (Scalar × Value)

namespace Entries

/-- The value of the first entry with this key. -/
def find? (key : Scalar) : Entries → Option Value
  | [] => none
  | (k, v) :: rest => if k.sameKey key then some v else find? key rest

/-- The value under a text key. -/
def get? (entries : Entries) (name : String) : Option Value :=
  find? (.str name) entries

def hasKey (entries : Entries) (key : Scalar) : Bool :=
  (find? key entries).isSome

/-- Replaces the value of an entry that has the key already, or adds an entry at the end. -/
def insert (key : Scalar) (value : Value) : Entries → Entries
  | [] => [(key, value)]
  | (k, v) :: rest =>
    if k.sameKey key then (k, value) :: rest else (k, v) :: insert key value rest

def erase (key : Scalar) (entries : Entries) : Entries :=
  entries.filter fun entry => !entry.1.sameKey key

/-- The entries that a sequence of pairs leaves when it is inserted one by one. -/
def ofPairs (pairs : List (Scalar × Value)) : Entries :=
  pairs.foldl (fun entries pair => insert pair.1 pair.2 entries) []

def keys (entries : Entries) : List Scalar :=
  entries.map Prod.fst

end Entries

namespace Value

@[match_pattern] abbrev null : Value := .scalar .null

@[match_pattern] abbrev bool (b : Bool) : Value := .scalar (.bool b)

@[match_pattern] abbrev num (n : Number) : Value := .scalar (.num n)

@[match_pattern] abbrev int (n : Int) : Value := .scalar (.num (.int n))

@[match_pattern] abbrev float (d : Double) : Value := .scalar (.num (.float d))

@[match_pattern] abbrev str (s : String) : Value := .scalar (.str s)

/-- A mapping with text keys. -/
def record (fields : List (String × Value)) : Value :=
  .map (fields.map fun field => (.str field.1, field.2))

/-- The value of a field that is present and not null. -/
def field? (entries : Entries) (name : String) : Option Value :=
  match entries.get? name with
  | some .null => none
  | found => found

/-- Whether a value counts as given: null, false, zero and everything empty do not. -/
def isGiven : Value → Bool
  | .null => false
  | .bool b => b
  | .num n => !n.isZero
  | .str s => s != ""
  | .list items => !items.isEmpty
  | .map entries => !entries.isEmpty

/-- The word for a value's type in messages. -/
def typeName : Value → String
  | .null => "null"
  | .bool _ => "boolean"
  | .num _ => "number"
  | .str _ => "string"
  | .list _ => "array"
  | .map _ => "object"

mutual

/-- How many collections are nested in each other at the deepest place. -/
def depth : Value → Nat
  | .scalar _ => 0
  | .list items => depthItems items + 1
  | .map entries => depthEntries entries + 1

def depthItems : List Value → Nat
  | [] => 0
  | v :: rest => max v.depth (depthItems rest)

def depthEntries : List (Scalar × Value) → Nat
  | [] => 0
  | (_, v) :: rest => max v.depth (depthEntries rest)

end

end Value

end StepGraph
