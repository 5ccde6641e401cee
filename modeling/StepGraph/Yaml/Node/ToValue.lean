import StepGraph.Yaml.Node.Basic
import StepGraph.Yaml.Scalar

/-!
# From a document to its value

The tag of a node decides how it is read (`Node.reading`): as a scalar, a list or a mapping. A
mapping takes in the entries of the mappings that it merges, before its own; of entries with one
key the last value counts. `Node.toValue` builds the value of a sound document. Whether a document
is sound is asked level by level, the nodes of one level in order before what is inside them
(`Node.checkLevels`), so of two errors the one nearer to the root is reported.
-/

set_option autoImplicit false

namespace StepGraph.Yaml

/-- How a node is read. -/
inductive Reading
  | scalar (read : String → Attempt Error Scalar)
  | list
  | mapping

/-- The tags of values that a workflow document may not hold. -/
def CoreTag.isForbidden : CoreTag → Bool
  | .timestamp | .binary | .set | .omap | .pairs => true
  | _ => false

namespace Node

/-- How the tag asks a node to be read. -/
def reading (n : Node) : Attempt Error Reading :=
  match n.tag with
  | .core .seq => .ok .list
  | .core .map => .ok .mapping
  | .core t =>
    if t.isForbidden then failAt (.forbiddenTag t.uri) n.place
    else
      match scalarReader? t with
      | some read => .ok (.scalar read)
      | none => failAt (.unknownTag t.uri) n.place
  | .other uri => failAt (.unknownTag uri) n.place

mutual

/-- The text that a scalar tag applies to: that of a scalar, or the one that a mapping gives
under the key `=`. -/
def scalarText : Node → Attempt Error String
  | .scalar _ text _ => .ok text
  | .sequence _ _ place => failAt (.expectedForm .scalar .sequence) place
  | .mapping _ entries place => scalarTextAmong place entries

def scalarTextAmong (place : Mark) : List (Node × Node) → Attempt Error String
  | [] => failAt (.expectedForm .scalar .mapping) place
  | (k, v) :: rest => if k.tag = .core .value then scalarText v else scalarTextAmong place rest

end

/-- The key `=` is an ordinary text in a mapping that is read as one. -/
def asKey (k : Node) : Node :=
  if k.tag = .core .value then k.withTag (.core .str) else k

/-! ## Merging -/

mutual

/-- The entries that a mapping takes in, and its own ones. -/
def mergedEntries (place : Mark) :
    List (Node × Node) → Attempt Error (List (Node × Node) × List (Node × Node))
  | [] => .ok ([], [])
  | (k, v) :: rest => do
    if k.tag = .core .merge then
      let source ← mergeSource place v
      let (taken, own) ← mergedEntries place rest
      return (source ++ taken, own)
    else
      let (taken, own) ← mergedEntries place rest
      return (taken, (k.asKey, v) :: own)

/-- The entries of a mapping, or of the mappings in a list, the last mapping's first, so that
earlier mappings win. -/
def mergeSource (place : Mark) : Node → Attempt Error (List (Node × Node))
  | .mapping _ entries own => do
    let (taken, rest) ← mergedEntries own entries
    return taken ++ rest
  | .sequence _ items _ => return (← mergeItems place items).reverse.flatten
  | .scalar _ _ itemPlace => fail .mappingValue place (.notMergeable .scalar) itemPlace

def mergeItems (place : Mark) : List Node → Attempt Error (List (List (Node × Node)))
  | [] => .ok []
  | .mapping _ entries own :: rest => do
    let (taken, others) ← mergedEntries own entries
    return (taken ++ others) :: (← mergeItems place rest)
  | .sequence _ _ itemPlace :: _ =>
    fail .mappingValue place (.notMergeableItem .sequence) itemPlace
  | .scalar _ _ itemPlace :: _ => fail .mappingValue place (.notMergeableItem .scalar) itemPlace

end

/-- All entries of a mapping, those taken in first. -/
def allEntries : Node → Attempt Error (List (Node × Node))
  | .mapping _ entries place => do
    let (taken, own) ← mergedEntries place entries
    return taken ++ own
  | n => failAt (.expectedForm .mapping n.form) n.place

/-! ## Soundness, level by level -/

/-- Checks a node as its surroundings do; a collection is left for the next level. -/
def checkHere (n : Node) : Attempt Error (List Node) := do
  match ← n.reading with
  | .scalar read =>
    let _ ← read (← n.scalarText)
    return []
  | _ => return [n]

/-- Checks items in order; what they leave for the next level. -/
def checkItems : List Node → Attempt Error (List Node)
  | [] => .ok []
  | n :: rest => do
    let left ← n.checkHere
    return left ++ (← checkItems rest)

/-- Checks entries in order, each key before its value. A key must not be a collection. -/
def checkEntries (place : Mark) : List (Node × Node) → Attempt Error (List Node)
  | [] => .ok []
  | (k, v) :: rest => do
    if !(← k.checkHere).isEmpty then fail .mappingValue place .compositeKey k.place
    let left ← v.checkHere
    return left ++ (← checkEntries place rest)

/-- Checks what is directly inside a collection. -/
def checkInside (n : Node) : Attempt Error (List Node) := do
  match ← n.reading with
  | .list =>
    match n with
    | .sequence _ items _ => checkItems items
    | other => failAt (.expectedForm .sequence other.form) other.place
  | .mapping => checkEntries n.place (← n.allEntries)
  | .scalar _ => return []

/-- Checks collections, then the collections inside them, and so on. -/
def checkLevels : Nat → List Node → Attempt Error Unit
  | 0, _ => .ok ()
  | levels + 1, nodes => do
    let inside ← nodes.foldlM (fun left n => do return left ++ (← n.checkInside)) []
    if inside.isEmpty then return () else checkLevels levels inside

def check (n : Node) : Attempt Error Unit := do
  checkLevels n.height (← n.checkHere)

/-! ## Values -/

/-- The value of a key. -/
def keyScalar (k : Node) (place : Mark) : Attempt Error Scalar := do
  match ← k.asKey.reading with
  | .scalar read => read (← k.scalarText)
  | _ => fail .mappingValue place .compositeKey k.place

mutual

def build : Node → Attempt Error Value
  | .scalar tag text place => do
    match ← reading (.scalar tag text place) with
    | .scalar read => return .scalar (← read text)
    | .list => failAt (.expectedForm .sequence .scalar) place
    | .mapping => failAt (.expectedForm .mapping .scalar) place
  | .sequence tag items place => do
    match ← reading (.sequence tag items place) with
    | .scalar _ => failAt (.expectedForm .scalar .sequence) place
    | .list => return .list (← buildItems items)
    | .mapping => failAt (.expectedForm .mapping .sequence) place
  | .mapping tag entries place => do
    match ← reading (.mapping tag entries place) with
    | .scalar read => return .scalar (← read (← scalarTextAmong place entries))
    | .list => failAt (.expectedForm .sequence .mapping) place
    | .mapping =>
      let (taken, own) ← buildEntries place entries
      return .map (Entries.ofPairs (taken ++ own))

def buildItems : List Node → Attempt Error (List Value)
  | [] => .ok []
  | n :: rest => do
    let v ← build n
    return v :: (← buildItems rest)

/-- The pairs that a mapping takes in, and its own ones. -/
def buildEntries (place : Mark) :
    List (Node × Node) → Attempt Error (List (Scalar × Value) × List (Scalar × Value))
  | [] => .ok ([], [])
  | (k, v) :: rest => do
    if k.tag = .core .merge then
      let source ← buildSource place v
      let (taken, own) ← buildEntries place rest
      return (source ++ taken, own)
    else
      let key ← k.keyScalar place
      let value ← build v
      let (taken, own) ← buildEntries place rest
      return (taken, (key, value) :: own)

def buildSource (place : Mark) : Node → Attempt Error (List (Scalar × Value))
  | .mapping _ entries own => do
    let (taken, rest) ← buildEntries own entries
    return taken ++ rest
  | .sequence _ items _ => return (← buildSources place items).reverse.flatten
  | .scalar _ _ itemPlace => fail .mappingValue place (.notMergeable .scalar) itemPlace

def buildSources (place : Mark) : List Node → Attempt Error (List (List (Scalar × Value)))
  | [] => .ok []
  | .mapping _ entries own :: rest => do
    let (taken, others) ← buildEntries own entries
    return (taken ++ others) :: (← buildSources place rest)
  | .sequence _ _ itemPlace :: _ =>
    fail .mappingValue place (.notMergeableItem .sequence) itemPlace
  | .scalar _ _ itemPlace :: _ => fail .mappingValue place (.notMergeableItem .scalar) itemPlace

end

/-- The value of a document. -/
def toValue (n : Node) : Attempt Error Value := do
  n.check
  n.build

end Node

end StepGraph.Yaml
