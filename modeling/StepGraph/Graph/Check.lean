import StepGraph.Graph.Basic
import StepGraph.Graph.Coordinate
import StepGraph.Workflow.Error

/-!
# Reading nodes and edges

An editor hands over nodes and edges as plain values. `Graph.read` fills in defaults, drops fields
it does not know, and lists every place that has the wrong type. A coordinate may be a number, a
truth value or the text of a number (`Coordinate.ofText?`).
-/

set_option autoImplicit false

namespace StepGraph.Graph

/-- What was read, or why not. -/
abbrev Checked (α : Type) := Except (List Issue) α

/-- Both results, or the issues of both. -/
def Checked.both {α β γ : Type} (f : α → β → γ) : Checked α → Checked β → Checked γ
  | .ok a, .ok b => .ok (f a b)
  | .error xs, .ok _ => .error xs
  | .ok _, .error ys => .error ys
  | .error xs, .error ys => .error (xs ++ ys)

/-- All results, or the issues of all. -/
def Checked.all {α β : Type} (check : Path → α → Checked β) (path : Path) (items : List α) :
    Checked (List β) :=
  items.zipIdx.foldr
    (fun item rest => Checked.both List.cons (check (path ++ [.index (item.2 : Nat)]) item.1) rest)
    (.ok [])

/-- The entries of a mapping; anything else is no value of `type`. -/
def record (type : String) (path : Path) : Value → Checked Entries
  | .map entries => .ok entries
  | _ => .error [⟨path, .notRecord type⟩]

/-- A field that must be there. -/
def required {α : Type} (entries : Entries) (name : String) (path : Path)
    (check : Path → Value → Checked α) : Checked α :=
  match entries.get? name with
  | none => .error [⟨path ++ [.name name], .missingField⟩]
  | some v => check (path ++ [.name name]) v

/-- A field with a default. -/
def optional {α : Type} (entries : Entries) (name : String) (default : α) (path : Path)
    (check : Path → Value → Checked α) : Checked α :=
  match entries.get? name with
  | none => .ok default
  | some v => check (path ++ [.name name]) v

def text (path : Path) : Value → Checked String
  | .str s => .ok s
  | _ => .error [⟨path, .notText⟩]

/-- Whether a whole number has a place in a path, which has room for 64 bits. -/
def isIndex (n : Int) : Bool :=
  -0x8000000000000000 ≤ n && n < 0x8000000000000000

/-- A key in a path: a whole number as itself, a truth value as the number it counts as, and any
other key as its text, if it can be written. -/
def keyPart : Scalar → PathPart
  | .bool b => .index (if b then 1 else 0)
  | .int n =>
    if isIndex n then .index n
    else .name (if (Number.int n).isWritable then toString n else "<unprintable int object>")
  | k => .name k.label

/-- Settings under text keys. -/
def settings (path : Path) : Value → Checked Fields
  | .map entries =>
    match entries.filter (!·.1.isString) with
    | [] => .ok (Entries.fields entries)
    | bad =>
      .error (bad.map fun entry => ⟨path ++ [keyPart entry.1, .name "[key]"], .notText⟩)
  | _ => .error [⟨path, .notDictionary⟩]

/-! ## Coordinates -/

def coordinate (path : Path) (v : Value) : Checked Number :=
  let found : Option Number :=
    match v with
    | .num n => some n
    | .bool b => some (.int (if b then 1 else 0))
    | .str s => Coordinate.ofText? s
    | _ => none
  let fromText :=
    match v with
    | .str _ => true
    | _ => false
  match found with
  | some n => .ok n
  | none =>
    .error [⟨path ++ [.name "int"], .notInteger fromText⟩,
      ⟨path ++ [.name "float"], .notNumber fromText⟩]

/-! ## Nodes and edges -/

def position (path : Path) (v : Value) : Checked Position := do
  let entries ← record "Position" path v
  .both Position.mk (required entries "x" path coordinate) (required entries "y" path coordinate)

def data (path : Path) (v : Value) : Checked (String × Fields) := do
  let entries ← record "NodeData" path v
  .both Prod.mk (optional entries "label" "" path text) (optional entries "config" [] path settings)

def node (path : Path) (v : Value) : Checked Node := do
  let entries ← record "GraphNode" path v
  let names := Checked.both Prod.mk (required entries "id" path text)
    (optional entries "type" "" path text)
  let rest := Checked.both Prod.mk
    (optional entries "position" ⟨.zero, .zero⟩ path position)
    (optional entries "data" ("", []) path data)
  .both (fun n r => ⟨n.1, n.2, r.1, r.2.1, r.2.2⟩) names rest

def edge (path : Path) (v : Value) : Checked Edge := do
  let entries ← record "GraphEdge" path v
  let ends := Checked.both Prod.mk (required entries "source" path text)
    (required entries "target" path text)
  let front := Checked.both Prod.mk (optional entries "id" "" path text) ends
  .both (fun f type => ⟨f.1, f.2.1, f.2.2, type⟩) front
    (optional entries "type" defaultEdgeType path text)

/-- What a value has to walk through: items, keys or characters. -/
def itemsOf : Value → Result (List Value)
  | .list items => .ok items
  | .map entries => .ok (entries.map fun entry => .scalar entry.1)
  | .str s => .ok (s.toList.map fun c => .str (String.singleton c))
  | _ => breakOff .noItems

/-- Nodes and edges, or the issues of both. -/
def read (nodes edges : Value) : Result (List Node × List Edge) := do
  let nodeItems ← itemsOf nodes
  let edgeItems ← itemsOf edges
  let checked := Checked.both Prod.mk (Checked.all node [.name "nodes"] nodeItems)
    (Checked.all edge [.name "edges"] edgeItems)
  match checked with
  | .ok graph => return graph
  | .error issues => report (.invalid .graph issues)

end StepGraph.Graph
