import StepGraph.Document.RoundTrip

/-!
# Editor

An `Editor` holds the nodes and edges on the canvas as plain values, with the trigger, metadata and
version that belong to them and the text that was saved last. `Editor.perform` is one action and its
answer; an action that fails leaves the editor as it was, which is what `Editor.run` relies on.
-/

set_option autoImplicit false

namespace StepGraph

structure Editor where
  nodes : List Value
  edges : List Value
  trigger : Value
  metadata : Value
  version : Value
  /-- The text that was saved last. -/
  saved : String

namespace Editor

inductive Action
  | load (text : String) (source : Legacy.Source)
  | reload
  | save
  | check
  /-- Adds a node before the one at an index, counted from the end if negative. -/
  | addNode (node : Value) (index : Option Int)
  | removeNode (id : String)
  | moveNode (id : String) (position : Value)
  | addEdge (source target : String)
  | removeEdge (source target : String)
  | setTrigger (value : Value)
  | setMetadata (value : Value)
  | setVersion (value : Value)

inductive Answer
  | graph (g : Graph)
  | text (s : String)
  | report (r : Report)
  | counts (nodes edges : Nat)

/-- An empty canvas. -/
def empty : Editor where
  nodes := []
  edges := []
  trigger := .record [("type", .str TriggerKind.form.word), ("config", .map [])]
  metadata := .null
  version := .null
  saved := ""

/-- What the editor hands over. -/
def toRaw (e : Editor) : RawGraph :=
  ⟨.list e.nodes, .list e.edges, e.trigger, e.metadata, e.version⟩

/-- Whether a field of a value holds this text. -/
def hasField (name text : String) (v : Value) : Bool :=
  match v with
  | .map entries =>
    match Entries.get? entries name with
    | some (.str s) => s == text
    | _ => false
  | _ => false

def isEdge (source target : String) (v : Value) : Bool :=
  hasField "source" source v && hasField "target" target v

/-- Inserts before the item at an index. One beyond an end counts as that end. -/
def insertAt (index : Int) (v : Value) (items : List Value) : List Value :=
  let index := if index < 0 then index + items.length else index
  let before := items.take index.toNat
  before ++ v :: items.drop index.toNat

/-- The value with another position. -/
def move (position : Value) : Value → Value
  | .map entries => .map (Entries.insert (.str "position") position entries)
  | v => v

def openDocument (e : Editor) (text : String) (source : Legacy.Source) :
    Result (Answer × Editor) := do
  let opened ← Document.toGraph text.toList source
  let raw := opened.toRaw
  return (.graph opened.graph, { e with
    nodes := opened.graph.nodes.map Node.toValue
    edges := opened.graph.edges.map Edge.toValue
    trigger := raw.trigger
    metadata := raw.metadata
    version := raw.version })

/-- The editor after a change, which answers with the numbers of nodes and edges. -/
def changed (e : Editor) : Answer × Editor :=
  (.counts e.nodes.length e.edges.length, e)

/-- One action: the answer and the editor after it. -/
def perform (env : Config.Environment) (e : Editor) : Action → Result (Answer × Editor)
  | .load text source => e.openDocument text source
  | .reload => e.openDocument e.saved .none
  | .save => do
    let text ← e.toRaw.save (← Config.ofEnvironment env)
    return (.text text, { e with saved := text })
  | .check => do
    return (.report (← e.toRaw.roundTrip (← Config.ofEnvironment env)), e)
  | .addNode node index =>
    .ok (changed { e with nodes := insertAt (index.getD e.nodes.length) node e.nodes })
  | .removeNode id =>
    .ok (changed { e with nodes := e.nodes.filter (!hasField "id" id ·) })
  | .moveNode id position =>
    .ok (changed { e with
      nodes := e.nodes.map fun v => if hasField "id" id v then move position v else v })
  | .addEdge source target =>
    .ok (changed { e with
      edges := e.edges ++ [.record [("source", .str source), ("target", .str target)]] })
  | .removeEdge source target =>
    .ok (changed { e with edges := e.edges.filter (!isEdge source target ·) })
  | .setTrigger v => .ok (changed { e with trigger := v })
  | .setMetadata v => .ok (changed { e with metadata := v })
  | .setVersion v => .ok (changed { e with version := v })

/-- The answers to a sequence of actions. -/
def run (env : Config.Environment) : Editor → List Action → List (Result Answer)
  | _, [] => []
  | e, action :: rest =>
    match e.perform env action with
    | .ok (answer, next) => .ok answer :: run env next rest
    | .error failure => .error failure :: run env e rest

end Editor

end StepGraph
