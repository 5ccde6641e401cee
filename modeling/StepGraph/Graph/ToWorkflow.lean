import StepGraph.Config
import StepGraph.Graph.Check
import StepGraph.Workflow.Dependency
import StepGraph.Workflow.Validate

/-!
# From a graph to a workflow

`Graph.toWorkflow` turns what an editor hands over into a workflow: nodes and edges are read, each
node becomes a step that depends on the sources of its edges, the steps are put into dependency
order, and the result is checked against the format. Positions are rounded to whole numbers if
the configuration says so, a half upwards.
-/

set_option autoImplicit false

namespace StepGraph

/-- What an editor hands over, unchecked. -/
structure RawGraph where
  nodes : Value
  edges : Value
  trigger : Value
  metadata : Value
  version : Value

namespace Graph

/-! ## Positions -/

/-- The whole number below the rounded sum of a number and a half. -/
def roundHalfUp (n : Number) : Int :=
  match (n.toDouble.add (Double.ofRatio false 1 2)).toRat? with
  | some q => q.floor
  | none => 0

/-- Whether a number is finite as a double. -/
def isFinite : Number → Result Bool
  | .int n => if (Double.ofInt n).isFinite then .ok true else breakOff .tooLarge
  | .float d => .ok d.isFinite

/-- The position to be stored. One that is not finite is left for the check of the format. -/
def storedPosition (round : Bool) (p : Position) : Result Position := do
  if !round then return p
  if !(← isFinite p.x) then return p
  if !(← isFinite p.y) then return p
  return ⟨.int (roundHalfUp p.x), .int (roundHalfUp p.y)⟩

/-! ## Dependencies -/

/-- Adds a source to those of a target, unless it is there. -/
def addSource (source target : String) :
    List (String × List String) → List (String × List String)
  | [] => [(target, [source])]
  | (id, sources) :: rest =>
    if id == target then
      (id, if sources.contains source then sources else sources ++ [source]) :: rest
    else (id, sources) :: addSource source target rest

/-- For each target the distinct sources of its edges, in order. Edges that lack an end do not
count. -/
def sourceMap (edges : List Edge) : List (String × List String) :=
  edges.foldl
    (fun found edge =>
      if edge.source = "" ∨ edge.target = "" then found
      else addSource edge.source edge.target found)
    []

/-! ## Steps -/

def stepOfNode (config : Config) (sources : Option (List String)) (n : Node) : Result Step := do
  let position ← storedPosition config.roundPositions n.position
  return {
    id := n.id
    name := if n.label = "" then n.id else n.label
    type := n.type
    config := n.config
    dependsOn := sources.filter (!·.isEmpty)
    position := some position }

def stepsOfNodes (config : Config) (found : List (String × List String)) :
    List Node → Result (List Step)
  | [] => .ok []
  | n :: rest => do
    let step ← stepOfNode config (found.lookup n.id) n
    return step :: (← stepsOfNodes config found rest)

/-- The raw form of the workflow, before the check of the format. -/
def rawWorkflow (config : Config) (raw : RawGraph) (steps : List Step) : Value :=
  let version := if raw.version.isGiven then raw.version else .str config.defaultVersion
  .record ([("version", version), ("trigger", raw.trigger),
      ("steps", .list (steps.map Step.toValue))]
    ++ match raw.metadata with
      | .null => []
      | metadata => [("metadata", metadata)])

def toWorkflow (config : Config) (raw : RawGraph) : Result Workflow := do
  let (nodes, edges) ← read raw.nodes raw.edges
  let steps ← stepsOfNodes config (sourceMap edges) nodes
  Step.assertDistinctIds steps
  let ordered ← Step.orderByDependencies steps
  Workflow.ofValue (rawWorkflow config raw ordered)

end Graph

end StepGraph
