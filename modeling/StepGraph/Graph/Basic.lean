import StepGraph.Workflow.Basic

/-!
# Graphs

What an editor shows of a workflow: a node for each step, and an edge from each dependency to the
step that needs it. The trigger stands beside them.
-/

set_option autoImplicit false

namespace StepGraph

structure Node where
  id : String
  type : String
  position : Position
  label : String
  config : Fields

structure Edge where
  id : String
  source : String
  target : String
  type : String
  deriving DecidableEq

structure Graph where
  nodes : List Node
  edges : List Edge
  trigger : Trigger

/-- The type of an edge that is given none. -/
def defaultEdgeType : String := "default"

/-- The id of the edge between two steps. -/
def edgeId (source target : String) : String :=
  source ++ "->" ++ target

def Edge.between (source target : String) : Edge :=
  ⟨edgeId source target, source, target, defaultEdgeType⟩

def Node.toValue (n : Node) : Value :=
  .record [("id", .str n.id), ("type", .str n.type), ("position", n.position.toValue),
    ("data", .record [("label", .str n.label), ("config", .record n.config)])]

def Edge.toValue (e : Edge) : Value :=
  .record [("id", .str e.id), ("source", .str e.source), ("target", .str e.target),
    ("type", .str e.type)]

end StepGraph
