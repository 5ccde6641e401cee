import StepGraph.Graph.Layout
import StepGraph.Order.Repeats

/-!
# From a workflow to a graph

Steps become nodes in their stored order, and each distinct dependency an edge. A step without a
position is placed by a layout.
-/

set_option autoImplicit false

namespace StepGraph

def Step.toNode (layout : Layout.Kind) (index total : Nat) (s : Step) : Node where
  id := s.id
  type := s.type
  position := s.position.getD (Layout.place layout index total)
  label := s.name
  config := s.config

/-- One edge for each distinct dependency, in the order of the first mentions. -/
def Step.edges (s : Step) : List Edge :=
  (Order.distinct (s.dependsOn.getD [])).map fun id => .between id s.id

def Workflow.toGraph (w : Workflow) (layout : Layout.Kind) : Graph where
  nodes := w.steps.zipIdx.map fun step => step.1.toNode layout step.2 w.steps.length
  edges := w.steps.flatMap Step.edges
  trigger := w.trigger

end StepGraph
