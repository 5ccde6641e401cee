import StepGraph.Document.Read
import StepGraph.Document.Write
import StepGraph.Graph.OfWorkflow
import StepGraph.Graph.ToWorkflow
import StepGraph.Workflow.Compare

/-!
# Between documents and graphs

`Document.toGraph` reads a document into a graph and `RawGraph.save` writes a graph as a document. A
round trip does both and compares what comes back with what was there: `Document.roundTrip` starts
with a document, `RawGraph.roundTrip` with a graph. What counts is the workflow, not the text.
-/

set_option autoImplicit false

namespace StepGraph

/-- What an editor shows of a workflow, as it hands it over again. -/
def Graph.toRaw (g : Graph) (metadata : Option Metadata) (version : String) : RawGraph where
  nodes := .list (g.nodes.map Node.toValue)
  edges := .list (g.edges.map Edge.toValue)
  trigger := g.trigger.toValue
  metadata := (metadata.map Metadata.toValue).getD .null
  version := .str version

/-- Writes a graph as a document. -/
def RawGraph.save (config : Config) (raw : RawGraph) : Result String := do
  Document.write config (← Graph.toWorkflow config raw)

/-- A document opened in an editor. -/
structure Opened where
  graph : Graph
  workflow : Workflow
  wasLegacy : Bool

/-- The graph as the editor hands it over when nothing was changed. -/
def Opened.toRaw (o : Opened) : RawGraph :=
  o.graph.toRaw o.workflow.metadata o.workflow.version

/-- What a round trip showed. -/
structure Report where
  /-- The document at the start, empty if there was none. -/
  given : String
  converted : String
  differences : List Difference

/-- Whether the meaning was kept. -/
def Report.isFaithful (r : Report) : Bool :=
  !hasErrors r.differences

namespace Document

/-- Opens a document in an editor. Steps keep their order. -/
def toGraph (text : List Char) (source : Legacy.Source) : Result Opened := do
  let reading ← readChecked text source
  return ⟨reading.workflow.toGraph .vertical, reading.workflow, reading.wasLegacy⟩

/-- How the workflow in a text departs from the expected one. -/
def compare (config : Config) (expected : Workflow) (converted : String) :
    Result (List Difference) := do
  let reading ← read converted.toList .none
  expected.compare config.tolerance reading.workflow

/-- Opens a document, saves it unchanged and compares. -/
def roundTrip (config : Config) (text : String) : Result Report := do
  let opened ← toGraph text.toList .none
  let converted ← opened.toRaw.save config
  return ⟨text, converted, ← compare config opened.workflow converted⟩

end Document

/-- The graph alone, without metadata and version. -/
def RawGraph.bare (raw : RawGraph) : RawGraph :=
  { raw with metadata := .null, version := .null }

/-- Saves a bare graph, reads it again and compares. -/
def RawGraph.roundTrip (config : Config) (raw : RawGraph) : Result Report := do
  let workflow ← Graph.toWorkflow config raw.bare
  let converted ← Document.write config workflow
  return ⟨"", converted, ← Document.compare config workflow converted⟩

end StepGraph
