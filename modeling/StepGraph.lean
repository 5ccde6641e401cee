import StepGraph.Editor
import StepGraph.Main
import StepGraph.Proofs.Cli.GraphFile
import StepGraph.Proofs.Cli.Kept
import StepGraph.Proofs.Document.Answers
import StepGraph.Proofs.Document.Comparable
import StepGraph.Proofs.Document.Layout
import StepGraph.Proofs.Document.RoundTrip
import StepGraph.Proofs.Document.Write
import StepGraph.Proofs.Editor
import StepGraph.Proofs.Graph.Answers
import StepGraph.Proofs.Graph.Compared
import StepGraph.Proofs.Graph.HalfUp
import StepGraph.Proofs.Graph.Layout
import StepGraph.Proofs.Graph.Permuted
import StepGraph.Proofs.Graph.Redrawn
import StepGraph.Proofs.Graph.RoundTrip
import StepGraph.Proofs.Graph.Saved
import StepGraph.Proofs.Graph.Shown
import StepGraph.Proofs.Legacy.Checked
import StepGraph.Proofs.Legacy.Refused
import StepGraph.Proofs.Value.Changed
import StepGraph.Proofs.Workflow.Blocks
import StepGraph.Proofs.Workflow.Compare
import StepGraph.Proofs.Workflow.Descent
import StepGraph.Proofs.Workflow.Issues
import StepGraph.Proofs.Workflow.Loop
import StepGraph.Proofs.Yaml.Anchors
import StepGraph.Proofs.Yaml.Asked
import StepGraph.Proofs.Yaml.Plain
