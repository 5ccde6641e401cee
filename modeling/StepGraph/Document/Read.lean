import StepGraph.Text.Blank
import StepGraph.Workflow.Dependency
import StepGraph.Workflow.Legacy
import StepGraph.Workflow.Validate
import StepGraph.Yaml.Read

/-!
# Reading documents

A document is a YAML text that holds a workflow, in the current format or in the legacy one.
`Document.read` loads the text, converts a legacy workflow and checks the format; the order of
these decides which error is reported when there are several. `Document.readChecked` checks the
dependencies between the steps as well.
-/

set_option autoImplicit false

namespace StepGraph.Document

open Legacy (Source)

/-- A workflow read from a document. -/
structure Reading where
  workflow : Workflow
  /-- Whether the document was in the legacy format. -/
  wasLegacy : Bool

/-- The value in a document. -/
def load (text : List Char) : Result Value :=
  (Yaml.read text).widen (.malformed text)

def read (text : List Char) (source : Source) : Result Reading := do
  let raw ← load text
  let (adapted, wasLegacy) ← Legacy.adapt raw source
  return ⟨← Workflow.ofValue adapted, wasLegacy⟩

/-- The workflow of a document whose steps depend on each other soundly. -/
def readChecked (text : List Char) (source : Source) : Result Reading := do
  let reading ← read text source
  Step.assertDependencies reading.workflow.steps
  return reading

/-- The text in the octets of a file. -/
def textOfOctets (octets : List Nat) : Result (List Char) :=
  match Text.Utf8.decode octets with
  | .ok text => .ok (Text.unifyLineEnds text)
  | .error _ => breakOff .notUtf8

/-- Reads the octets of a file. -/
def readOctets (octets : List Nat) (source : Source) : Result Reading := do
  read (← textOfOctets octets) source

/-! ## Questions about a document -/

/-- Whether a document holds a workflow. Dependencies are not checked. -/
def isValid (text : List Char) : Result Bool :=
  (read text .none).succeeded

/-- Whether a document is in the legacy format. One that cannot be loaded is not. -/
def isLegacy (text : List Char) : Result Bool :=
  match load text with
  | .ok raw => .ok (Legacy.isLegacy raw)
  | .error (.error _) => .ok false
  | .error (.fault f) => breakOff f

/-- The error that a document is refused with, if it is. -/
def refusal? (text : List Char) (source : Source) : Result (Option Error) :=
  match readChecked text source with
  | .ok _ => .ok none
  | .error (.error e) => .ok (some e)
  | .error (.fault f) => breakOff f

end StepGraph.Document
