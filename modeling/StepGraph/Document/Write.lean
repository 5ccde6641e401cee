import StepGraph.Config
import StepGraph.Workflow.Validate
import StepGraph.Yaml.Write

/-!
# Writing documents

A workflow is written only if its stored form passes the check of the format once more. Fields are
written in their fixed order, and those that are not set are left out.
-/

set_option autoImplicit false

namespace StepGraph.Document

/-- The layout that a configuration asks for. -/
def layout (config : Config) : Yaml.Options :=
  .standard config.indent config.width

/-- The workflow that a value stands for, if it may be written. -/
def recheck (raw : Value) : Result Workflow := do
  let issues ← Workflow.issuesOf raw
  if issues.isEmpty then return Schema.read raw else report (.invalidForWriting issues)

/-- Writes the workflow that a value stands for. -/
def writeValue (options : Yaml.Options) (raw : Value) : Result String := do
  Yaml.write options (← recheck raw).toValue

def write (config : Config) (w : Workflow) : Result String :=
  writeValue (layout config) w.toValue

end StepGraph.Document
