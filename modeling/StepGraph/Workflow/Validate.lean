import StepGraph.Workflow.Error
import StepGraph.Workflow.Schema

/-!
# Reading a stored workflow

`Workflow.ofValue` reads a value as a workflow or reports every issue of its format.
-/

set_option autoImplicit false

namespace StepGraph.Workflow

/-- The issues of a value, unless the checks break off at a number before they are done. -/
def issuesOf (raw : Value) : Result (List Issue) :=
  match Schema.faults raw with
  | [] => .ok (Schema.issues raw)
  | fault :: _ => breakOff fault

def ofValue (raw : Value) : Result Workflow := do
  let issues ← issuesOf raw
  if issues.isEmpty then return Schema.read raw else report (.invalid .workflow issues)

end StepGraph.Workflow
