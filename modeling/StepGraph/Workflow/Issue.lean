import StepGraph.Value.Text
import StepGraph.Workflow.Basic

/-!
# Issues

An `Issue` is one place of a document that breaks a rule of its format: the path from the root to
the place, and the rule.
-/

set_option autoImplicit false

namespace StepGraph

inductive PathPart
  | name (s : String)
  | index (i : Int)
  deriving DecidableEq

abbrev Path := List PathPart

def PathPart.text : PathPart → String
  | .name s => s
  | .index i => toString i

/-- What is wrong at a place. -/
inductive Breach
  | required
  | expected (type : String) (found : String)
  | keyNotText
  | unknownTrigger (found : String)
  | emptyText (what : String)
  | malformedStepId
  | notFinite
  /-- In a graph: a field that is missing, or a value of another type. -/
  | missingField
  | notRecord (type : String)
  | notDictionary
  | notText
  | notInteger (fromText : Bool)
  | notNumber (fromText : Bool)
  deriving DecidableEq

def Breach.message : Breach → String
  | .required => "Required"
  | .expected type found => "Expected " ++ type ++ ", received " ++ found
  | .keyNotText => "Keys must be strings"
  | .unknownTrigger found =>
    "Invalid enum value. Expected "
      ++ " | ".intercalate (TriggerKind.all.map fun kind => "'" ++ kind.word ++ "'")
      ++ ", received " ++ found
  | .emptyText what => what ++ " cannot be empty"
  | .malformedStepId =>
    "Step ID must contain only alphanumeric characters, underscores, and hyphens"
  | .notFinite => "Number must be finite"
  | .missingField => "Field required"
  | .notRecord type => "Input should be a valid dictionary or instance of " ++ type
  | .notDictionary => "Input should be a valid dictionary"
  | .notText => "Input should be a valid string"
  | .notInteger fromText =>
    "Input should be a valid integer"
      ++ if fromText then ", unable to parse string as an integer" else ""
  | .notNumber fromText =>
    "Input should be a valid number"
      ++ if fromText then ", unable to parse string as a number" else ""

structure Issue where
  path : Path
  breach : Breach
  deriving DecidableEq

namespace Issue

/-- The parts of the path between dots. -/
def dotted (issue : Issue) : String :=
  if issue.path.isEmpty then "<root>" else ".".intercalate (issue.path.map PathPart.text)

def message (issue : Issue) : String :=
  issue.breach.message

def describe (issue : Issue) : String :=
  issue.dotted ++ ": " ++ issue.message

/-- A value of another type than the expected one. -/
def mistyped (path : Path) (type : String) (found : Value) : Issue :=
  ⟨path, .expected type found.typeName⟩

end Issue

end StepGraph
