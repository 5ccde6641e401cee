import StepGraph.Workflow.Issue
import StepGraph.Yaml.Error

/-!
# Errors of the program

Everything that loading, checking, converting and saving a workflow can report. `Error.kind` is
the word by which a caller tells the errors apart, `Error.message` the text for the author.
-/

set_option autoImplicit false

namespace StepGraph

/-- What was checked when issues came up. -/
inductive Subject
  | workflow
  | legacy
  | graph
  deriving DecidableEq

/-- Why a sound workflow could not be written. -/
inductive WriteProblem
  | tooDeep
  | unsupportedVersion (major minor : Int)
  | emptyHandle
  | openHandle (handle : String)
  | handleCharacter (c : Char) (handle : String)
  | emptyLeading
  deriving DecidableEq

inductive Error
  | malformed (text : List Char) (cause : Yaml.Error)
  | invalid (subject : Subject) (issues : List Issue)
  | invalidForWriting (issues : List Issue)
  | duplicateIds (ids : List String)
  | unknownDependency (step dependency : String)
  | cycle (path : List String)
  | unwritable (problem : WriteProblem)
  deriving DecidableEq

/-- A result of the program. -/
abbrev Result (α : Type) := Attempt Error α

def Subject.heading : Subject → String
  | .workflow => "Workflow validation error"
  | .legacy => "Legacy workflow validation error"
  | .graph => "Graph validation error"

def WriteProblem.message : WriteProblem → String
  | .tooDeep => "value refers to itself or is nested too deeply"
  | .unsupportedVersion major minor =>
    "unsupported YAML version: " ++ toString major ++ "." ++ toString minor
  | .emptyHandle => "tag handle must not be empty"
  | .openHandle handle => "tag handle must start and end with '!': " ++ Text.quoted handle
  | .handleCharacter c handle =>
    "invalid character " ++ Text.quoted (String.singleton c) ++ " in the tag handle: "
      ++ Text.quoted handle
  | .emptyLeading => "tag prefix must not be empty"

namespace Error

def kind : Error → String
  | .malformed .. => "yaml_syntax"
  | .invalid .. => "schema_validation"
  | .invalidForWriting _ => "serialization_validation"
  | .duplicateIds _ => "duplicate_step_id"
  | .unknownDependency .. => "unknown_dependency"
  | .cycle _ => "circular_dependency"
  | .unwritable _ => "yaml_serialization"

private def listed (heading : String) (issues : List Issue) : String :=
  heading ++ ": " ++ "; ".intercalate (issues.map Issue.describe)

def message : Error → String
  | .malformed text cause => "YAML syntax error: " ++ cause.message text
  | .invalid subject issues => listed subject.heading issues
  | .invalidForWriting issues => listed "IR validation error before serialization" issues
  | .duplicateIds ids =>
    "Duplicate step IDs found: " ++ ", ".intercalate ids ++ ". Each step must have a unique ID."
  | .unknownDependency step dependency =>
    "Step \"" ++ step ++ "\" depends on non-existent step \"" ++ dependency
      ++ "\". Please ensure all dependencies reference valid step IDs."
  | .cycle path =>
    "Circular dependency detected: " ++ " -> ".intercalate path
      ++ ". Steps in a workflow cannot depend on each other in a cycle. "
      ++ "Please review the 'depends_on' configuration for these steps."
  | .unwritable problem => "YAML serialization error: " ++ problem.message

end Error

end StepGraph
