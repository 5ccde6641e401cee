import StepGraph.Fault
import StepGraph.Order.Repeats
import StepGraph.Order.Sorted
import StepGraph.Value.Equal
import StepGraph.Value.Text
import StepGraph.Workflow.Basic

/-!
# Comparing workflows

`Workflow.differences` lists how an actual workflow departs from the expected one. A difference in
version, trigger, metadata, steps or dependencies is an error; a moved position and a changed order
of steps are warnings. `Workflow.compare` breaks off where it cannot be told whether a position has
moved, because a coordinate is a whole number beyond the doubles and the other one is a double.
-/

set_option autoImplicit false

namespace StepGraph

inductive DifferenceKind
  | version
  | trigger
  | metadata
  | stepMissing
  | stepAdded
  | name
  | stepType
  | config
  | dependency
  | position
  | order
  deriving DecidableEq, Repr

namespace DifferenceKind

def word : DifferenceKind → String
  | .version => "version_mismatch"
  | .trigger => "trigger_mismatch"
  | .metadata => "metadata_mismatch"
  | .stepMissing => "step_missing"
  | .stepAdded => "step_added"
  | .name => "name_mismatch"
  | .stepType => "step_type_mismatch"
  | .config => "config_mismatch"
  | .dependency => "dependency_mismatch"
  | .position => "position_drift"
  | .order => "order_changed"

/-- Whether a difference of this kind changes what the workflow means. -/
def isError : DifferenceKind → Bool
  | .position | .order => false
  | _ => true

end DifferenceKind

structure Difference where
  kind : DifferenceKind
  path : String
  expected : Value
  actual : Value

namespace Difference

def severity (d : Difference) : String :=
  if d.kind.isError then "error" else "warning"

/-- A line about the difference, numbers of any length written out. -/
def describe (d : Difference) : String :=
  d.path ++ ": " ++ d.kind.word ++ " (expected " ++ d.expected.spelled ++ ", got "
    ++ d.actual.spelled ++ ")"

/-- The same line, if the values can be written. -/
def shown {ε : Type} (d : Difference) : Attempt ε String := do
  d.expected.assertWritable
  d.actual.assertWritable
  return d.describe

end Difference

/-- A difference, if there is one. -/
def differenceIf (differs : Bool) (kind : DifferenceKind) (path : String)
    (expected actual : Value) : List Difference :=
  if differs then [⟨kind, path, expected, actual⟩] else []

/-- The distinct ids in the order of their characters. -/
def sortedIds (ids : List String) : List String :=
  Order.sortBy (fun a b => decide (a < b)) (Order.distinct ids)

/-- Whether a coordinate has moved by more than the tolerance. -/
def hasMoved (tolerance expected actual : Number) : Bool :=
  tolerance.lt (expected.distance actual)

def Position.hasMoved (tolerance : Number) (expected actual : Position) : Bool :=
  StepGraph.hasMoved tolerance expected.x actual.x
    || StepGraph.hasMoved tolerance expected.y actual.y

/-- Whether it can be told if a position has moved. If the first coordinate has, the second one does
not matter. -/
def Position.isComparable (tolerance : Number) (expected actual : Position) : Bool :=
  expected.x.hasDistance actual.x
    && (StepGraph.hasMoved tolerance expected.x actual.x || expected.y.hasDistance actual.y)

def optionalPosition (p : Option Position) : Value :=
  (p.map Position.toValue).getD .null

/-- Only a stored position can be missed. -/
def positionDifferences (tolerance : Number) (path : String) (expected actual : Option Position) :
    List Difference :=
  match expected with
  | none => []
  | some p =>
    let moved :=
      match actual with
      | none => true
      | some q => p.hasMoved tolerance q
    differenceIf moved .position path p.toValue (optionalPosition actual)

namespace Step

def path (s : Step) : String :=
  "steps." ++ s.id

def dependencyIds (s : Step) : List String :=
  s.dependsOn.getD []

def differences (tolerance : Number) (expected actual : Step) : List Difference :=
  let path := expected.path
  let needed := sortedIds expected.dependencyIds
  let found := sortedIds actual.dependencyIds
  differenceIf (expected.name != actual.name) .name (path ++ ".name")
      (.str expected.name) (.str actual.name)
    ++ differenceIf (expected.type != actual.type) .stepType (path ++ ".type")
      (.str expected.type) (.str actual.type)
    ++ differenceIf (!(Value.record expected.config).deepEqual (.record actual.config)) .config
      (path ++ ".config") (.record expected.config) (.record actual.config)
    ++ differenceIf (needed != found) .dependency (path ++ ".depends_on")
      (.texts needed) (.texts found)
    ++ positionDifferences tolerance (path ++ ".position") expected.position actual.position

/-- The last step with an id, which stands for all of them. -/
def lastWithId (steps : List Step) (id : String) : Option Step :=
  steps.reverse.find? (·.id == id)

end Step

namespace Workflow

/-- Metadata that is not there counts as empty. -/
def metadataValue (w : Workflow) : Value :=
  (w.metadata.map Metadata.toValue).getD (.map [])

def stepDifferences (tolerance : Number) (actual : Workflow) (s : Step) : List Difference :=
  match Step.lastWithId actual.steps s.id with
  | some other => s.differences tolerance other
  | none => [⟨.stepMissing, s.path, .str s.id, .null⟩]

def differences (tolerance : Number) (expected actual : Workflow) : List Difference :=
  let expectedIds := expected.stepIds
  let actualIds := actual.stepIds
  let expectedOrder := expectedIds.filter actualIds.contains
  let actualOrder := actualIds.filter expectedIds.contains
  let added := actual.steps.filter fun s => !expectedIds.contains s.id
  differenceIf (expected.version != actual.version) .version "version"
      (.str expected.version) (.str actual.version)
    ++ differenceIf (!expected.trigger.toValue.deepEqual actual.trigger.toValue) .trigger "trigger"
      expected.trigger.toValue actual.trigger.toValue
    ++ differenceIf (!expected.metadataValue.deepEqual actual.metadataValue) .metadata "metadata"
      expected.metadataValue actual.metadataValue
    ++ expected.steps.flatMap (stepDifferences tolerance actual)
    ++ added.map (fun s => ⟨.stepAdded, s.path, .null, .str s.id⟩)
    ++ differenceIf (expectedOrder != actualOrder) .order "steps"
      (.texts expectedOrder) (.texts actualOrder)

/-- Whether the position of a step can be compared with that of the step that stands for it. -/
def positionComparable (tolerance : Number) (actual : Workflow) (s : Step) : Bool :=
  match s.position, (Step.lastWithId actual.steps s.id).bind Step.position with
  | some p, some q => p.isComparable tolerance q
  | _, _ => true

/-- The differences, unless some position cannot be compared. -/
def compare {ε : Type} (tolerance : Number) (expected actual : Workflow) :
    Attempt ε (List Difference) :=
  if expected.steps.all (positionComparable tolerance actual) then
    .ok (differences tolerance expected actual)
  else breakOff .tooLarge

end Workflow

/-- Whether some difference changes what the workflow means. -/
def hasErrors (differences : List Difference) : Bool :=
  differences.any (·.kind.isError)

end StepGraph
