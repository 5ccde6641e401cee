import StepGraph.Order.Repeats
import StepGraph.Order.Walk
import StepGraph.Workflow.Error

/-!
# Dependencies between steps

The checks on step ids and dependencies, and the order of steps by them: ids are distinct, every
dependency names a step, and no step depends on itself through others. `Step.order` works on any
list of steps; where an id repeats, the first step with it stands for all.
-/

set_option autoImplicit false

namespace StepGraph.Step

/-- For each id of a step with dependencies, in the order in which the ids first come, the
dependencies of the last such step. -/
def dependencyMap (steps : List Step) : List (String × List String) :=
  steps.foldl
    (fun found step =>
      match step.dependsOn with
      | none | some [] => found
      | some ids =>
        if found.any (·.1 == step.id) then
          found.map fun entry => if entry.1 == step.id then (step.id, ids) else entry
        else found ++ [(step.id, ids)])
    []

/-- The entry of an id in a map, empty if there is none. -/
def dependenciesIn (found : List (String × List String)) (id : String) : List String :=
  (found.lookup id).getD []

def assertDistinctIds (steps : List Step) : Result Unit :=
  match Order.repeats (steps.map Step.id) with
  | [] => .ok ()
  | ids => report (.duplicateIds ids)

def obstacleError : Order.Obstacle String → Error
  | .unknown step dependency => .unknownDependency step dependency
  | .cycle path => .cycle path

/-- The first step of each id, in dependency order. -/
def order (steps : List Step) (dependencies : String → List String) : Result (List Step) :=
  match Order.sort (steps.map Step.id) dependencies with
  | .ok ids => .ok (ids.filterMap fun id => steps.find? (·.id == id))
  | .error obstacle => report (obstacleError obstacle)

/-- The steps in the order of their own dependencies. -/
def orderByDependencies (steps : List Step) : Result (List Step) :=
  order steps (dependenciesIn (dependencyMap steps))

/-- Checks ids and dependencies; the order of the steps is left alone. -/
def assertDependencies (steps : List Step) : Result Unit := do
  assertDistinctIds steps
  let _ ← orderByDependencies steps

end StepGraph.Step
