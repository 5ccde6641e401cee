import StepGraph.Yaml.Token.Basic

/-!
# Events

The structure of a YAML text in reading order: documents, collections, scalars and aliases, each
with the place where it starts. Handles of tags are replaced by what they stand for.
-/

set_option autoImplicit false

namespace StepGraph.Yaml

/-- What a node may carry before its content. A tag of a single exclamation mark is no tag. -/
structure Properties where
  anchor : Option String
  tag : Option String
  deriving DecidableEq, Repr

inductive EventKind
  | streamEnd
  | documentStart
  | documentEnd
  | alias (name : String)
  /-- A scalar; `inferred` if its text decides its type when no tag does. -/
  | scalar (properties : Properties) (inferred : Bool) (text : String)
  | sequenceStart (properties : Properties)
  | sequenceEnd
  | mappingStart (properties : Properties)
  | mappingEnd
  deriving DecidableEq, Repr

structure Event where
  kind : EventKind
  place : Mark
  deriving DecidableEq, Repr

end StepGraph.Yaml
