import StepGraph.Num.Numeral
import StepGraph.Num.Number
import StepGraph.Workflow.Error

/-!
# Configuration

The settings of conversion, writing and comparison. `Config.ofEnvironment` reads them from named
texts; a text that is no number where one is needed has no answer.
-/

set_option autoImplicit false

namespace StepGraph

structure Config where
  /-- The version of a workflow whose graph carries none. -/
  defaultVersion : String
  indent : Int
  width : Int
  /-- Whether positions are rounded to whole numbers when a graph is saved. -/
  roundPositions : Bool
  /-- How far a position may move before a comparison mentions it. -/
  tolerance : Number
  deriving DecidableEq

namespace Config

def one : Double := .ofInt 1

def standard : Config :=
  ⟨"1.0", 2, 120, true, .float one⟩

/-- A named text, if the environment has it. -/
abbrev Environment := List (String × String)

private def intSetting (text : Option String) (default : Int) : Result Int :=
  match text with
  | none => .ok default
  | some t =>
    match Numeral.readInt 10 t.toList with
    | some n => .ok n
    | none => breakOff .notANumber

private def floatSetting (text : Option String) (default : Number) : Result Number :=
  match text with
  | none => .ok default
  | some t =>
    match Numeral.readFloat t.toList with
    | some d => .ok (.float d)
    | none => breakOff .notANumber

def ofEnvironment (env : Environment) : Result Config := do
  let indent ← intSetting (env.lookup "WORKFLOW_YAML_INDENT") standard.indent
  let width ← intSetting (env.lookup "WORKFLOW_YAML_LINE_WIDTH") standard.width
  let tolerance ←
    floatSetting (env.lookup "WORKFLOW_YAML_POSITION_TOLERANCE") standard.tolerance
  let round := (env.lookup "WORKFLOW_YAML_ROUND_POSITIONS").getD "true"
  return {
    defaultVersion := (env.lookup "WORKFLOW_YAML_DEFAULT_VERSION").getD standard.defaultVersion
    indent := indent
    width := width
    roundPositions := Text.lowerAscii round.toList == "true".toList
    tolerance := tolerance }

end Config

end StepGraph
