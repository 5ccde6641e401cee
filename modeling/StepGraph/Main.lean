import StepGraph.Cli.Run

/-!
# The program

Reads the arguments, the environment and the file of a command, and prints or writes what the
command answers.
-/

set_option autoImplicit false

namespace StepGraph.Cli

/-- The variables of the environment that are read. -/
def variableNames : List String := [
  "WORKFLOW_YAML_DEFAULT_VERSION", "WORKFLOW_YAML_INDENT", "WORKFLOW_YAML_LINE_WIDTH",
  "WORKFLOW_YAML_ROUND_POSITIONS", "WORKFLOW_YAML_POSITION_TOLERANCE"]

def environment : IO Config.Environment := do
  let found ← variableNames.mapM fun name => return (← IO.getEnv name).map (name, ·)
  return found.filterMap id

def usage : String :=
  "usage: workflow-yaml [-h] [--debug] [--version] COMMAND FILE [OPTIONS]\n\n"
    ++ "  validate FILE [--event-source SOURCE]\n"
    ++ "  to-graph FILE [--event-source SOURCE] [-o OUTPUT]\n"
    ++ "  to-yaml FILE [-o OUTPUT]\n"
    ++ "  round-trip FILE\n"

def problemOf : IO.Error → FileProblem
  | .noFileOrDirectory .. => .missing
  | e => .other (toString e)

def readFileOctets (path : String) : IO (Except FileProblem (List Nat)) := do
  try
    let octets ← IO.FS.readBinFile path
    return .ok (octets.toList.map UInt8.toNat)
  catch e => return .error (problemOf e)

def writeFileText (path text : String) : IO (Except FileProblem Unit) := do
  try
    IO.FS.writeFile path text
    return .ok ()
  catch e => return .error (problemOf e)

def printOutcome (o : Outcome) : IO UInt32 := do
  (← IO.getStdout).putStr o.out
  (← IO.getStderr).putStr o.err
  return o.exit.toUInt32

/-- Writes the output file, if there is one, and prints the rest. -/
def conclude (o : Outcome) : IO UInt32 := do
  match o.output with
  | none => printOutcome o
  | some (path, text) =>
    match ← writeFileText path text with
    | .ok _ => printOutcome o
    | .error problem => printOutcome (.failure (problem.message (PathName.shown path)))

def perform (request : Request) : IO UInt32 := do
  let input ← readFileOctets request.command.file
  match request.command.respond (← environment) input with
  | .ok outcome => conclude outcome
  | .error _ =>
    (← IO.getStderr).putStr "internal error\n"
    return 1

end StepGraph.Cli

open StepGraph.Cli in
def main (arguments : List String) : IO UInt32 := do
  match parse arguments with
  | .ok request => perform request
  | .error .help =>
    (← IO.getStdout).putStr usage
    return 0
  | .error .version =>
    (← IO.getStdout).putStr versionText
    return 0
  | .error .misuse =>
    (← IO.getStderr).putStr usage
    return 2
