import StepGraph.Cli.Command
import StepGraph.Cli.Folder
import StepGraph.Document.RoundTrip
import StepGraph.Json.Read
import StepGraph.Json.Write
import StepGraph.Text.Utf8

/-!
# Running a command

`Command.respond` is what a command answers to the content of its file: what it prints, the file it
asks to be written, and its exit status, zero for success. `run` is a whole run of the program in a
folder. A message about a failure starts with a cross, one about a success with a tick.
-/

set_option autoImplicit false

namespace StepGraph.Cli

structure Outcome where
  exit : Nat
  out : String
  err : String
  /-- A file to be written: its path and its text. -/
  output : Option (String × String)
  deriving DecidableEq

namespace Outcome

def printed (text : String) : Outcome := ⟨0, text, "", none⟩

def success (message : String) : Outcome := printed ("✓ " ++ message ++ "\n")

/-- A failure after something was printed. -/
def failureAfter (out message : String) : Outcome := ⟨1, out, "✗ " ++ message ++ "\n", none⟩

def failure (message : String) : Outcome := failureAfter "" message

/-- A text for the output file, if one is named, or to be printed, then with a line break at its
end. -/
def ofText (text : String) (output : Option String) : Outcome :=
  match output with
  | none | some "" => printed (if text.toList.getLast? = some '\n' then text else text ++ "\n")
  | some path => ⟨0, "", "", some (path, text)⟩

end Outcome

/-- The graph of a document as one value. -/
def graphValue (o : Opened) : Value :=
  .record ([("nodes", .list (o.graph.nodes.map Node.toValue)),
      ("edges", .list (o.graph.edges.map Edge.toValue)),
      ("trigger", o.graph.trigger.toValue)]
    ++ Value.optionalField "metadata" Metadata.toValue o.workflow.metadata)

/-- The graph in the fields of an object. Nodes and edges are empty if they are not there. -/
def graphOfFields (fields : Entries) : RawGraph where
  nodes := (fields.get? "nodes").getD (.list [])
  edges := (fields.get? "edges").getD (.list [])
  trigger := (fields.get? "trigger").getD .null
  metadata := (fields.get? "metadata").getD .null
  version := (fields.get? "version").getD .null

def runValidate (file : String) (source : Option String) (text : List Char) : Result Outcome := do
  match ← Document.refusal? text ⟨source, none⟩ with
  | none => return .success (file ++ " is valid")
  | some e => return .failure (file ++ ": " ++ e.message)

def runToGraph (source output : Option String) (text : List Char) : Result Outcome := do
  let opened ← Document.toGraph text ⟨source, none⟩
  return .ofText (← Json.write (graphValue opened)) output

def runToYaml (env : Config.Environment) (file : String) (output : Option String)
    (text : List Char) : Result Outcome :=
  match Json.read text with
  | .error (.fault f) => breakOff f
  | .error (.error e) => .ok (.failure ("Invalid JSON in " ++ file ++ ": " ++ e.message text))
  | .ok (.map fields) => do
    let config ← Config.ofEnvironment env
    return .ofText (← (graphOfFields fields).save config) output
  | .ok _ => .ok (.failure (file ++ ": expected a JSON object with nodes, edges and trigger"))

def describeLine (d : Difference) : Result String := do
  return "  [" ++ d.severity ++ "] " ++ (← d.shown) ++ "\n"

def runRoundTrip (env : Config.Environment) (file : String) (text : List Char) :
    Result Outcome := do
  let config ← Config.ofEnvironment env
  let report ← Document.roundTrip config (String.ofList text)
  let lines := String.join (← report.differences.mapM describeLine)
  if report.isFaithful then
    return .printed (lines ++ "✓ " ++ file ++ " round-trips without loss\n")
  else return .failureAfter lines (file ++ " lost information in the round trip")

def Command.answer (env : Config.Environment) (text : List Char) : Command → Result Outcome
  | .validate file source => runValidate file source text
  | .toGraph _ source output => runToGraph source output text
  | .toYaml file output => runToYaml env file output text
  | .roundTrip file => runRoundTrip env file text

/-- The outcome of a command, given the octets of its file or why they could not be read. -/
def Command.respond (env : Config.Environment) (command : Command)
    (input : Except FileProblem (List Nat)) : Except Fault Outcome :=
  match input with
  | .error problem => .ok (.failure (problem.message (PathName.shown command.file)))
  | .ok octets =>
    match Text.Utf8.decode octets with
    | .error _ => .ok (.failure (command.file ++ " is not valid UTF-8 text"))
    | .ok text =>
      match command.answer env (Text.unifyLineEnds text) with
      | .ok outcome => .ok outcome
      | .error (.error e) => .ok (.failure e.message)
      | .error (.fault f) => .error f

/-- The octets of a text. -/
def octetsOf (text : String) : List Nat :=
  text.toUTF8.toList.map UInt8.toNat

/-- How a run of the program ends. -/
inductive Ending
  /-- Before any command. -/
  | stopped (reason : Stop)
  | broken (fault : Fault)
  /-- With the outcome of a command, the folder after it, and the file written. -/
  | finished (request : Request) (outcome : Outcome) (folder : Folder) (written : Option String)

/-- A run of the program in a folder. -/
def run (folder : Folder) (env : Config.Environment) (arguments : List String) : Ending :=
  match parse arguments with
  | .error reason => .stopped reason
  | .ok request =>
    match request.command.respond env (folder.read request.command.file) with
    | .error fault => .broken fault
    | .ok outcome =>
      match outcome.output with
      | none => .finished request outcome folder none
      | some (path, text) =>
        match folder.write path (octetsOf text) with
        | .ok (after, name) => .finished request outcome after (some name)
        | .error problem =>
          .finished request (.failure (problem.message (PathName.shown path))) folder none

end StepGraph.Cli
