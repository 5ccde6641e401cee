import StepGraph.Cli.Run

/-!
# The effects of a run

`run` tells how a run ends. Here the run itself is told: `Command.perform` reads, prints and writes
in turn, on a `World` that keeps what was done when a later step fails, and a file that is opened
for writing is empty until it is filled. `Request.execute` adds what the program prints when a command
breaks off.
-/

set_option autoImplicit false

namespace StepGraph.Cli

/-- What a run can change. -/
structure World where
  folder : Folder
  out : String
  err : String

/-- Why a command breaks off. -/
inductive Escape
  | file (path : String) (problem : FileProblem)
  | notText
  | refused (e : Error)
  | fault (f : Fault)

/-- A step of a run. What it has done stays done when it fails. -/
abbrev Deed (α : Type) := ExceptT Escape (StateM World) α

namespace Deed

/-- The result of a step, and the world after it. -/
def on {α : Type} (d : Deed α) (w : World) : Except Escape α × World :=
  (ExceptT.run d).run w

def printOut (text : String) : Deed Unit :=
  modify fun w => { w with out := w.out ++ text }

def printErr (text : String) : Deed Unit :=
  modify fun w => { w with err := w.err ++ text }

def confirm (message : String) : Deed Unit :=
  printOut ("✓ " ++ message ++ "\n")

def complain (message : String) : Deed Unit :=
  printErr ("✗ " ++ message ++ "\n")

def readText (path : String) : Deed (List Char) := do
  match (← get).folder.read path with
  | .error problem => throw (.file path problem)
  | .ok octets =>
    match Text.Utf8.decode octets with
    | .error _ => throw .notText
    | .ok text => return Text.unifyLineEnds text

def setContent (path : String) (octets : List Nat) : Deed Unit := do
  let w ← get
  match w.folder.write path octets with
  | .error problem => throw (.file path problem)
  | .ok (after, _) => set { w with folder := after }

/-- Opens a file, which empties it, and fills it. -/
def writeFile (path text : String) : Deed Unit := do
  setContent path []
  setContent path (octetsOf text)

/-- Writes a text to the output file, if one is named, or prints it with a line break at its end. -/
def writeOutput (text : String) : Option String → Deed Unit
  | none | some "" => do
    printOut text
    unless text.toList.getLast? = some '\n' do printOut "\n"
  | some path => writeFile path text

def attempt {α : Type} : Result α → Deed α
  | .ok a => return a
  | .error (.error e) => throw (.refused e)
  | .error (.fault f) => throw (.fault f)

/-- Prints a line for each difference, as far as they can be written. -/
def printLines (differences : List Difference) : Deed Unit :=
  differences.forM fun d => do printOut (← attempt (describeLine d))

end Deed

open Deed in
/-- What a command does with the text of its file, in order, and its exit status. -/
def Command.act (env : Config.Environment) (text : List Char) : Command → Deed Nat
  | .validate file source => do
    match ← attempt (Document.refusal? text ⟨source, none⟩) with
    | none =>
      confirm (file ++ " is valid")
      return 0
    | some e =>
      complain (file ++ ": " ++ e.message)
      return 1
  | .toGraph _ source output => do
    let opened ← attempt (Document.toGraph text ⟨source, none⟩)
    writeOutput (← attempt (Json.write (graphValue opened))) output
    return 0
  | .toYaml file output => do
    match Json.read text with
    | .error (.fault f) => throw (.fault f)
    | .error (.error e) =>
      complain ("Invalid JSON in " ++ file ++ ": " ++ e.message text)
      return 1
    | .ok (.map fields) =>
      let config ← attempt (Config.ofEnvironment env)
      writeOutput (← attempt ((graphOfFields fields).save config)) output
      return 0
    | .ok _ =>
      complain (file ++ ": expected a JSON object with nodes, edges and trigger")
      return 1
  | .roundTrip file => do
    let config ← attempt (Config.ofEnvironment env)
    let report ← attempt (Document.roundTrip config (String.ofList text))
    printLines report.differences
    if report.isFaithful then
      confirm (file ++ " round-trips without loss")
      return 0
    else
      complain (file ++ " lost information in the round trip")
      return 1

def Command.perform (env : Config.Environment) (command : Command) : Deed Nat := do
  command.act env (← Deed.readText command.file)

/-- What is printed about a command that broke off. -/
def Escape.message? (file : String) : Escape → Except Fault String
  | .file path problem => .ok (problem.message (PathName.shown path))
  | .notText => .ok (file ++ " is not valid UTF-8 text")
  | .refused e => .ok e.message
  | .fault f => .error f

/-- The exit status of a run, or the fault that escapes from it, and the world after it. -/
def Request.execute (env : Config.Environment) (request : Request) (w : World) :
    Except Fault Nat × World :=
  match (request.command.perform env).on w with
  | (.ok exit, after) => (.ok exit, after)
  | (.error escape, after) =>
    match escape.message? request.command.file with
    | .ok message => (.ok 1, ((Deed.complain message).on after).2)
    | .error f => (.error f, after)

end StepGraph.Cli
