import StepGraph.Cli.Argument

/-!
# Commands

The commands that the program has, and how arguments name one: options of the program, the name of
a command, and the options of that command around its one file. A file that starts with a dash
stands after `--`.
-/

set_option autoImplicit false

namespace StepGraph.Cli

inductive Command
  /-- Checks a document, which may be attached to an event source. -/
  | validate (file : String) (source : Option String)
  /-- Writes the graph of a document as JSON. -/
  | toGraph (file : String) (source output : Option String)
  /-- Writes the document of a graph in JSON. -/
  | toYaml (file : String) (output : Option String)
  /-- Compares a document with what becomes of it when it is opened and saved. -/
  | roundTrip (file : String)
  deriving DecidableEq

structure Request where
  debug : Bool
  command : Command
  deriving DecidableEq

/-- The file that a command reads. -/
def Command.file : Command → String
  | .validate file _ | .toGraph file _ _ | .toYaml file _ | .roundTrip file => file

/-- What the program answers when it is asked for its version. -/
def versionText : String := "workflow-yaml 0.1.0\n"

/-- The options of the program itself. -/
def programOptions : Known := [
  ("-h", .help), ("--help", .help), ("--debug", .debug), ("--version", .version)]

/-- A command's name, its options, and the command for a file. -/
structure Entry where
  name : String
  options : Known
  build : String → Settings → Command

def helpOptions : Known := [("-h", .help), ("--help", .help)]

def sourceOptions : Known := [("--event-source", .eventSource)]

def outputOptions : Known := [("-o", .output), ("--output", .output)]

def entries : List Entry := [
  ⟨"validate", helpOptions ++ sourceOptions, fun file s => .validate file s.eventSource⟩,
  ⟨"to-graph", helpOptions ++ sourceOptions ++ outputOptions,
    fun file s => .toGraph file s.eventSource s.output⟩,
  ⟨"to-yaml", helpOptions ++ outputOptions, fun file s => .toYaml file s.output⟩,
  ⟨"round-trip", helpOptions, fun file _ => .roundTrip file⟩]

/-- Reads a command's arguments: its file and its settings. A divider belongs to the file next to
it. -/
def readFile (known : Known) :
    Option String → Settings → List Token → Except Stop (Option String × Settings)
  | file, s, [] => .ok (file, s)
  | file, s, .unknown :: rest => readFile known file { s with hasExtra := true } rest
  | file, s, .option found :: rest => do
    let resolved ← found.resolve known
    match resolved.valued with
    | none => readFile known file (← s.apply resolved) rest
    | some (setting, some value) =>
      readFile known file (← (← s.apply resolved).set (some value) setting) rest
    | some (setting, none) =>
      match rest with
      | .plain value :: after =>
        readFile known file (← (← s.apply resolved).set (some value) setting) after
      | _ => .error .misuse
  | none, s, .plain file :: .divider :: rest => readFile known (some file) s rest
  | none, s, .divider :: .plain file :: rest => readFile known (some file) s rest
  | none, s, .plain file :: rest => readFile known (some file) s rest
  | file, s, _ :: rest => readFile known file { s with hasExtra := true } rest

/-- Reads the options of the program, and the number of tokens from the name of the command on. -/
def readProgram (known : Known) : Settings → List Token → Except Stop (Settings × Nat)
  | s, .option found :: rest => do
    readProgram known (← s.apply (← found.resolve known)) rest
  | s, .unknown :: rest => readProgram known { s with hasExtra := true } rest
  | s, .plain name :: rest => .ok (s, (Token.plain name :: rest).length)
  | _, _ => .error .misuse

/-- The command that arguments name. -/
def parse (arguments : List String) : Except Stop Request := do
  let (s, left) ← readProgram programOptions .none (← tokens programOptions arguments)
  match arguments.drop (arguments.length - left) with
  | [] => .error .misuse
  | name :: rest =>
    match entries.find? (·.name == name) with
    | none => .error .misuse
    | some entry =>
      let (file, own) ← readFile entry.options none .none (← tokens entry.options rest)
      match file with
      | some file =>
        if s.hasExtra || own.hasExtra then .error .misuse
        else return ⟨s.debug, entry.build file own⟩
      | none => .error .misuse

end StepGraph.Cli
