import StepGraph.Workflow.Issue

/-!
# The format of a stored workflow

`Schema.issues` lists every place of a value that breaks a rule of the format, in the order of the
document and without stopping at the first one. A value without issues is read as a workflow by
`Schema.read`. Two kinds of whole numbers are beyond the checks (`Schema.faults`): one that is too
large to be tested as a double where a coordinate must be finite, and one that is too long to be
written where a message has to show it.
-/

set_option autoImplicit false

namespace StepGraph.Schema

open Value

/-! ## Rules -/

/-- An ASCII letter or digit, an underscore or a hyphen. -/
def isIdChar (c : Char) : Bool :=
  c.isAlphanum || c == '_' || c == '-'

def isStepId (id : String) : Bool :=
  id != "" && id.toList.all isIdChar

def checkSettings (path : Path) : Value → List Issue
  | .map entries =>
    (entries.filter (!·.1.isString)).map fun entry =>
      ⟨path ++ [.name entry.1.label], .keyNotText⟩
  | v => [.mistyped path "object" v]

/-- A field that must be there. -/
def checkRequired (entries : Entries) (name : String) (path : Path)
    (check : Path → Value → List Issue) : List Issue :=
  match entries.get? name with
  | none => [⟨path ++ [.name name], .required⟩]
  | some v => check (path ++ [.name name]) v

/-- A field that may be missing or null. -/
def checkOptional (entries : Entries) (name : String) (path : Path)
    (check : Path → Value → List Issue) : List Issue :=
  match field? entries name with
  | none => []
  | some v => check (path ++ [.name name]) v

def checkText (path : Path) : Value → List Issue
  | .str _ => []
  | v => [.mistyped path "string" v]

/-- A text that `what` names in messages and that must not be empty. -/
def checkNonempty (what : String) (path : Path) : Value → List Issue
  | .str s => if s = "" then [⟨path, .emptyText what⟩] else []
  | v => [.mistyped path "string" v]

def checkId (path : Path) (v : Value) : List Issue :=
  checkNonempty "Step ID" path v
    ++ match v with
      | .str s => if s = "" ∨ isStepId s then [] else [⟨path, .malformedStepId⟩]
      | _ => []

/-- A list, its items checked one by one. -/
def checkList (check : Path → Value → List Issue) (path : Path) : Value → List Issue
  | .list items =>
    items.zipIdx.flatMap fun item => check (path ++ [.index (item.2 : Nat)]) item.1
  | v => [.mistyped path "array" v]

def checkTriggerKind (path : Path) (v : Value) : List Issue :=
  let known :=
    match v with
    | .str s => (TriggerKind.ofWord? s).isSome
    | _ => false
  if known then [] else [⟨path, .unknownTrigger v.spelled⟩]

def checkTrigger (path : Path) : Value → List Issue
  | .map entries =>
    checkRequired entries "type" path checkTriggerKind
      ++ checkRequired entries "config" path checkSettings
  | v => [.mistyped path "object" v]

def checkCoordinate (path : Path) : Value → List Issue
  | .int _ => []
  | .float d => if d.isFinite then [] else [⟨path, .notFinite⟩]
  | v => [.mistyped path "number" v]

def checkPosition (path : Path) : Value → List Issue
  | .map entries =>
    checkRequired entries "x" path checkCoordinate ++ checkRequired entries "y" path checkCoordinate
  | v => [.mistyped path "object" v]

def checkStep (path : Path) : Value → List Issue
  | .map entries =>
    checkRequired entries "id" path checkId
      ++ checkRequired entries "name" path (checkNonempty "Step name")
      ++ checkRequired entries "type" path (checkNonempty "Step type")
      ++ checkRequired entries "config" path checkSettings
      ++ checkOptional entries "depends_on" path (checkList (checkNonempty "Dependency ID"))
      ++ checkOptional entries "position" path checkPosition
  | v => [.mistyped path "object" v]

def checkMetadata (path : Path) : Value → List Issue
  | .map entries =>
    checkOptional entries "description" path checkText
      ++ checkOptional entries "tags" path (checkList checkText)
  | v => [.mistyped path "object" v]

/-- Every place that breaks a rule, in the order of the document. -/
def issues : Value → List Issue
  | .map entries =>
    checkRequired entries "version" [] checkText
      ++ checkRequired entries "trigger" [] checkTrigger
      ++ checkRequired entries "steps" [] (checkList checkStep)
      ++ checkOptional entries "metadata" [] checkMetadata
  | v => [.mistyped [] "object" v]

/-! ## Fields of unchecked values -/

def entriesOf : Value → Entries
  | .map entries => entries
  | _ => []

def itemsOf : Value → List Value
  | .list items => items
  | _ => []

/-- The value of a field, null if there is none. -/
def get (v : Value) (name : String) : Value :=
  ((entriesOf v).get? name).getD .null

/-! ## Numbers beyond the checks -/

/-- A message that shows this value has to write its numbers. -/
def textFaults (v : Value) : List Fault :=
  if v.isWritable then [] else [.notANumber]

/-- A coordinate is tested as a double. -/
def coordinateFaults : Value → List Fault
  | .num n => if n.isHuge then [.tooLarge] else []
  | _ => []

/-- The path of an issue shows a key that is no text. -/
def settingsFaults (v : Value) : List Fault :=
  ((entriesOf v).filter (!·.1.isString)).flatMap fun entry => textFaults (.scalar entry.1)

def triggerFaults (v : Value) : List Fault :=
  textFaults (get v "type") ++ settingsFaults (get v "config")

def positionFaults (v : Value) : List Fault :=
  coordinateFaults (get v "x") ++ coordinateFaults (get v "y")

def stepFaults (v : Value) : List Fault :=
  settingsFaults (get v "config") ++ positionFaults (get v "position")

/-- What the checks cannot deal with, in the order in which they come to it. -/
def faults (raw : Value) : List Fault :=
  triggerFaults (get raw "trigger") ++ (itemsOf (get raw "steps")).flatMap stepFaults

/-! ## Reading a sound value -/

def textOf : Value → String
  | .str s => s
  | _ => ""

def numberOf : Value → Number
  | .num n => n
  | _ => .zero

def readFields (v : Value) : Fields :=
  (entriesOf v).fields

def readTexts (v : Value) : List String :=
  (itemsOf v).map textOf

def readPosition (v : Value) : Position :=
  ⟨numberOf (get v "x"), numberOf (get v "y")⟩

def readTrigger (v : Value) : Trigger :=
  ⟨(TriggerKind.ofWord? (textOf (get v "type"))).getD .webhook, readFields (get v "config")⟩

def readStep (v : Value) : Step where
  id := textOf (get v "id")
  name := textOf (get v "name")
  type := textOf (get v "type")
  config := readFields (get v "config")
  dependsOn := (field? (entriesOf v) "depends_on").map readTexts
  position := (field? (entriesOf v) "position").map readPosition

def readMetadata (v : Value) : Metadata where
  description := (field? (entriesOf v) "description").map textOf
  tags := (field? (entriesOf v) "tags").map readTexts

/-- The workflow that a value without issues stands for. -/
def read (v : Value) : Workflow where
  version := textOf (get v "version")
  trigger := readTrigger (get v "trigger")
  steps := (itemsOf (get v "steps")).map readStep
  metadata := (field? (entriesOf v) "metadata").map readMetadata

end StepGraph.Schema
