import StepGraph.Value.Basic

/-!
# Workflows

A `Workflow` is a trigger and an ordered list of steps that may depend on each other. Settings
(`Fields`) are kept as they were given, under text keys. `Workflow.toValue` is the form in which
a workflow is stored: fields in a fixed order, optional ones only where they are set.
-/

set_option autoImplicit false

namespace StepGraph

/-- Settings under text keys, in the order in which they were given. -/
abbrev Fields := List (String × Value)

/-- The entries with a text key. -/
def Entries.fields (entries : Entries) : Fields :=
  entries.filterMap fun entry =>
    match entry.1 with
    | .str name => some (name, entry.2)
    | _ => none

structure Position where
  x : Number
  y : Number
  deriving DecidableEq

inductive TriggerKind
  | schedule
  | webhook
  | form
  | table
  deriving DecidableEq, Repr

namespace TriggerKind

def all : List TriggerKind :=
  [.schedule, .webhook, .form, .table]

def word : TriggerKind → String
  | .schedule => "schedule"
  | .webhook => "webhook"
  | .form => "form"
  | .table => "table"

def ofWord? (word : String) : Option TriggerKind :=
  all.find? fun kind => kind.word == word

end TriggerKind

/-- What starts a workflow. -/
structure Trigger where
  kind : TriggerKind
  config : Fields

structure Step where
  id : String
  name : String
  type : String
  config : Fields
  /-- The steps that must come before this one. -/
  dependsOn : Option (List String)
  position : Option Position

structure Metadata where
  description : Option String
  tags : Option (List String)
  deriving DecidableEq

structure Workflow where
  version : String
  trigger : Trigger
  steps : List Step
  metadata : Option Metadata

namespace Value

def texts (items : List String) : Value :=
  .list (items.map Value.str)

/-- A field that is written only when it is set. -/
def optionalField {α : Type} (name : String) (write : α → Value) :
    Option α → List (String × Value)
  | some x => [(name, write x)]
  | none => []

end Value

open Value

def Position.toValue (p : Position) : Value :=
  .record [("x", .num p.x), ("y", .num p.y)]

def Trigger.toValue (t : Trigger) : Value :=
  .record [("type", .str t.kind.word), ("config", .record t.config)]

def Step.toValue (s : Step) : Value :=
  .record ([("id", .str s.id), ("name", .str s.name), ("type", .str s.type),
      ("config", .record s.config)]
    ++ optionalField "depends_on" texts s.dependsOn
    ++ optionalField "position" Position.toValue s.position)

def Metadata.toValue (m : Metadata) : Value :=
  .record (optionalField "description" Value.str m.description ++ optionalField "tags" texts m.tags)

namespace Workflow

def toValue (w : Workflow) : Value :=
  .record ([("version", .str w.version), ("trigger", w.trigger.toValue),
      ("steps", .list (w.steps.map Step.toValue))]
    ++ optionalField "metadata" Metadata.toValue w.metadata)

/-- The first step with this id. -/
def step? (w : Workflow) (id : String) : Option Step :=
  w.steps.find? (·.id == id)

def stepIds (w : Workflow) : List String :=
  w.steps.map Step.id

end Workflow

end StepGraph
