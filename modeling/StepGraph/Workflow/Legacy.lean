import StepGraph.Workflow.Error
import StepGraph.Workflow.Schema

/-!
# The legacy format

Older documents group blocks into named stages, and blocks hold the blocks that follow them under
`blocks`, `then` and `else`. `Legacy.convert` turns such a document into the raw form of a
workflow: blocks become steps in the order of their execution, a block before the blocks inside
it; a block inside another depends on it, and the first step of a stage on the last step of the
stage with steps before it. A legacy document has no trigger, which follows from the event source
it is attached to.
-/

set_option autoImplicit false

namespace StepGraph.Legacy

open Value

/-! ## Which format -/

def isLegacy : Value → Bool
  | .map entries =>
    match Entries.get? entries "stages" with
    | some (.list _) => true
    | _ => false
  | _ => false

def isCurrent : Value → Bool
  | .map entries => (Entries.get? entries "trigger").isSome && (Entries.get? entries "steps").isSome
  | _ => false

/-! ## Names -/

/-- The event source a legacy document is attached to, and its parameters. -/
structure Source where
  type : Option String
  params : Option Value

def Source.none : Source := ⟨.none, .none⟩

def triggerKind (sourceType : Option String) : TriggerKind :=
  match sourceType with
  | some "ACTIVE_TABLE" => .table
  | some "OPTIN_FORM" => .form
  | some "SCHEDULE" => .schedule
  | _ => .webhook

/-- Block types that have another name as step types. -/
def renamedTypes : List (String × String) := [("table", "table_operation")]

/-- Per block type, inputs that have another name as settings. -/
def renamedInputs : List (String × List (String × String)) := [
  ("api_call", [("request_type", "requestType"), ("response_format", "responseFormat")]),
  ("loop", [("array", "items"), ("iterator", "itemVariable")])]

def stepType : Value → Value
  | .str s => .str ((renamedTypes.lookup s).getD s)
  | v => v

/-- Moves the value of a key to another key. -/
def rename (old new : String) (entries : Entries) : Entries :=
  match entries.get? old with
  | some v => Entries.insert (.str new) v (entries.erase (.str old))
  | none => entries

def renamesFor : Value → Result (List (String × String))
  | .str s => .ok ((renamedInputs.lookup s).getD [])
  | .scalar _ => .ok []
  | _ => breakOff .compositeKey

/-- The settings of a step from the input of a block. An input that is no mapping is left for the
check of the format. -/
def settings (type : Value) : Value → Result Value
  | .map entries => do
    let renames ← renamesFor type
    return .map (renames.foldl (fun entries pair => rename pair.1 pair.2 entries) entries)
  | v => .ok v

/-- A text with underscores for the characters that no id holds. -/
def sanitized (text : String) : String :=
  String.ofList (text.toList.map fun c => if Schema.isIdChar c then c else '_')

/-- What the ids of a stage's steps start with. -/
def idStem (stageName : Value) : Result String := do
  stageName.assertWritable
  return sanitized stageName.label

/-! ## Steps -/

/-- A step as it comes out of a block, before any check. -/
structure Draft where
  id : String
  name : Value
  type : Value
  config : Value
  dependsOn : Option (List String)

def Draft.toValue (d : Draft) : Value :=
  .record ([("id", .str d.id), ("name", d.name), ("type", d.type), ("config", d.config)]
    ++ optionalField "depends_on" texts d.dependsOn)

/-- The value of a field, null if it is missing. -/
def fieldOf (entries : Entries) (name : String) : Value :=
  (entries.get? name).getD .null

/-- The value, or another one if it is not given. -/
def orElse (v other : Value) : Value :=
  if v.isGiven then v else other

def draft (block : Entries) (id : String) (number : Nat) (parent : Option String) :
    Result Draft := do
  let type := fieldOf block "type"
  let config ← settings type (orElse (fieldOf block "input") (.map []))
  let name := orElse (fieldOf block "name") (.str ("step_" ++ toString number))
  return ⟨id, name, stepType type, config, parent.map ([·])⟩

/-- A block to be visited: its value, the id of the block around it, and its path. -/
structure Pending where
  block : Value
  parent : Option String
  path : Path

def pendingItems (items : List Value) (parent : Option String) (path : Path) : List Pending :=
  items.zipIdx.map fun item => ⟨item.1, parent, path ++ [.index (item.2 : Nat)]⟩

def childKeys : List String := ["blocks", "then", "else"]

/-- What stands under one key for blocks inside a block: the blocks, or an issue. -/
def childrenUnder (block : Entries) (id : String) (path : Path) (key : String) :
    List Pending × List Issue :=
  match field? block key with
  | none => ([], [])
  | some (.list items) => (pendingItems items (some id) (path ++ [.name key]), [])
  | some v => ([], [.mistyped (path ++ [.name key]) "array" v])

/-- The blocks inside a block in their order, and issues of the keys. -/
def children (block : Entries) (id : String) (path : Path) : List Pending × List Issue :=
  let found := childKeys.map (childrenUnder block id path)
  (found.flatMap Prod.fst, found.flatMap Prod.snd)

def stepId (stem : String) (number : Nat) : String :=
  stem ++ "_" ++ toString number

/-- Visits the pending blocks of a stage, the blocks inside a block right after it; `number` steps
have been numbered. -/
def visitBlocks (stem : String) : Nat → Nat → List Pending → Result (List Draft × List Issue)
  | 0, _, _ => .ok ([], [])
  | _, _, [] => .ok ([], [])
  | steps + 1, number, ⟨.map block, parent, path⟩ :: rest => do
    let id := stepId stem (number + 1)
    let first ← draft block id (number + 1) parent
    let (inside, found) := children block id path
    let (drafts, issues) ← visitBlocks stem steps (number + 1) (inside ++ rest)
    return (first :: drafts, found ++ issues)
  | steps + 1, number, ⟨block, _, path⟩ :: rest => do
    let (drafts, issues) ← visitBlocks stem steps number rest
    return (drafts, .mistyped path "object" block :: issues)

mutual

/-- The number of values in a value, itself included. -/
def size : Value → Nat
  | .scalar _ => 1
  | .list items => sizeItems items + 1
  | .map entries => sizeEntries entries + 1

def sizeItems : List Value → Nat
  | [] => 0
  | v :: rest => size v + sizeItems rest

def sizeEntries : List (Scalar × Value) → Nat
  | [] => 0
  | (_, v) :: rest => size v + sizeEntries rest

end

/-- The steps of a stage and the issues of its blocks. -/
def stageSteps (stem : String) (blocks : List Value) (path : Path) :
    Result (List Draft × List Issue) :=
  visitBlocks stem (sizeItems blocks + 1) 0 (pendingItems blocks none path)

/-! ## Stages -/

/-- Makes the first of some steps depend on an earlier step. -/
def chain (previous : Option String) : List Draft → List Draft
  | [] => []
  | first :: rest =>
    match previous with
    | none => first :: rest
    | some id =>
      let ids := first.dependsOn.getD []
      { first with dependsOn := some (if ids.contains id then ids else ids ++ [id]) } :: rest

/-- The steps and issues of one stage, given its index. -/
def stage (index : Nat) : Value → Result (List Draft × List Issue)
  | .null => .ok ([], [])
  | .map entries =>
    let path : Path := [.name "stages", .index (index : Nat), .name "blocks"]
    match orElse (fieldOf entries "blocks") (.list []) with
    | .list blocks => do
      let unnamed := Value.str ("stage_" ++ toString (index + 1))
      let stem ← idStem (orElse (fieldOf entries "name") unnamed)
      stageSteps stem blocks path
    | v => .ok ([], [.mistyped path "array" v])
  | v => .ok ([], [.mistyped [.name "stages", .index (index : Nat)] "object" v])

/-- All stages from `index` on, after a step `previous`. -/
def stages (index : Nat) (previous : Option String) : List Value → Result (List Draft × List Issue)
  | [] => .ok ([], [])
  | v :: rest => do
    let (drafts, issues) ← stage index v
    let last := (drafts.getLast?.map Draft.id).or previous
    let (others, otherIssues) ← stages (index + 1) last rest
    return (chain previous drafts ++ others, issues ++ otherIssues)

/-- The step of a document without any. -/
def placeholder : Draft where
  id := "placeholder_1"
  name := .str "placeholder"
  type := .str "log"
  config := .record [("message", .str "Empty workflow - add steps"), ("level", .str "info")]
  dependsOn := none

/-- The raw form of the workflow that a list of stages stands for. -/
def convert (stageList : List Value) (source : Source) : Result Value := do
  let (drafts, issues) ← stages 0 none stageList
  if issues.isEmpty then
    let drafts := if drafts.isEmpty then [placeholder] else drafts
    let params := orElse (source.params.getD .null) (.map [])
    return .record [
      ("version", .str "1.0"),
      ("trigger", .record [("type", .str (triggerKind source.type).word), ("config", params)]),
      ("steps", .list (drafts.map Draft.toValue))]
  else report (.invalid .legacy issues)

/-- The raw form of a workflow, and whether it was converted. A value of neither format is left for
the check of the format, and one of both is taken as a current one. -/
def adapt (raw : Value) (source : Source) : Result (Value × Bool) :=
  if isCurrent raw || !isLegacy raw then .ok (raw, false)
  else do
    let converted ← convert (Schema.itemsOf (Schema.get raw "stages")) source
    return (converted, true)

end StepGraph.Legacy
