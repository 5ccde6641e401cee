import StepGraph.Yaml.Error
import StepGraph.Yaml.Event.Basic

/-!
# From tokens to events

The grammar of YAML as a machine: a stack of `Goal`s says what is still to be read, and each step
takes the goal on top, reads tokens for one event and puts back what remains of the goal.
`Event.ofTokens` runs the machine; like the tokens it reads, its events end in a failure that only
who asks for the next event meets.
-/

set_option autoImplicit false

namespace StepGraph.Yaml

/-- Something still to be read. Collections carry the place where they start, for messages. -/
inductive Goal
  | firstDocument
  | nextDocument
  | documentContent
  | documentEnd
  | blockNode
  | blockSequence (start : Mark)
  | indentlessSequence
  | blockMappingKey (start : Mark)
  | blockMappingValue (start : Mark)
  | flowSequence (start : Mark) (atFirst : Bool)
  /-- The key, the value and the end of a mapping of one pair in a flow sequence. -/
  | pairKey (place : Mark)
  | pairValue
  | pairEnd
  | flowMapping (start : Mark) (atFirst : Bool)
  | flowMappingValue
  /-- The value of a key in a flow mapping that has no colon after it. -/
  | flowMappingNoValue
  deriving DecidableEq, Repr

/-- The handles that every document knows. -/
def defaultHandles : List (String × String) := [("!", "!"), ("!!", "tag:yaml.org,2002:")]

structure Grammar where
  tokens : List Token
  /-- Why there are no more tokens after these. -/
  failure : Option (Failure Error)
  goals : List Goal
  handles : List (String × String)

namespace Grammar

abbrev Step (α : Type) := Grammar → Attempt Error (α × Grammar)

/-- The next token. Tokens end with the end of the stream or with a failure. -/
def next : Grammar → Attempt Error Token
  | ⟨token :: _, _, _, _⟩ => .ok token
  | ⟨[], some failure, _, _⟩ => .error failure
  | ⟨[], none, _, _⟩ => .ok ⟨.streamEnd, default, default⟩

def drop (g : Grammar) : Grammar :=
  { g with tokens := g.tokens.drop 1 }

/-- Puts back goals, the first one on top. -/
def push (goals : List Goal) (g : Grammar) : Grammar :=
  { g with goals := goals ++ g.goals }

def emit (kind : EventKind) (place : Mark) (g : Grammar) : Attempt Error (Event × Grammar) :=
  .ok (⟨kind, place⟩, g)

/-- A node that is left out. -/
def emitEmpty (place : Mark) (g : Grammar) : Attempt Error (Event × Grammar) :=
  g.emit (.scalar ⟨none, none⟩ true "") place

/-! ## Directives -/

/-- Reads the directives before a document; `version` tells whether one has given the version.
The handles they declare come before the default ones. -/
def directives (version : Bool) (handles : List (String × String)) :
    List Token → Attempt Error (List (String × String) × List Token)
  | ⟨.directive d, start, _⟩ :: rest =>
    match d with
    | .version major _ =>
      if version then failAt .secondVersion start
      else if major != 1 then failAt .incompatibleVersion start
      else directives true handles rest
    | .tag handle leading =>
      if (handles.lookup handle).isSome then failAt (.secondHandle handle) start
      else directives version (handles ++ [(handle, leading)]) rest
    | .unknown => directives version handles rest
  | tokens => .ok (handles, tokens)

/-! ## Nodes -/

/-- The tag that a handle and a suffix make up. -/
def resolveTag (handles : List (String × String)) (start place : Mark) :
    Option String → String → Attempt Error String
  | none, suffix => .ok suffix
  | some handle, suffix =>
    match handles.lookup handle with
    | some leading => .ok (leading ++ suffix)
    | none => fail .node start (.undefinedHandle handle) place

/-- An anchor and a tag in either order: the place of the first of them, where the last one stops,
the anchor, and the tag with its place. -/
structure Prelude where
  start : Option Mark
  stop : Option Mark
  anchor : Option String
  tag : Option (Option String × String × Mark)

def Prelude.none : Prelude :=
  ⟨.none, .none, .none, .none⟩

def readAnchor (p : Prelude) (g : Grammar) : Attempt Error (Prelude × Grammar) := do
  let t ← g.next
  match t.kind with
  | .anchor name =>
    return ({ p with start := p.start <|> some t.start, stop := some t.stop, anchor := some name },
      g.drop)
  | _ => return (p, g)

def readTag (p : Prelude) (g : Grammar) : Attempt Error (Prelude × Grammar) := do
  let t ← g.next
  match t.kind with
  | .tag handle suffix =>
    return ({ p with
      start := p.start <|> some t.start, stop := some t.stop,
      tag := some (handle, suffix, t.start) }, g.drop)
  | _ => return (p, g)

def readPrelude (g : Grammar) : Attempt Error (Prelude × Grammar) := do
  let (p, g) ← readAnchor .none g
  if p.anchor.isSome then readTag p g
  else
    let (p, g) ← readTag p g
    if p.tag.isSome then readAnchor p g else return (p, g)

/-- The event with which a node starts. `block` allows block collections, `indentless` also a
sequence whose dashes stand at the column of the mapping around it. -/
def node (block indentless : Bool) : Step Event := fun g => do
  let first ← g.next
  match first.kind with
  | .alias name => g.drop.emit (.alias name) first.start
  | _ =>
    let (p, g) ← g.readPrelude
    let tag ←
      match p.tag with
      | none => pure none
      | some (handle, suffix, place) =>
        some <$> resolveTag g.handles (p.start.getD place) place handle suffix
    let t ← g.next
    let start := p.start.getD t.start
    let properties : Properties := ⟨p.anchor, tag.filter (· != "!")⟩
    match t.kind with
    | .blockEntry =>
      if indentless then (g.push [.indentlessSequence]).emit (.sequenceStart properties) start
      else emptyNode p tag t start g
    | .scalar text plain =>
      let inferred := (plain && tag.isNone) || tag == some "!"
      g.drop.emit (.scalar properties inferred text) start
    | .flowSequenceStart =>
      (g.drop.push [.flowSequence t.start true]).emit (.sequenceStart properties) start
    | .flowMappingStart =>
      (g.drop.push [.flowMapping t.start true]).emit (.mappingStart properties) start
    | .blockSequenceStart =>
      if block then (g.drop.push [.blockSequence t.start]).emit (.sequenceStart properties) start
      else emptyNode p tag t start g
    | .blockMappingStart =>
      if block then (g.drop.push [.blockMappingKey t.start]).emit (.mappingStart properties) start
      else emptyNode p tag t start g
    | _ => emptyNode p tag t start g
where
  /-- A node of properties without content. Without properties there is no node. -/
  emptyNode (p : Prelude) (tag : Option String) (t : Token) (start : Mark) : Step Event := fun g =>
    if p.anchor.isSome || tag.isSome then
      g.emit (.scalar ⟨p.anchor, tag.filter (· != "!")⟩ (tag.isNone || tag == some "!") "") start
    else fail (if block then .blockNode else .flowNode) start (.expectedNode t.kind) t.start

/-- A node that is left out if one of the tokens that `ends` accepts comes next. -/
def nodeUnless (ends : TokenKind → Bool) (after : Goal) (block indentless : Bool) (place : Mark) :
    Step Event := fun g => do
  let t ← g.next
  let g := g.push [after]
  if ends t.kind then g.emitEmpty place else g.node block indentless

/-! ## Documents -/

/-- The rest of a stream: more documents, each with an explicit start, or the end. -/
def nextDocument : Step Event := fun g => do
  let g := { g with tokens := g.tokens.dropWhile (·.kind == TokenKind.documentEnd) }
  let t ← g.next
  match t.kind with
  | .streamEnd => g.emit .streamEnd t.start
  | _ =>
    let (handles, tokens) ← directives false [] g.tokens
    let g := { g with tokens := tokens, handles := handles ++ defaultHandles }
    let found ← g.next
    match found.kind with
    | .documentStart => (g.drop.push [.documentContent, .documentEnd]).emit .documentStart t.start
    | other => failAt (.expectedDocumentStart other) found.start

def startsDocument : TokenKind → Bool
  | .directive _ | .documentStart | .streamEnd => true
  | _ => false

/-- The first document may do without a start. -/
def firstDocument : Step Event := fun g => do
  let t ← g.next
  if startsDocument t.kind then g.nextDocument
  else (g.push [.blockNode, .documentEnd]).emit .documentStart t.start

def documentContent : Step Event := fun g => do
  let t ← g.next
  if startsDocument t.kind || t.kind == .documentEnd then g.emitEmpty t.start
  else g.node true false

def documentEnd : Step Event := fun g => do
  let t ← g.next
  let g := g.push [.nextDocument]
  let g := if t.kind == TokenKind.documentEnd then g.drop else g
  g.emit .documentEnd t.start

/-! ## Block collections -/

def blockSequence (start : Mark) : Step Event := fun g => do
  let t ← g.next
  match t.kind with
  | .blockEntry =>
    g.drop.nodeUnless (fun k => k == .blockEntry || k == .blockEnd) (.blockSequence start)
      true false t.stop
  | .blockEnd => g.drop.emit .sequenceEnd t.start
  | other => fail .blockCollection start (.expectedBlockEnd other) t.start

def endsBlockNode (k : TokenKind) : Bool :=
  k == .key || k == .value || k == .blockEnd

def indentlessSequence : Step Event := fun g => do
  let t ← g.next
  match t.kind with
  | .blockEntry =>
    g.drop.nodeUnless (fun k => k == .blockEntry || endsBlockNode k) .indentlessSequence
      true false t.stop
  | _ => g.emit .sequenceEnd t.start

def blockMappingKey (start : Mark) : Step Event := fun g => do
  let t ← g.next
  match t.kind with
  | .key => g.drop.nodeUnless endsBlockNode (.blockMappingValue start) true true t.stop
  | .blockEnd => g.drop.emit .mappingEnd t.start
  | other => fail .blockMapping start (.expectedBlockEnd other) t.start

def blockMappingValue (start : Mark) : Step Event := fun g => do
  let t ← g.next
  match t.kind with
  | .value => g.drop.nodeUnless endsBlockNode (.blockMappingKey start) true true t.stop
  | _ => (g.push [.blockMappingKey start]).emitEmpty t.start

/-! ## Flow collections -/

/-- The separator before an entry that is not the first one. -/
def separator (atFirst : Bool) (activity : Activity) (start : Mark)
    (problem : TokenKind → Problem) (g : Grammar) : Attempt Error Grammar :=
  if atFirst then .ok g
  else do
    let t ← g.next
    match t.kind with
    | .flowEntry => return g.drop
    | other => fail activity start (problem other) t.start

def flowSequence (start : Mark) (atFirst : Bool) : Step Event := fun g => do
  let t ← g.next
  match t.kind with
  | .flowSequenceEnd => g.drop.emit .sequenceEnd t.start
  | _ =>
    let g ← g.separator atFirst .flowSequence start .expectedCommaOrBracket
    let t ← g.next
    match t.kind with
    | .key =>
      let g := g.drop.push [.pairKey t.stop, .flowSequence start false]
      g.emit (.mappingStart ⟨none, none⟩) t.start
    | .flowSequenceEnd => g.drop.emit .sequenceEnd t.start
    | _ => (g.push [.flowSequence start false]).node false false

def endsPairPart (k : TokenKind) : Bool :=
  k == .flowEntry || k == .flowSequenceEnd

def pairKey (place : Mark) : Step Event := fun g =>
  g.nodeUnless (fun k => k == .value || endsPairPart k) .pairValue false false place

def pairValue : Step Event := fun g => do
  let t ← g.next
  match t.kind with
  | .value => g.drop.nodeUnless endsPairPart .pairEnd false false t.stop
  | _ => (g.push [.pairEnd]).emitEmpty t.start

def pairEnd : Step Event := fun g => do
  let t ← g.next
  g.emit .mappingEnd t.start

def endsFlowValue (k : TokenKind) : Bool :=
  k == .flowEntry || k == .flowMappingEnd

def flowMapping (start : Mark) (atFirst : Bool) : Step Event := fun g => do
  let t ← g.next
  match t.kind with
  | .flowMappingEnd => g.drop.emit .mappingEnd t.start
  | _ =>
    let g ← g.separator atFirst .flowMapping start .expectedCommaOrBrace
    let t ← g.next
    let again := Goal.flowMapping start false
    match t.kind with
    | .key =>
      (g.drop.push [again]).nodeUnless (fun k => k == .value || endsFlowValue k)
        .flowMappingValue false false t.stop
    | .flowMappingEnd => g.drop.emit .mappingEnd t.start
    | _ => (g.push [.flowMappingNoValue, again]).node false false

def flowMappingValue : Step Event := fun g => do
  let t ← g.next
  match t.kind with
  | .value =>
    let g := g.drop
    let after ← g.next
    if endsFlowValue after.kind then g.emitEmpty t.stop else g.node false false
  | _ => g.emitEmpty t.start

def flowMappingNoValue : Step Event := fun g => do
  g.emitEmpty (← g.next).start

/-! ## The machine -/

/-- One event for a goal that has been taken from the stack. -/
def reach : Goal → Step Event
  | .firstDocument, g => g.firstDocument
  | .nextDocument, g => g.nextDocument
  | .documentContent, g => g.documentContent
  | .documentEnd, g => g.documentEnd
  | .blockNode, g => g.node true false
  | .blockSequence start, g => g.blockSequence start
  | .indentlessSequence, g => g.indentlessSequence
  | .blockMappingKey start, g => g.blockMappingKey start
  | .blockMappingValue start, g => g.blockMappingValue start
  | .flowSequence start atFirst, g => g.flowSequence start atFirst
  | .pairKey place, g => g.pairKey place
  | .pairValue, g => g.pairValue
  | .pairEnd, g => g.pairEnd
  | .flowMapping start atFirst, g => g.flowMapping start atFirst
  | .flowMappingValue, g => g.flowMappingValue
  | .flowMappingNoValue, g => g.flowMappingNoValue

/-- Steps until no goal is left. -/
def run : Nat → Grammar → List Event × Option (Failure Error)
  | 0, _ => ([], none)
  | steps + 1, g =>
    match g.goals with
    | [] => ([], none)
    | goal :: goals =>
      match reach goal { g with goals := goals } with
      | .error e => ([], some e)
      | .ok (event, g) =>
        let (events, failure) := run steps g
        (event :: events, failure)

end Grammar

/-- The events of a text given by its tokens. At most four events come between two tokens. -/
def Event.ofTokens (tokens : List Token × Option (Failure Error)) :
    List Event × Option (Failure Error) :=
  Grammar.run (4 * tokens.1.length + 8) ⟨tokens.1, tokens.2, [.firstDocument], defaultHandles⟩

end StepGraph.Yaml
