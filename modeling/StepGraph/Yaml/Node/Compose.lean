import StepGraph.Yaml.Event.Basic
import StepGraph.Yaml.Node.Basic
import StepGraph.Yaml.Resolve

/-!
# From events to one document

`Composer.step` takes one event; the stack of `Frame`s holds the collections around the place
that has been reached. An anchor is known from the start of its node on, so an alias can refer to a
collection that is still open: `Composer.openAnchors` holds the anchors of those, and such an alias
is refused before anything else is asked of it. An accepted alias is replaced by the finished node
of its anchor. A stream may hold one document, or none.
-/

set_option autoImplicit false

namespace StepGraph.Yaml

/-- The content of an open collection, last part first. -/
inductive Content
  | items (reversed : List Node)
  /-- The entries, and a key that still lacks its value. -/
  | entries (reversed : List (Node × Node)) (key : Option Node)

/-- A collection that is still open. -/
structure Frame where
  anchor : Option String
  tag : Tag
  place : Mark
  content : Content

namespace Frame

def add (node : Node) (frame : Frame) : Frame :=
  match frame.content with
  | .items reversed => { frame with content := .items (node :: reversed) }
  | .entries reversed none => { frame with content := .entries reversed (some node) }
  | .entries reversed (some key) =>
    { frame with content := .entries ((key, node) :: reversed) none }

/-- The collection, once it is complete. -/
def close (frame : Frame) : Node :=
  match frame.content with
  | .items reversed => .sequence frame.tag reversed.reverse frame.place
  | .entries reversed _ => .mapping frame.tag reversed.reverse frame.place

end Frame

structure Composer where
  frames : List Frame
  /-- Where the node of each anchor starts, and the node once it is complete. -/
  anchors : List (String × Mark × Option Node)
  /-- The anchors of the open collections. -/
  openAnchors : List String
  /-- The document, once it is complete. -/
  root : Option Node

namespace Composer

abbrev Step := Composer → Attempt Error Composer

def start : Composer :=
  ⟨[], [], [], none⟩

/-- Puts a complete node into the collection around it, or makes it the document. -/
def add (node : Node) (c : Composer) : Composer :=
  match c.frames with
  | [] => { c with root := some node }
  | frame :: rest => { c with frames := frame.add node :: rest }

/-- Enters an anchor, which must be new in the document. -/
def enterAnchor (anchor : Option String) (place : Mark) (node : Option Node) : Step := fun c =>
  match anchor with
  | none => .ok c
  | some name =>
    match c.anchors.lookup name with
    | some (first, _) => fail (.firstAnchor name) first .secondAnchor place
    | none => .ok { c with anchors := (name, place, node) :: c.anchors }

def completeAnchor (anchor : Option String) (node : Node) (c : Composer) : Composer :=
  match anchor with
  | none => c
  | some name =>
    { c with
      anchors := c.anchors.map fun entry =>
        if entry.1 == name then (entry.1, entry.2.1, some node) else entry
      openAnchors := c.openAnchors.erase name }

def scalarTag (properties : Properties) (inferred : Bool) (text : String) : Tag :=
  match properties.tag with
  | some uri => .ofUri uri
  | none => .core (if inferred then resolve workflowRules text.toList else .str)

def openCollection (properties : Properties) (default : CoreTag) (content : Content)
    (place : Mark) : Step := fun c => do
  if maxNesting ≤ c.frames.length then report .tooDeep
  let c ← c.enterAnchor properties.anchor place none
  let tag := (properties.tag.map Tag.ofUri).getD (.core default)
  return { c with
    frames := ⟨properties.anchor, tag, place, content⟩ :: c.frames
    openAnchors := properties.anchor.toList ++ c.openAnchors }

def closeCollection : Step := fun c =>
  match c.frames with
  | [] => .ok c
  | frame :: rest =>
    let node := frame.close
    .ok ((completeAnchor frame.anchor node { c with frames := rest }).add node)

/-- The node that an alias stands for. -/
def resolveAlias (name : String) (place : Mark) : Step := fun c =>
  if c.openAnchors.contains name then failAt (.recursiveAlias name) place
  else
    match c.anchors.lookup name with
    | some (_, some node) => .ok (c.add node)
    | _ => failAt (.undefinedAlias name) place

def step (event : Event) : Step := fun c =>
  match event.kind with
  | .streamEnd => .ok c
  | .documentStart =>
    match c.root with
    | some node => fail .singleDocument node.place .secondDocument event.place
    | none => .ok c
  | .documentEnd => .ok { c with anchors := [] }
  | .alias name => c.resolveAlias name event.place
  | .scalar properties inferred text => do
    let node := Node.scalar (scalarTag properties inferred text) text event.place
    return (← c.enterAnchor properties.anchor event.place (some node)).add node
  | .sequenceStart properties => c.openCollection properties .seq (.items []) event.place
  | .mappingStart properties => c.openCollection properties .map (.entries [] none) event.place
  | .sequenceEnd => c.closeCollection
  | .mappingEnd => c.closeCollection

end Composer

/-- The document of a stream of events, or none if the stream is empty. -/
def Node.compose (events : List Event × Option (Failure Error)) : Attempt Error (Option Node) := do
  let c ← events.1.foldlM (fun c event => c.step event) Composer.start
  match events.2 with
  | some failure => throw failure
  | none => return c.root

end StepGraph.Yaml
