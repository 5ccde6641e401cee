import StepGraph.Order.Sorted
import StepGraph.Value.Text
import StepGraph.Workflow.Error
import StepGraph.Yaml.Pen.Scalar
import StepGraph.Yaml.Resolve

/-!
# Writing YAML

`Yaml.write` writes a value as one document. `Tree.ofValue` fixes the text, the tag and the style
asked for of each scalar and the style of each collection; writing then follows the tree. Every
value is written in full wherever it occurs, and sequences are indented under their keys. A whole
number with too many digits cannot be written, nor a value that is nested too deeply.
-/

set_option autoImplicit false

namespace StepGraph.Yaml

/-! ## What is written -/

/-- A scalar to be written. -/
structure Leaf where
  tag : CoreTag
  text : List Char
  asked : Option ScalarStyle

inductive Tree
  | leaf (l : Leaf)
  | sequence (flow : Bool) (items : List Tree)
  | mapping (flow : Bool) (entries : List (Leaf × Tree))

/-- Doubles in YAML: a point always stands before an exponent. -/
def floatStyle : FloatStyle :=
  { FloatStyle.report with pointBeforeExponent := true, nan := ".nan", infinity := ".inf" }

/-- A text of several lines asks for literal style. -/
def Leaf.ofScalar (o : Options) : Scalar → Leaf
  | .null => ⟨.null, "null".toList, o.scalarStyle⟩
  | .bool b => ⟨.bool, (if b then "true" else "false").toList, o.scalarStyle⟩
  | .int n => ⟨.int, (toString n).toList, o.scalarStyle⟩
  | .float d => ⟨.float, (floatStyle.write d).toList, o.scalarStyle⟩
  | .str s =>
    let text := s.toList
    ⟨.str, text, if text.contains '\n' then some .literal else o.scalarStyle⟩

/-- A scalar that asks for no style. -/
def Leaf.isSimple (l : Leaf) : Bool :=
  l.asked.isNone

def Tree.isSimple : Tree → Bool
  | .leaf l => l.isSimple
  | _ => false

/-- The order of keys when keys are sorted: texts by their characters, numbers by value. -/
def keyPrecedes : Scalar → Scalar → Bool
  | .str a, .str b => decide (a < b)
  | a, b =>
    match a.asKey, b.asKey with
    | .num m, .num n => m.lt n
    | _, _ => false

def isNumeric (s : Scalar) : Bool :=
  match s.asKey with
  | .num _ => true
  | _ => false

/-- Keys are comparable if all are texts or all are numbers. -/
def comparable (keys : List Scalar) : Bool :=
  keys.all Scalar.isString || keys.all isNumeric

/-- Entries in the order in which they are written. -/
def arrange {α : Type} (o : Options) (entries : List (Scalar × α)) : List (Scalar × α) :=
  if o.sortKeys && comparable (entries.map Prod.fst) then
    Order.sortBy (fun a b => keyPrecedes a.1 b.1) entries
  else entries

namespace Tree

mutual

def ofValue (o : Options) : Value → Tree
  | .scalar s => .leaf (.ofScalar o s)
  | .list items =>
    let trees := ofItems o items
    .sequence (o.flow.getD (trees.all isSimple)) trees
  | .map entries =>
    let pairs := (arrange o (ofEntries o entries)).map fun pair => (Leaf.ofScalar o pair.1, pair.2)
    .mapping (o.flow.getD (pairs.all fun pair => pair.1.isSimple && pair.2.isSimple)) pairs

def ofItems (o : Options) : List Value → List Tree
  | [] => []
  | v :: rest => ofValue o v :: ofItems o rest

def ofEntries (o : Options) : List (Scalar × Value) → List (Scalar × Tree)
  | [] => []
  | (k, v) :: rest => (k, ofValue o v) :: ofEntries o rest

end

end Tree

/-! ## Tags -/

/-- What the written tags can be shortened by: starts of tags and their handles. -/
abbrev Handles := List (String × String)

def knownHandles : Handles := [("!", "!"), (CoreTag.authority, "!!")]

/-- Declares that tags starting with `leading` are written with `handle`. -/
def declareHandle (handles : Handles) (leading handle : String) : Handles :=
  (leading, handle) :: handles.filter (·.1 != leading)

/-- A tag as it is written: by the handle of the longest start, or in full. A handle does not stand
for a whole tag. -/
def writtenTag (handles : Handles) (tag : CoreTag) : List Char :=
  let uri := tag.uri.toList
  let fitting := handles.filter fun h =>
    h.1.toList.isPrefixOf uri && (h.1 == "!" || h.1.length < uri.length)
  match (Order.sortBy (fun a b : String × String => decide (a.1 < b.1)) fitting).getLast? with
  | some (leading, handle) => handle.toList ++ uri.drop leading.length
  | none => "!<".toList ++ uri ++ ['>']

/-! ## Nodes -/

/-- What holds for the whole document. -/
structure Writing where
  options : Options
  handles : Handles

/-- The place of a node: the column its parent's lines start at, and whether brackets are open. -/
structure Nest where
  indent : Option Nat
  inFlow : Bool

namespace Nest

/-- The column of lines inside a node. -/
def inside (nest : Nest) (w : Writing) (flow : Bool) : Nat :=
  match nest.indent with
  | none => if flow then w.options.step else 0
  | some i => i + w.options.step

end Nest

namespace Writing

def sign (cs : List Char) (pen : Pen) : Pen :=
  pen.sign cs false false false

/-- A tag, with a blank before it. -/
def tag (w : Writing) (t : CoreTag) (pen : Pen) : Pen :=
  pen.sign (writtenTag w.handles t) true false false

/-- The tag of a collection is written in canonical style only. -/
def collectionTag (w : Writing) (t : CoreTag) (pen : Pen) : Pen :=
  if w.options.canonical then w.tag t pen else pen

/-- A scalar. Its tag is left out if its text has that type in its style. -/
def leaf (w : Writing) (nest : Nest) (simpleKey : Bool) (l : Leaf) (pen : Pen) : Pen :=
  let o := w.options
  let implicit := resolve standardRules l.text == l.tag
  let style := (TextTraits.of o.unicode l.text).style ⟨nest.inFlow, simpleKey⟩ o.canonical
    implicit l.asked
  let untagged := !o.canonical && (if style = .plain then implicit else l.tag == .str)
  let pen := if untagged then pen else w.tag l.tag pen
  pen.scalar o (nest.inside w true) (!simpleKey) style l.text

/-- A key on the line of its value is short and has one line. -/
def isSimpleKey (w : Writing) (l : Leaf) : Bool :=
  let traits := TextTraits.of w.options.unicode l.text
  (writtenTag w.handles l.tag).length + l.text.length < 128 && !traits.empty && !traits.multiline

/-- Breaks the line in brackets where it is full, and always in canonical style. -/
def flowBreak (w : Writing) (indent : Nat) (pen : Pen) : Pen :=
  if w.options.canonical || w.options.margin < pen.column then pen.indentTo w.options indent
  else pen

/-- The end of a collection in brackets that had items or not. -/
def closeFlow (w : Writing) (nest : Nest) (bracket : Char) (hadItems : Bool) (pen : Pen) : Pen :=
  let pen :=
    if w.options.canonical && hadItems then
      (sign [','] pen).indentTo w.options (nest.indent.getD 0)
    else pen
  sign [bracket] pen

/-- The sign before an entry, which counts as indentation in block style. -/
def mark (c : Char) (block : Bool) (pen : Pen) : Pen :=
  pen.sign [c] true false block

/-- A key, and the colon after it if it is a simple one. -/
def key (w : Writing) (nest : Nest) (block : Bool) (l : Leaf) (pen : Pen) : Pen :=
  if (block || !w.options.canonical) && w.isSimpleKey l then
    sign [':'] (w.leaf nest true l pen)
  else
    let pen := w.leaf nest false l (mark '?' block pen)
    let indent := nest.indent.getD 0
    let pen := if block then pen.indentTo w.options indent else w.flowBreak indent pen
    mark ':' block pen

mutual

def node (w : Writing) (nest : Nest) : Tree → Pen → Pen
  | .leaf l, pen => w.leaf nest false l pen
  | .sequence flow items, pen =>
    let pen := w.collectionTag .seq pen
    if nest.inFlow || w.options.canonical || flow || items.isEmpty then
      let inner : Nest := ⟨some (nest.inside w true), true⟩
      let pen := w.flowItems inner true items (pen.sign ['['] true true false)
      w.closeFlow nest ']' (!items.isEmpty) pen
    else w.blockItems ⟨some (nest.inside w false), false⟩ items pen
  | .mapping flow entries, pen =>
    let pen := w.collectionTag .map pen
    if nest.inFlow || w.options.canonical || flow || entries.isEmpty then
      let inner : Nest := ⟨some (nest.inside w true), true⟩
      let pen := w.flowEntries inner true entries (pen.sign ['\x7b'] true true false)
      w.closeFlow nest '\x7d' (!entries.isEmpty) pen
    else w.blockEntries ⟨some (nest.inside w false), false⟩ entries pen

def flowItems (w : Writing) (nest : Nest) (atFirst : Bool) : List Tree → Pen → Pen
  | [], pen => pen
  | item :: rest, pen =>
    let pen := if atFirst then pen else sign [','] pen
    let pen := node w nest item (w.flowBreak (nest.indent.getD 0) pen)
    flowItems w nest false rest pen

def blockItems (w : Writing) (nest : Nest) : List Tree → Pen → Pen
  | [], pen => pen
  | item :: rest, pen =>
    let pen := mark '-' true (pen.indentTo w.options (nest.indent.getD 0))
    blockItems w nest rest (node w nest item pen)

def flowEntries (w : Writing) (nest : Nest) (atFirst : Bool) : List (Leaf × Tree) → Pen → Pen
  | [], pen => pen
  | (k, item) :: rest, pen =>
    let pen := if atFirst then pen else sign [','] pen
    let pen := w.key nest false k (w.flowBreak (nest.indent.getD 0) pen)
    flowEntries w nest false rest (node w nest item pen)

def blockEntries (w : Writing) (nest : Nest) : List (Leaf × Tree) → Pen → Pen
  | [], pen => pen
  | (k, item) :: rest, pen =>
    let pen := w.key nest true k (pen.indentTo w.options (nest.indent.getD 0))
    blockEntries w nest rest (node w nest item pen)

end

end Writing

/-! ## The document -/

def checkHandle (handle : String) : Result Unit :=
  let cs := handle.toList
  if cs.isEmpty then report (.unwritable .emptyHandle)
  else if cs.head? != some '!' || cs.getLast? != some '!' then
    report (.unwritable (.openHandle handle))
  else
    match ((cs.drop 1).dropLast).find? (!isNameChar ·) with
    | some c => report (.unwritable (.handleCharacter c handle))
    | none => .ok ()

/-- What a handle stands for must be written without escapes. -/
def checkLeading (leading : String) : Result Unit :=
  if leading.isEmpty then report (.unwritable .emptyLeading)
  else if (leading.toList.drop (if leading.front == '!' then 1 else 0)).all
      fun c => isUriChar c && c != '%' then .ok ()
  else breakOff .wrongType

/-- The lines that declare handles, in the order of the handles. -/
def declareHandles (o : Options) : List (String × String) → Handles × Pen → Result (Handles × Pen)
  | [], state => .ok state
  | (handle, leading) :: rest, (handles, pen) => do
    checkHandle handle
    checkLeading leading
    let line := "%TAG " ++ handle ++ " " ++ leading
    declareHandles o rest
      (declareHandle handles leading handle, (pen.writeRaw line.toList).newLine o)

/-- What stands before the document. -/
def openDocument (o : Options) : Result (Handles × Pen) := do
  let pen ←
    match o.version with
    | none => pure Pen.start
    | some (major, minor) =>
      if major != 1 then report (.unwritable (.unsupportedVersion major minor))
      else
        let line := "%YAML " ++ toString major ++ "." ++ toString minor
        pure ((Pen.start.writeRaw line.toList).newLine o)
  let sorted := Order.sortBy (fun a b : String × String => decide (a.1 < b.1)) o.handles
  let (handles, pen) ← declareHandles o sorted (knownHandles, pen)
  let marked := o.explicitStart || o.canonical || o.version.isSome || !o.handles.isEmpty
  if marked then
    let pen := (pen.indentTo o 0).sign "---".toList true false false
    return (handles, if o.canonical then pen.indentTo o 0 else pen)
  else return (handles, pen)

/-- What stands after it. A text that could go on is closed by a marker. -/
def closeDocument (o : Options) (pen : Pen) : Pen :=
  let marker (pen : Pen) := (pen.sign "...".toList true false false).indentTo o 0
  let pen := pen.indentTo o 0
  let pen := if o.explicitEnd then marker pen else pen
  if pen.openEnded then marker pen else pen

/-- The text of a value as one document. -/
def write (o : Options) (v : Value) : Result String := do
  v.assertWritable
  if maxNesting ≤ v.depth then report (.unwritable .tooDeep)
  let tree := Tree.ofValue o v
  let (handles, pen) ← openDocument o
  let w : Writing := ⟨o, handles⟩
  return (closeDocument o (w.node ⟨none, false⟩ tree pen)).text

end StepGraph.Yaml
