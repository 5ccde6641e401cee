import StepGraph.Value.Basic

/-!
# How a document is written

The layout that a writer of YAML can be asked for: indentation, line width, the style of scalars and
collections, and what stands before and after the document.
-/

set_option autoImplicit false

namespace StepGraph.Yaml

inductive ScalarStyle
  | plain
  | single
  | double
  | literal
  | folded
  deriving DecidableEq, Repr

structure Options where
  /-- Counts between two and nine. -/
  indent : Int
  /-- Counts above twice the indentation. -/
  width : Int
  lineBreak : String
  /-- Whether characters beyond ASCII may stand for themselves. -/
  unicode : Bool
  sortKeys : Bool
  /-- The style asked for where a scalar has no reason for another one; never plain. -/
  scalarStyle : Option ScalarStyle
  /-- Whether collections are written in brackets; if unset, those of plain scalars are. -/
  flow : Option Bool
  /-- Every tag written, every scalar quoted, one item a line. -/
  canonical : Bool
  explicitStart : Bool
  explicitEnd : Bool
  version : Option (Int × Int)
  /-- Handles and what they stand for. -/
  handles : List (String × String)
  deriving DecidableEq

namespace Options

/-- Block style, keys in their order, text as it is. -/
def standard (indent width : Int) : Options where
  indent := indent
  width := width
  lineBreak := "\n"
  unicode := true
  sortKeys := false
  scalarStyle := none
  flow := some false
  canonical := false
  explicitStart := false
  explicitEnd := false
  version := none
  handles := []

/-- The indentation in use. -/
def step (o : Options) : Nat :=
  if 1 < o.indent ∧ o.indent < 10 then o.indent.toNat else 2

/-- The width in use. -/
def margin (o : Options) : Nat :=
  if (o.step * 2 : Int) < o.width then o.width.toNat else 80

/-- The line break in use. -/
def lineEnd (o : Options) : List Char :=
  if ["\r", "\n", "\r\n"].contains o.lineBreak then o.lineBreak.toList else ['\n']

end Options

end StepGraph.Yaml
