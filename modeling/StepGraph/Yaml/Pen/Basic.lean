import StepGraph.Yaml.Options

/-!
# The pen

A `Pen` is the text written so far together with what the next word needs to know of it: the
column, whether a blank separates it already, and whether the line holds nothing but indentation
and signs that count as such.
-/

set_option autoImplicit false

namespace StepGraph.Yaml

structure Pen where
  /-- The text so far, last character first. -/
  reversed : List Char
  column : Nat
  /-- Whether a blank or the start of a line was written last. -/
  separated : Bool
  /-- Whether the line so far only indents. -/
  indenting : Bool
  /-- Whether the text ended in a scalar that goes on until a marker. -/
  openEnded : Bool

namespace Pen

def start : Pen :=
  ⟨[], 0, true, true, false⟩

def text (pen : Pen) : String :=
  String.ofList pen.reversed.reverse

/-- Writes characters that do not move the column. -/
def writeRaw (cs : List Char) (pen : Pen) : Pen :=
  { pen with reversed := cs.reverse ++ pen.reversed }

def write (cs : List Char) (pen : Pen) : Pen :=
  { pen.writeRaw cs with column := pen.column + cs.length }

/-- Starts a line with a given break. -/
def breakWith (lineEnd : List Char) (pen : Pen) : Pen :=
  { pen.writeRaw lineEnd with column := 0, separated := true, indenting := true }

def newLine (o : Options) (pen : Pen) : Pen :=
  pen.breakWith o.lineEnd

/-- Starts the line of a break that stands in a text: a line feed as the document's own break, any
other as itself. -/
def textBreak (o : Options) (pen : Pen) (c : Char) : Pen :=
  if c == '\n' then pen.newLine o else pen.breakWith [c]

/-- Moves to column `indent`, on a new line unless this one is still free for it. -/
def indentTo (o : Options) (indent : Nat) (pen : Pen) : Pen :=
  let pen :=
    if !pen.indenting || indent < pen.column || (pen.column == indent && !pen.separated) then
      pen.newLine o
    else pen
  if pen.column < indent then
    { pen.write (List.replicate (indent - pen.column) ' ') with separated := true }
  else pen

/-- Says that no blank was written last and that the line does more than indent. -/
def midLine (pen : Pen) : Pen :=
  { pen with separated := false, indenting := false }

/-- Writes a sign. `apart` asks for a blank before it; `separates` and `indents` say whether it
counts as a blank and as indentation itself. -/
def sign (cs : List Char) (apart separates indents : Bool) (pen : Pen) : Pen :=
  let cs := if pen.separated || !apart then cs else ' ' :: cs
  { pen.write cs with
    separated := separates
    indenting := pen.indenting && indents
    openEnded := false }

end Pen

end StepGraph.Yaml
