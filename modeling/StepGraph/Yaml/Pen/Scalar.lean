import StepGraph.Text.Digit
import StepGraph.Yaml.Pen.Basic
import StepGraph.Yaml.Style

/-!
# Writing scalars

A text in each of the five styles, at the indentation of the lines it may be broken into. Outside
keys (`splits`) long lines of plain and quoted texts are broken at single spaces.
-/

set_option autoImplicit false

namespace StepGraph.Yaml

/-- A run of spaces, a run of breaks, or a run of other characters. -/
inductive Run
  | spaces (count : Nat)
  | breaks (cs : List Char)
  | word (cs : List Char)
  deriving DecidableEq, Repr

namespace Run

/-- Puts a character before runs. -/
def cons (c : Char) (runs : List Run) : List Run :=
  if c == ' ' then
    match runs with
    | .spaces n :: rest => .spaces (n + 1) :: rest
    | _ => .spaces 1 :: runs
  else if isTextBreak c then
    match runs with
    | .breaks cs :: rest => .breaks (c :: cs) :: rest
    | _ => .breaks [c] :: runs
  else
    match runs with
    | .word cs :: rest => .word (c :: cs) :: rest
    | _ => .word [c] :: runs

def ofText (cs : List Char) : List Run :=
  cs.foldr cons []

end Run

namespace Pen

def spaces (n : Nat) (pen : Pen) : Pen :=
  pen.write (List.replicate n ' ')

/-- The lines that a run of breaks makes, one more if it starts with a line feed. -/
def foldedBreaks (o : Options) (cs : List Char) (pen : Pen) : Pen :=
  let pen := if cs.head? == some '\n' then pen.newLine o else pen
  cs.foldl (textBreak o) pen

/-! ## Plain and single-quoted texts -/

/-- Runs of a plain text. -/
def plainRuns (o : Options) (indent : Nat) (splits : Bool) : List Run → Pen → Pen
  | [], pen => pen
  | .spaces n :: rest, pen =>
    plainRuns o indent splits rest
      (if n == 1 && o.margin < pen.column && splits then (pen.indentTo o indent).midLine
        else pen.spaces n)
  | .breaks cs :: rest, pen =>
    plainRuns o indent splits rest ((pen.foldedBreaks o cs).indentTo o indent).midLine
  | .word cs :: rest, pen => plainRuns o indent splits rest (pen.write cs)

def plain (o : Options) (indent : Nat) (splits : Bool) (cs : List Char) (pen : Pen) : Pen :=
  if cs.isEmpty then pen
  else
    let pen := if pen.separated then pen else pen.write [' ']
    plainRuns o indent splits (Run.ofText cs) pen.midLine

def doubleQuotes (cs : List Char) : List Char :=
  cs.flatMap fun c => if c == '\'' then ['\'', '\''] else [c]

/-- Runs of a single-quoted text; the text is not broken at spaces at its ends. -/
def singleRuns (o : Options) (indent : Nat) (splits : Bool) (atStart : Bool) :
    List Run → Pen → Pen
  | [], pen => pen
  | .spaces n :: rest, pen =>
    singleRuns o indent splits false rest
      (if n == 1 && o.margin < pen.column && splits && !atStart && !rest.isEmpty then
        pen.indentTo o indent
      else pen.spaces n)
  | .breaks cs :: rest, pen =>
    singleRuns o indent splits false rest ((pen.foldedBreaks o cs).indentTo o indent)
  | .word cs :: rest, pen =>
    singleRuns o indent splits false rest (pen.write (doubleQuotes cs))

def single (o : Options) (indent : Nat) (splits : Bool) (cs : List Char) (pen : Pen) : Pen :=
  (singleRuns o indent splits true (Run.ofText cs) (pen.sign ['\''] true false false)).sign
    ['\''] false false false

/-! ## Double-quoted texts -/

/-- Characters with an escape of one letter. -/
def shortEscapes : List (Char × Char) := [
  ('\x00', '0'), ('\x07', 'a'), ('\x08', 'b'), ('\t', 't'), ('\n', 'n'), ('\x0b', 'v'),
  ('\x0c', 'f'), ('\r', 'r'), ('\x1b', 'e'), ('"', '"'), ('\\', '\\'), ('\x85', 'N'),
  ('\xa0', '_'), ('\u2028', 'L'), ('\u2029', 'P')]

def needsEscape (unicode : Bool) (c : Char) : Bool :=
  let n := c.toNat
  "\"\\\x85\u2028\u2029\uFEFF".toList.contains c
    || !((0x20 ≤ n && n ≤ 0x7E)
      || (unicode && ((0xA0 ≤ n && n ≤ 0xD7FF) || (0xE000 ≤ n && n ≤ 0xFFFD))))

def escaped (c : Char) : List Char :=
  let n := c.toNat
  let numbered (sign : Char) (width : Nat) :=
    '\\' :: sign :: (Text.hex width n).map Char.toUpper
  match shortEscapes.lookup c with
  | some letter => ['\\', letter]
  | none =>
    if n ≤ 0xFF then numbered 'x' 2
    else if n ≤ 0xFFFF then numbered 'u' 4
    else numbered 'U' 8

/-- Breaks the line of a double-quoted text before what comes `next`. -/
def doubleBreak (o : Options) (indent : Nat) (next : Option Char) (pen : Pen) : Pen :=
  let pen := ((pen.write ['\\']).indentTo o indent).midLine
  if next == some ' ' then pen.write ['\\'] else pen

/-- The rest of a double-quoted text. `pending` are the characters read but not written, last one
first; the line may be broken at a space or after an escape, but not at the first character nor
at the last one. -/
def doubleFrom (o : Options) (indent : Nat) (splits : Bool) (atStart : Bool) :
    List Char → List Char → Pen → Pen
  | pending, [], pen => pen.write pending.reverse
  | pending, c :: rest, pen =>
    let breakable := splits && !atStart && !rest.isEmpty
    if needsEscape o.unicode c then
      let pen := (pen.write pending.reverse).write (escaped c)
      let pen :=
        if breakable && o.margin + 1 < pen.column then pen.doubleBreak o indent rest.head? else pen
      doubleFrom o indent splits false [] rest pen
    else if breakable && (c == ' ' || pending.isEmpty)
        && o.margin < pen.column + pending.length then
      let pen := (pen.write pending.reverse).doubleBreak o indent (some c)
      doubleFrom o indent splits false [c] rest pen
    else doubleFrom o indent splits false (c :: pending) rest pen

def double (o : Options) (indent : Nat) (splits : Bool) (cs : List Char) (pen : Pen) : Pen :=
  (doubleFrom o indent splits true [] cs (pen.sign ['"'] true false false)).sign
    ['"'] false false false

/-! ## Block texts -/

/-- What follows the sign of a block text: its indentation where it starts with a blank or break,
and what becomes of the breaks at its end. -/
def blockHints (o : Options) (cs : List Char) : List Char :=
  let indent :=
    match cs.head? with
    | some c => if c == ' ' || isTextBreak c then Nat.toDigits 10 o.step else []
    | none => []
  let ending :=
    match cs.reverse with
    | [] => []
    | [c] => if isTextBreak c then ['+'] else ['-']
    | c :: before :: _ =>
      if !isTextBreak c then ['-'] else if isTextBreak before then ['+'] else []
  indent ++ ending

def blockHeader (o : Options) (sign : Char) (cs : List Char) (pen : Pen) : Pen :=
  let hints := blockHints o cs
  let pen := pen.sign (sign :: hints) true false false
  { pen with openEnded := pen.openEnded || hints.getLast? == some '+' }.newLine o

/-- The lines of a literal text; they do not move the column. `atBreak` if a break came before. -/
def literalLines (o : Options) (indent : Nat) (atBreak : Bool) : List Char → Pen → Pen
  | [], pen => if atBreak then pen else pen.newLine o
  | c :: rest, pen =>
    if isTextBreak c then literalLines o indent true rest (textBreak o pen c)
    else
      let pen := if atBreak then pen.indentTo o indent else pen
      literalLines o indent false rest (pen.writeRaw [c])

def literal (o : Options) (indent : Nat) (cs : List Char) (pen : Pen) : Pen :=
  literalLines o indent true cs (pen.blockHeader o '|' cs)

/-- Runs of a folded text. `dark` if the line before did not start with a space. -/
def foldedRuns (o : Options) (indent : Nat) (dark : Bool) : List Run → Pen → Pen
  | [], pen => pen
  | .breaks cs :: rest, pen =>
    let endsHere := rest.isEmpty
    let spaceNext :=
      match rest with
      | .spaces _ :: _ => true
      | _ => false
    let pen :=
      if dark && !endsHere && !spaceNext && cs.head? == some '\n' then pen.newLine o else pen
    let pen := cs.foldl (textBreak o) pen
    foldedRuns o indent (!spaceNext) rest (if endsHere then pen else pen.indentTo o indent)
  | .spaces n :: rest, pen =>
    foldedRuns o indent dark rest
      (if n == 1 && o.margin < pen.column then pen.indentTo o indent else pen.spaces n)
  | .word cs :: rest, pen =>
    let pen := pen.write cs
    foldedRuns o indent dark rest (if rest.isEmpty then pen.newLine o else pen)

def folded (o : Options) (indent : Nat) (cs : List Char) (pen : Pen) : Pen :=
  let pen := pen.blockHeader o '>' cs
  let runs := Run.ofText cs
  match runs with
  | .breaks _ :: _ => foldedRuns o indent false runs pen
  | .spaces _ :: _ => foldedRuns o indent false runs (pen.indentTo o indent)
  | _ => foldedRuns o indent true runs (pen.indentTo o indent)

/-- A text in a style, its lines at column `indent`. -/
def scalar (o : Options) (indent : Nat) (splits : Bool) (style : ScalarStyle) (cs : List Char)
    (pen : Pen) : Pen :=
  match style with
  | .plain => pen.plain o indent splits cs
  | .single => pen.single o indent splits cs
  | .double => pen.double o indent splits cs
  | .literal => pen.literal o indent cs
  | .folded => pen.folded o indent cs

end Pen

end StepGraph.Yaml
