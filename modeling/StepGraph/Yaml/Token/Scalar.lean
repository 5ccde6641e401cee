import StepGraph.Yaml.Token.Lexer

/-!
# Scalars

The texts of plain, quoted and block scalars. In all of them a single line break between words
becomes a space and each further one stays; the loops count their turns, of which every one reads
at least a character.
-/

set_option autoImplicit false

namespace StepGraph.Yaml.Lexer

open StepGraph.Text

/-- The text of a line break followed by others: the break itself if it is a separator, else a
space if it is alone and nothing if it is not. -/
def folded (first : Char) (others : List Char) : List Char :=
  (if first != '\n' then [first] else if others.isEmpty then [' '] else []) ++ others

/-! ## Plain scalars -/

/-- The characters of a plain scalar up to a gap, a colon that ends a key, or, in a flow
collection, one of its signs. -/
def plainWord (flow : Bool) : List Char → List Char
  | [] => []
  | c :: rest =>
    let next := rest.headD endChar
    if isGap c || (c == ':' && (isGap next || (flow && ",[]\x7b\x7d".toList.contains next)))
        || (flow && ",?[]\x7b\x7d".toList.contains c) then []
    else c :: plainWord flow rest

/-- The breaks after a first one, with the spaces around them; nothing if a document marker
starts a line. -/
def plainBreaks : Nat → Lexer (Option (List Char))
  | 0 => return some []
  | steps + 1 => do
    if (← get).atDocumentMarker then return none
    skipSpaces
    match ← lineBreak? with
    | none => return some []
    | some b => return (← plainBreaks steps).map (b :: ·)

/-- What separates this word of a plain scalar from the next one, and whether lines were ended;
nothing if there can be no next one. -/
def plainGap : Lexer (Option (List Char) × Bool) := do
  let spaces ← span (· == ' ')
  match ← lineBreak? with
  | none => return (if spaces.isEmpty then none else some spaces, false)
  | some first =>
    let others ← plainBreaks (← get).steps
    return (others.map (folded first), true)

/-- A plain scalar from here on, after `gap`: its text, where it stops, and whether the last gap
ended lines. -/
def plainFrom (flow : Bool) (indent : Int) (gap : List Char) (stop : Mark) (endedLine : Bool) :
    Nat → Lexer (List Char × Mark × Bool)
  | 0 => return ([], stop, endedLine)
  | steps + 1 => do
    let c ← get
    let word := if c.head == '#' then [] else plainWord flow c.rest
    if word.isEmpty then return ([], stop, endedLine)
    set (c.advanceBy word.length)
    let stop' ← mark
    let (next, ended) ← plainGap
    let here ← get
    match next with
    | none => return (gap ++ word, stop', ended)
    | some gap' =>
      if here.head == '#' || (!flow && (here.column : Int) < indent) then
        return (gap ++ word, stop', ended)
      else
        let (rest, last, ended') ← plainFrom flow indent gap' stop' ended steps
        return (gap ++ word ++ rest, last, ended')

/-- A plain scalar in a collection indented by `indent - 1`. -/
def plain (flow : Bool) (indent : Int) : Lexer (TokenKind × Mark × Bool) := do
  let c ← get
  let (text, stop, ended) ← plainFrom flow indent [] c.mark false c.steps
  return (.scalar (String.ofList text) true, stop, ended)

/-! ## Quoted scalars -/

/-- The characters that a backslash and one other character stand for. -/
def escapeTable : List (Char × Char) := [
  ('0', '\x00'), ('a', '\x07'), ('b', '\x08'), ('t', '\t'), ('\t', '\t'), ('n', '\n'),
  ('v', '\x0b'), ('f', '\x0c'), ('r', '\r'), ('e', '\x1b'), (' ', ' '), ('"', '"'),
  ('\\', '\\'), ('/', '/'), ('N', '\x85'), ('_', '\xa0'), ('L', '\u2028'), ('P', '\u2029')]

/-- How many hexadecimal digits follow an escape by number. -/
def escapeWidth? (c : Char) : Option Nat :=
  if c == 'x' then some 2 else if c == 'u' then some 4 else if c == 'U' then some 8 else none

/-- The breaks after a first one in a quoted scalar. -/
def quotedBreaks (start : Mark) : Nat → Lexer (List Char)
  | 0 => return []
  | steps + 1 => do
    if (← get).atDocumentMarker then failHere .quotedScalar start .documentInQuotedScalar
    let _ ← span fun c => c == ' ' || c == '\t'
    match ← lineBreak? with
    | none => return []
    | some b => return b :: (← quotedBreaks start steps)

/-- A character by its number in `width` hexadecimal digits. A surrogate, which a text cannot hold,
becomes the replacement character. A number past 31 bits is too large to be asked for at all. -/
def numberedEscape (start : Mark) (width : Nat) : Lexer (List Char) := do
  let c ← get
  match ((List.range width).map c.peek).find? (!isHexDigit ·) with
  | some bad => failHere .doubleQuoted start (.expectedHexDigits width bad)
  | none =>
    let code := readHex (c.rest.take width)
    if 0x7FFFFFFF < code then throw (.fault .tooLarge)
    if 0x10FFFF < code then throw (.fault .noSuchCharacter)
    set (c.advanceBy width)
    return [if 0xD800 ≤ code ∧ code ≤ 0xDFFF then '\uFFFD' else Char.ofNat code]

/-- What a backslash and the characters after it stand for. -/
def escape (start : Mark) : Lexer (List Char) := do
  advance
  let c ← head
  match escapeTable.lookup c, escapeWidth? c with
  | some replacement, _ =>
    advance
    return [replacement]
  | none, some width =>
    advance
    numberedEscape start width
  | none, none =>
    match ← lineBreak? with
    | some _ => quotedBreaks start (← get).steps
    | none => failHere .doubleQuoted start (.unknownEscape c)

/-- The text up to the next gap or the closing quote. -/
def quotedWord (double : Bool) (start : Mark) : Nat → Lexer (List Char)
  | 0 => return []
  | steps + 1 => do
    let run ← span fun c => !(isGap c || c == '\'' || c == '"' || c == '\\')
    let c ← get
    let quote := c.head
    if !double && quote == '\'' && c.peek 1 == '\'' then
      set (c.advanceBy 2)
      return run ++ '\'' :: (← quotedWord double start steps)
    else if (double && quote == '\'') || (!double && (quote == '"' || quote == '\\')) then
      advance
      return run ++ quote :: (← quotedWord double start steps)
    else if double && quote == '\\' then
      let chars ← escape start
      return run ++ chars ++ (← quotedWord double start steps)
    else return run

/-- The blanks and breaks between two words. -/
def quotedGap (start : Mark) : Lexer (List Char) := do
  let blanks ← span fun c => c == ' ' || c == '\t'
  if (← head) == endChar then failHere .quotedScalar start .endInQuotedScalar
  match ← lineBreak? with
  | none => return blanks
  | some first => return folded first (← quotedBreaks start (← get).steps)

/-- The text up to the closing quote. -/
def quotedText (double : Bool) (start : Mark) : Nat → Lexer (List Char)
  | 0 => return []
  | steps + 1 => do
    let word ← quotedWord double start (← get).steps
    if (← head) == (if double then '"' else '\'') then return word
    let gap ← quotedGap start
    return word ++ gap ++ (← quotedText double start steps)

def quoted (double : Bool) : Lexer TokenKind := do
  let start ← mark
  advance
  let text ← quotedText double start (← get).steps
  advance
  return .scalar (String.ofList text) false

/-! ## Block scalars -/

/-- What the header of a block scalar says: keep, strip or clip the breaks at the end, and how
far the text is indented. -/
structure BlockHeader where
  keep : Option Bool
  indent : Option Nat

def chomping? : Lexer (Option Bool) := do
  let c ← head
  if c == '+' || c == '-' then
    advance
    return some (c == '+')
  else return none

def indentation? (start : Mark) : Lexer (Option Nat) := do
  let c ← head
  if c.isDigit then
    if c == '0' then failHere .blockScalar start .zeroIndentation
    advance
    return some (c.toNat - '0'.toNat)
  else return none

def blockHeader (start : Mark) : Lexer BlockHeader := do
  let keep ← chomping?
  let indent ← indentation? start
  let keep' ← if keep.isNone && indent.isSome then chomping? else pure keep
  expect endsWord .blockScalar start .expectedBlockIndicators
  return ⟨keep', indent⟩

/-- The breaks of empty lines, with at most `indent` columns of spaces before and after each, and
the place after the last break. -/
def blockBreaks (indent : Nat) : Nat → Mark → Lexer (List Char × Mark)
  | 0, stop => return ([], stop)
  | steps + 1, stop => do
    let c ← get
    let room := indent - c.column
    set (c.advanceBy ((c.rest.take room).takeWhile (· == ' ')).length)
    match ← lineBreak? with
    | none => return ([], stop)
    | some b =>
      let (others, last) ← blockBreaks indent steps (← mark)
      return (b :: others, last)

/-- The breaks of leading lines that hold only spaces, the place after the last one, and the
widest run of spaces. -/
def leadingLines : Nat → Mark → Lexer (List Char × Mark × Nat)
  | 0, stop => return ([], stop, 0)
  | steps + 1, stop => do
    let spaces ← span (· == ' ')
    let here ← get
    let width := if spaces.isEmpty then 0 else here.column
    match ← lineBreak? with
    | none => return ([], stop, width)
    | some b =>
      let (others, last, widest) ← leadingLines steps (← mark)
      return (b :: others, last, max width widest)

/-- The lines of a block scalar after `breaks`, with the break and the further breaks that end the
last one. -/
def blockLines (folding : Bool) (indent : Nat) (breaks : List Char) (stop : Mark) :
    Nat → Lexer (List Char × List Char × List Char × Mark)
  | 0 => return ([], [], breaks, stop)
  | steps + 1 => do
    let c ← get
    if c.column != indent || c.head == endChar then return ([], [], breaks, stop)
    let startsDark := !(c.head == ' ' || c.head == '\t')
    let line ← span fun ch => !endsLine ch
    let lineEnd ← lineBreak?
    let (others, last) ← blockBreaks indent (← get).steps (← mark)
    let next ← get
    let text := breaks ++ line
    if next.column == indent && next.head != endChar then
      let joins := folding && lineEnd == some '\n' && startsDark
        && !(next.head == ' ' || next.head == '\t')
      let between :=
        if joins then (if others.isEmpty then [' '] else []) else lineEnd.toList
      let (rest, lastEnd, lastBreaks, finish) ← blockLines folding indent others last steps
      return (text ++ between ++ rest, lastEnd, lastBreaks, finish)
    else return (text, lineEnd.toList, others, last)

/-- A block scalar in a collection indented by `parent`. -/
def block (folding : Bool) (parent : Int) : Lexer (TokenKind × Mark) := do
  let start ← mark
  advance
  let header ← blockHeader start
  endOfLine .blockScalar start
  let least := (max 1 (parent + 1)).toNat
  let here ← get
  let (breaks, stop, indent) ←
    match header.indent with
    | none => do
      let (breaks, stop, widest) ← leadingLines here.steps here.mark
      pure (breaks, stop, max least widest)
    | some n => do
      let indent := least + n - 1
      let (breaks, stop) ← blockBreaks indent here.steps here.mark
      pure (breaks, stop, indent)
  let (text, lastEnd, lastBreaks, finish) ←
    blockLines folding indent breaks stop (← get).steps
  let kept := (if header.keep == some false then [] else lastEnd)
    ++ (if header.keep == some true then lastBreaks else [])
  return (.scalar (String.ofList (text ++ kept)) false, finish)

end StepGraph.Yaml.Lexer
