import StepGraph.Yaml.Token.Property
import StepGraph.Yaml.Token.Scalar

/-!
# From text to tokens

A colon makes a key of what stands before it on its line, so a token that could start such a key
is held back, with all tokens after it, until the question is settled: a `PossibleKey` is the
number of the token it would precede. `Scanner.fetch` reads one more token, `Scanner.release` gives
out the tokens no possible key can still precede, and `Token.scan` alternates the two. Tokens that
were given out before an error stay; the error is met only by who asks for the next token.
-/

set_option autoImplicit false

namespace StepGraph.Yaml

/-- A place that a colon may still turn into the start of a key. -/
structure PossibleKey where
  /-- The number of the token that the key would come before, counted over the whole text. -/
  number : Nat
  /-- Whether only a key can stand here: in a block mapping, at its indentation. -/
  required : Bool
  mark : Mark

/-- A key lies on one line and has at most this many characters. -/
def keyReach : Nat := 1024

def PossibleKey.isStale (key : PossibleKey) (c : Cursor) : Bool :=
  key.mark.line != c.line || keyReach < c.index - key.mark.index

structure Scanner where
  cursor : Cursor
  /-- Open brackets less closed ones; zero in block context. -/
  flowLevel : Int
  /-- Column of the innermost block collection, minus one outside all of them. -/
  indent : Int
  /-- The same of the collections around it, innermost first. -/
  outer : List Int
  /-- Whether a key may start at the next token. -/
  keyAllowed : Bool
  /-- At most one possible key for each flow level. -/
  keys : List (Int × PossibleKey)
  /-- Tokens read and not given out, in order. -/
  queue : List Token
  /-- The number of tokens given out. -/
  released : Nat
  finished : Bool

namespace Scanner

def ofText (text : List Char) : Scanner :=
  ⟨.ofText text, 0, -1, [], true, [], [], 0, false⟩

abbrev Step := Scanner → Attempt Error Scanner

def inFlow (s : Scanner) : Bool :=
  s.flowLevel != 0

def mark (s : Scanner) : Mark :=
  s.cursor.mark

def column (s : Scanner) : Int :=
  s.cursor.column

def push (kind : TokenKind) (start stop : Mark) (s : Scanner) : Scanner :=
  { s with queue := s.queue ++ [⟨kind, start, stop⟩] }

/-- A token of no width at the cursor. -/
def pushHere (kind : TokenKind) (s : Scanner) : Scanner :=
  s.push kind s.mark s.mark

/-- A token of the next `n` characters. -/
def pushSign (kind : TokenKind) (n : Nat) (s : Scanner) : Scanner :=
  let after := s.cursor.advanceBy n
  { s.push kind s.mark after.mark with cursor := after }

def allowKey (allowed : Bool) (s : Scanner) : Scanner :=
  { s with keyAllowed := allowed }

/-! ## Possible keys -/

def failKey (key : PossibleKey) (s : Scanner) : Attempt Error Scanner :=
  fail .simpleKey key.mark .keyWithoutColon s.mark

/-- Gives up the keys that the cursor has left behind. -/
def dropStaleKeys : Step := fun s =>
  match s.keys.find? fun key => key.2.isStale s.cursor && key.2.required with
  | some key => s.failKey key.2
  | none => .ok { s with keys := s.keys.filter fun key => !key.2.isStale s.cursor }

def currentKey? (s : Scanner) : Option PossibleKey :=
  s.keys.lookup s.flowLevel

def forgetKey (s : Scanner) : Scanner :=
  { s with keys := s.keys.filter fun key => key.1 != s.flowLevel }

/-- Gives up the possible key of this flow level. -/
def dropKey : Step := fun s =>
  match s.currentKey? with
  | some key => if key.required then s.failKey key else .ok s.forgetKey
  | none => .ok s

/-- Notes that a key may start here, if one may. -/
def noteKey : Step := fun s =>
  if s.keyAllowed then do
    let key : PossibleKey :=
      ⟨s.released + s.queue.length, !s.inFlow && s.indent == s.column, s.mark⟩
    let s ← s.dropKey
    return { s with keys := (s.flowLevel, key) :: s.keys }
  else .ok s

/-! ## Indentation -/

/-- Closes the block collections indented deeper than `column`, each of `outer` at most once. -/
def closeBlocksFrom (column : Int) : List Int → Scanner → Scanner
  | [], s => s
  | around :: rest, s =>
    if column < s.indent then
      closeBlocksFrom column rest { s.pushHere .blockEnd with indent := around, outer := rest }
    else s

def closeBlocks (column : Int) (s : Scanner) : Scanner :=
  if s.inFlow then s else closeBlocksFrom column s.outer s

/-- Enters a block collection at `column`, if that is deeper than the current one; tells whether
it is. -/
def enterBlock (column : Int) (s : Scanner) : Bool × Scanner :=
  if s.indent < column then
    (true, { s with indent := column, outer := s.indent :: s.outer })
  else (false, s)

/-- Enters a block collection that starts at the cursor, unless it is entered already. -/
def openBlock (kind : TokenKind) (s : Scanner) : Scanner :=
  let (entered, s') := s.enterBlock s.column
  if entered then s'.pushHere kind else s'

/-- Inserts tokens before the token with the given number. -/
def insertBefore (number : Nat) (tokens : List Token) (s : Scanner) : Scanner :=
  let at_ := number - s.released
  { s with queue := s.queue.take at_ ++ tokens ++ s.queue.drop at_ }

/-! ## Tokens -/

/-- Past spaces, comments and line breaks. A break in block context allows a key. -/
def skipGaps : Nat → Scanner → Scanner
  | 0, s => s
  | steps + 1, s =>
    let c := s.cursor.skipSpaces.skipComment
    match c.lineBreak? with
    | some (_, after) =>
      skipGaps steps { s with cursor := after, keyAllowed := s.keyAllowed || !s.inFlow }
    | none => { s with cursor := c }

/-- To the next token. A byte order mark at the very start is skipped. -/
def toNextToken (s : Scanner) : Scanner :=
  let c := s.cursor
  let c := if c.index = 0 ∧ c.head = '\uFEFF' then c.advance else c
  skipGaps c.steps { s with cursor := c }

/-- Leaves all block collections and the possible key, before a token at the margin. -/
def toMargin : Step := fun s => do
  let s ← (s.closeBlocks (-1)).dropKey
  return s.allowKey false

def streamEnd : Step := fun s => do
  let s ← s.toMargin
  return { s.pushHere .streamEnd with keys := [], finished := true }

/-- Reads a token with `read`, which also says where the token stops. -/
def pushRead {α : Type} (read : Lexer α) (token : α → Cursor → TokenKind × Mark)
    (s : Scanner) : Attempt Error (α × Scanner) := do
  let (x, after) ← read.run s.cursor
  let (kind, stop) := token x after
  return (x, { s.push kind s.mark stop with cursor := after })

def directive : Step := fun s => do
  let s ← s.toMargin
  return (← s.pushRead Lexer.directive fun x _ => x).2

def documentMarker (kind : TokenKind) : Step := fun s => do
  return (← s.toMargin).pushSign kind 3

def flowStart (kind : TokenKind) : Step := fun s => do
  let s ← s.noteKey
  return { s.pushSign kind 1 with flowLevel := s.flowLevel + 1, keyAllowed := true }

def flowEnd (kind : TokenKind) : Step := fun s => do
  let s ← s.dropKey
  return { s.pushSign kind 1 with flowLevel := s.flowLevel - 1, keyAllowed := false }

def flowEntry : Step := fun s => do
  return (← (s.allowKey true).dropKey).pushSign .flowEntry 1

def blockEntry : Step := fun s => do
  if !s.inFlow && !s.keyAllowed then failAt .sequenceNotAllowed s.mark
  let s := if s.inFlow then s else s.openBlock .blockSequenceStart
  return (← (s.allowKey true).dropKey).pushSign .blockEntry 1

def key : Step := fun s => do
  if !s.inFlow && !s.keyAllowed then failAt .keyNotAllowed s.mark
  let s := if s.inFlow then s else s.openBlock .blockMappingStart
  return (← (s.allowKey !s.inFlow).dropKey).pushSign .key 1

/-- A colon: it turns the possible key of this flow level into a key, or else follows a key that
was marked or left out. -/
def value : Step := fun s => do
  match s.currentKey? with
  | some found =>
    let s := s.forgetKey
    let keyToken : Token := ⟨.key, found.mark, found.mark⟩
    let s := s.insertBefore found.number [keyToken]
    let (entered, s) := if s.inFlow then (false, s) else s.enterBlock found.mark.column
    let s :=
      if entered then
        s.insertBefore found.number [⟨.blockMappingStart, found.mark, found.mark⟩]
      else s
    return (s.allowKey false).pushSign .value 1
  | none =>
    if !s.inFlow && !s.keyAllowed then failAt .valueNotAllowed s.mark
    let s := if s.inFlow then s else s.openBlock .blockMappingStart
    return (← (s.allowKey !s.inFlow).dropKey).pushSign .value 1

/-- A token that can start a key and after which none can start. -/
def keyPart (read : Lexer TokenKind) : Step := fun s => do
  let s ← s.noteKey
  return (← (s.allowKey false).pushRead read fun kind after => (kind, after.mark)).2

def aliasToken : Step :=
  keyPart (TokenKind.alias <$> Lexer.anchorName .aliasName)

def anchor : Step :=
  keyPart (TokenKind.anchor <$> Lexer.anchorName .anchorName)

def tag : Step :=
  keyPart Lexer.tag

def quoted (double : Bool) : Step :=
  keyPart (Lexer.quoted double)

def block (folding : Bool) : Step := fun s => do
  let s ← (s.allowKey true).dropKey
  return (← s.pushRead (Lexer.block folding s.indent) fun x _ => x).2

def plain : Step := fun s => do
  let s ← s.noteKey
  let (read, s) ← s.pushRead (Lexer.plain s.inFlow (s.indent + 1)) fun x _ => (x.1, x.2.1)
  return s.allowKey read.2.2

/-! ## Choosing the token -/

/-- Whether a sign is followed by a gap, as block context asks of it. -/
def signStandsAlone (s : Scanner) : Bool :=
  isGap (s.cursor.peek 1)

/-- The characters that no plain scalar starts with, unless it is `-`, `?` or `:` before a dark
character. -/
def isIndicator (c : Char) : Bool :=
  "-?:,[]\x7b\x7d#&*!|>'\"%@`".toList.contains c

def startsPlain (s : Scanner) : Bool :=
  let c := s.cursor.head
  !(isGap c || isIndicator c)
    || (!s.signStandsAlone && (c == '-' || (!s.inFlow && (c == '?' || c == ':'))))

/-- Reads the token at the cursor. -/
def readToken : Step := fun s =>
  let c := s.cursor.head
  let atMargin := s.cursor.column == 0
  let marker := atMargin && s.cursor.atDocumentMarker
  if c == endChar then s.streamEnd
  else if c == '%' && atMargin then s.directive
  else if c == '-' && marker then s.documentMarker .documentStart
  else if c == '.' && marker then s.documentMarker .documentEnd
  else if c == '[' then s.flowStart .flowSequenceStart
  else if c == '\x7b' then s.flowStart .flowMappingStart
  else if c == ']' then s.flowEnd .flowSequenceEnd
  else if c == '\x7d' then s.flowEnd .flowMappingEnd
  else if c == ',' then s.flowEntry
  else if c == '-' && s.signStandsAlone then s.blockEntry
  else if c == '?' && (s.inFlow || s.signStandsAlone) then s.key
  else if c == ':' && (s.inFlow || s.signStandsAlone) then s.value
  else if c == '*' then s.aliasToken
  else if c == '&' then s.anchor
  else if c == '!' then s.tag
  else if c == '|' && !s.inFlow then s.block false
  else if c == '>' && !s.inFlow then s.block true
  else if c == '\'' then s.quoted false
  else if c == '"' then s.quoted true
  else if s.startsPlain then s.plain
  else report (.at_ (some (.nextToken, none)) (.cannotStartToken c) s.mark)

/-- Reads one more token, with the block collections that end before it. -/
def fetch : Step := fun s => do
  let s ← s.toNextToken.dropStaleKeys
  (s.closeBlocks s.column).readToken

/-- How many tokens no possible key can still precede. -/
def settled (s : Scanner) : Nat :=
  s.keys.foldl (fun n key => min n (key.2.number - s.released)) s.queue.length

/-- Gives out the settled tokens. -/
def release (s : Scanner) : List Token × Scanner :=
  let n := s.settled
  (s.queue.take n, { s with queue := s.queue.drop n, released := s.released + n })

/-- Every turn reads at least one character, but for the last one. -/
def run : Nat → Scanner → List Token × Option (Failure Error)
  | 0, _ => ([], none)
  | steps + 1, s =>
    match s.fetch with
    | .error e => ([], some e)
    | .ok s =>
      if s.finished then (s.queue, none)
      else
        match s.dropStaleKeys with
        | .error e => ([], some e)
        | .ok s =>
          let (tokens, s) := s.release
          let (rest, failure) := run steps s
          (tokens ++ rest, failure)

end Scanner

/-- The tokens of a text up to its end, or up to the first failure. -/
def Token.scan (text : List Char) : List Token × Option (Failure Error) :=
  (Scanner.ofText text).run (text.length + 1)

end StepGraph.Yaml
