import StepGraph.Num.Numeral
import StepGraph.Yaml.Token.Lexer

/-!
# Directives, anchors and tags

The tokens that start with `%`, `&`, `*` and `!`. A tag is read as it is written: a handle between
exclamation marks, the rest, percent escapes decoded as UTF-8.
-/

set_option autoImplicit false

namespace StepGraph.Yaml.Lexer

open StepGraph.Text

/-! ## Tags -/

/-- Octets written as percent signs and two hexadecimal digits each. -/
def octets (activity : Activity) (start : Mark) : Nat → Lexer (List Nat)
  | 0 => return []
  | steps + 1 => do
    if (← head) != '%' then return []
    advance
    let c ← get
    if !isHexDigit (c.peek 0) then failHere activity start (.expectedOctet (c.peek 0))
    if !isHexDigit (c.peek 1) then failHere activity start (.expectedOctet (c.peek 1))
    set (c.advanceBy 2)
    let rest ← octets activity start steps
    return readHex [c.peek 0, c.peek 1] :: rest

/-- The characters that a run of escaped octets stands for. -/
def escapedText (activity : Activity) (start : Mark) : Lexer (List Char) := do
  let place ← mark
  let bytes ← octets activity start (← get).steps
  match Utf8.decode bytes with
  | .ok chars => return chars
  | .error fault => fail activity start (.undecodable fault) place

/-- The characters of a tag from here on, and whether there are any. -/
def uriChars (activity : Activity) (start : Mark) : Nat → Lexer (List Char × Bool)
  | 0 => return ([], false)
  | steps + 1 => do
    let plain ← span fun c => isUriChar c && c != '%'
    if (← head) == '%' then
      let escaped ← escapedText activity start
      let (rest, _) ← uriChars activity start steps
      return (plain ++ escaped ++ rest, true)
    else return (plain, !plain.isEmpty)

/-- The characters of a tag; `missing` names what lacks them. -/
def uri (activity missing : Activity) (start : Mark) : Lexer String := do
  let (chars, found) ← uriChars activity start (← get).steps
  if found then return String.ofList chars
  else failHere missing start (.expectedUri (← head))

/-- A handle: an exclamation mark, alone before a space, else after a name and before a second
one. -/
def handle (activity : Activity) (start : Mark) : Lexer String := do
  expect (· == '!') activity start .expectedExclamation
  let c ← get
  let afterMark := c.advance
  if afterMark.head == ' ' then
    set afterMark
    return "!"
  let (name, afterName) := afterMark.span isNameChar
  set afterName
  eat (· == '!') activity start .expectedExclamation
  return String.ofList ('!' :: name ++ ['!'])

/-- Whether an exclamation mark comes before the end of the word. -/
def wordHasExclamation (c : Cursor) : Bool :=
  (c.rest.takeWhile fun ch => !endsWord ch).contains '!'

def tag : Lexer TokenKind := do
  let start ← mark
  let c ← get
  let next := c.peek 1
  let kind ←
    if next == '<' then do
      set (c.advanceBy 2)
      let suffix ← uri .tagText .tagBody start
      eat (· == '>') .tagBody start .expectedClosingAngle
      pure (TokenKind.tag none suffix)
    else if isGap next then do
      advance
      pure (TokenKind.tag none "!")
    else if wordHasExclamation c.advance then do
      let h ← handle .tagText start
      let suffix ← uri .tagText .tagBody start
      pure (TokenKind.tag (some h) suffix)
    else do
      advance
      let suffix ← uri .tagText .tagBody start
      pure (TokenKind.tag (some "!") suffix)
  expect endsWord .tagText start .expectedSpace
  return kind

/-! ## Anchors and aliases -/

/-- What may follow the name of an anchor. -/
def endsAnchor (c : Char) : Bool :=
  isGap c || "?:,]\x7d%@`".toList.contains c

def anchorName (activity : Activity) : Lexer String := do
  let start ← mark
  advance
  let name ← span isNameChar
  if name.isEmpty then failHere activity start (.expectedNameChar (← head))
  expect endsAnchor activity start .expectedNameChar
  return String.ofList name

/-! ## Directives -/

def decimalNumber (start : Mark) : Lexer Nat := do
  expect Char.isDigit .directiveLine start .expectedDigit
  let digits ← span Char.isDigit
  return Numeral.ofDigits 10 (digits.map fun d => d.toNat - '0'.toNat)

def versionDirective (start : Mark) : Lexer Directive := do
  skipSpaces
  let major ← decimalNumber start
  eat (· == '.') .directiveLine start .expectedDigitOrPoint
  let minor ← decimalNumber start
  expect endsWord .directiveLine start .expectedDigitOrSpace
  return .version major minor

def tagDirective (start : Mark) : Lexer Directive := do
  skipSpaces
  let h ← handle .directiveLine start
  expect (· == ' ') .directiveLine start .expectedSpace
  skipSpaces
  let leading ← uri .directiveLine .directiveTag start
  expect endsWord .directiveLine start .expectedSpace
  return .tag h leading

/-- A directive with the place where its own text ends, and the rest of its line. -/
def directive : Lexer (TokenKind × Mark) := do
  let start ← mark
  advance
  let name ← span isNameChar
  if name.isEmpty then failHere .directiveLine start (.expectedNameChar (← head))
  expect endsWord .directiveLine start .expectedNameChar
  let d ←
    if String.ofList name == "YAML" then versionDirective start
    else if String.ofList name == "TAG" then tagDirective start
    else pure .unknown
  let stop ← mark
  if d == .unknown then modify Cursor.skipLine
  endOfLine .directiveLine start
  return (.directive d, stop)

end StepGraph.Yaml.Lexer
