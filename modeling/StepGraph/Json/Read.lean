import StepGraph.Fault
import StepGraph.Num.Numeral
import StepGraph.Value.Basic

/-!
# Reading JSON

`Json.read` reads a text as one JSON value. Besides the numbers of the format it takes `NaN`,
`Infinity` and `-Infinity`; a number with a fraction or an exponent is a double, any other a whole
number. Where an object repeats a key the first place and the last value count.

An error is a `Problem` and the index of the character where it shows. While reading, a place is
known by the number of characters that are left.
-/

set_option autoImplicit false

namespace StepGraph.Json

open Text

inductive Problem
  | byteOrderMark
  | expectedValue
  | expectedKey
  | expectedColon
  | expectedComma
  | extraData
  | controlCharacter
  | badEscape
  | badCodeUnit
  | unterminated
  deriving DecidableEq, Repr

def Problem.describe : Problem → String
  | .byteOrderMark => "Unexpected UTF-8 BOM (decode using utf-8-sig)"
  | .expectedValue => "Expecting value"
  | .expectedKey => "Expecting property name enclosed in double quotes"
  | .expectedColon => "Expecting ':' delimiter"
  | .expectedComma => "Expecting ',' delimiter"
  | .extraData => "Extra data"
  | .controlCharacter => "Invalid control character at"
  | .badEscape => "Invalid \\escape"
  | .badCodeUnit => "Invalid \\uXXXX escape"
  | .unterminated => "Unterminated string starting at"

structure Error where
  problem : Problem
  index : Nat
  deriving DecidableEq

/-- The problem with its line, column and index, the first two counted from one. -/
def Error.message (text : List Char) (e : Error) : String :=
  let before := text.take e.index
  let column := (before.reverse.takeWhile (· != '\n')).length
  e.problem.describe ++ ": line " ++ toString (before.count '\n' + 1)
    ++ " column " ++ toString (column + 1) ++ " (char " ++ toString e.index ++ ")"

/-- A problem, and how many characters were left. -/
structure Flaw where
  problem : Problem
  left : Nat

/-- Reports a problem at the start of what is left. -/
def problemAt {α : Type} (problem : Problem) (left : List Char) : Attempt Flaw α :=
  report ⟨problem, left.length⟩

def isSpace (c : Char) : Bool :=
  c == ' ' || c == '\t' || c == '\n' || c == '\r'

def skipSpace (cs : List Char) : List Char :=
  cs.dropWhile isSpace

/-! ## Strings -/

/-- The characters with an escape of one letter. -/
def escapes : List (Char × Char) := [
  ('"', '"'), ('\\', '\\'), ('/', '/'), ('b', '\x08'), ('f', '\x0c'), ('n', '\n'), ('r', '\r'),
  ('t', '\t')]

/-- The code unit after `\u`. Something must follow its four digits. -/
def codeUnit (cs : List Char) : Attempt Flaw (Nat × List Char) :=
  let digits := cs.take 4
  let rest := cs.drop 4
  if digits.length = 4 ∧ digits.all isHexDigit ∧ rest ≠ [] then .ok (readHex digits, rest)
  else report ⟨.badCodeUnit, cs.length + 1⟩

def isHighSurrogate (n : Nat) : Bool := 0xD800 ≤ n && n < 0xDC00

def isLowSurrogate (n : Nat) : Bool := 0xDC00 ≤ n && n < 0xE000

/-- The character of a code unit. A surrogate on its own, which a text cannot hold, becomes the
replacement character. -/
def charOfUnit (n : Nat) : Char :=
  if 0xD800 ≤ n ∧ n < 0xE000 then '\uFFFD' else Char.ofNat n

/-- The character after `\u`: one code unit, or two that form a surrogate pair. -/
def codePoint (cs : List Char) : Attempt Flaw (Char × List Char) := do
  let (high, rest) ← codeUnit cs
  match rest with
  | '\\' :: 'u' :: afterMark =>
    if isHighSurrogate high && 6 < rest.length then
      let (low, after) ← codeUnit afterMark
      if isLowSurrogate low then
        return (Char.ofNat (0x10000 + 0x400 * (high - 0xD800) + (low - 0xDC00)), after)
      else return (charOfUnit high, rest)
    else return (charOfUnit high, rest)
  | _ => return (charOfUnit high, rest)

/-- The characters of a string up to its closing quote; `start` characters were left before its
opening quote. -/
def stringChars (start : Nat) : Nat → List Char → Attempt Flaw (List Char × List Char)
  | 0, _ => report ⟨.unterminated, start⟩
  | _, [] => report ⟨.unterminated, start⟩
  | _, '"' :: rest => .ok ([], rest)
  | _, ['\\'] => report ⟨.unterminated, start⟩
  | steps + 1, '\\' :: 'u' :: rest => do
    let (c, after) ← codePoint rest
    let (cs, left) ← stringChars start steps after
    return (c :: cs, left)
  | steps + 1, '\\' :: letter :: rest =>
    match escapes.lookup letter with
    | some c => do
      let (cs, left) ← stringChars start steps rest
      return (c :: cs, left)
    | none => problemAt .badEscape ('\\' :: letter :: rest)
  | steps + 1, c :: rest =>
    if c.toNat < 0x20 then problemAt .controlCharacter (c :: rest)
    else do
      let (cs, left) ← stringChars start steps rest
      return (c :: cs, left)

/-- The string after its opening quote. -/
def string (cs : List Char) : Attempt Flaw (String × List Char) := do
  let (chars, rest) ← stringChars (cs.length + 1) (cs.length + 1) cs
  return (String.ofList chars, rest)

/-! ## Numbers -/

def isDigit (c : Char) : Bool :=
  '0' ≤ c && c ≤ '9'

def digitValues (digits : List Char) : List Nat :=
  digits.map fun c => c.toNat - '0'.toNat

/-- The digits of a whole number: a zero alone, or a run that starts with none. -/
def wholeDigits : List Char → List Char × List Char
  | '0' :: rest => (['0'], rest)
  | cs => cs.span isDigit

/-- The digits of a fraction, if the point has one after it. -/
def fractionDigits : List Char → List Char × List Char
  | '.' :: rest =>
    match rest.span isDigit with
    | ([], _) => ([], '.' :: rest)
    | found => found
  | cs => ([], cs)

/-- The exponent, if its letter has one after it. -/
def exponent? : List Char → Option (Int × List Char)
  | c :: rest =>
    if c = 'e' ∨ c = 'E' then
      let (negative, body) := Numeral.sign rest
      match body.span isDigit with
      | ([], _) => none
      | (digits, after) =>
        let n : Int := Numeral.ofDigits 10 (digitValues digits)
        some (if negative then -n else n, after)
    else none
  | [] => none

def number (cs : List Char) : Attempt Flaw (Value × List Char) :=
  let (negative, body) : Bool × List Char :=
    match cs with
    | '-' :: rest => (true, rest)
    | _ => (false, cs)
  match wholeDigits body with
  | ([], _) => problemAt .expectedValue cs
  | (whole, afterWhole) =>
    let (fraction, afterFraction) := fractionDigits afterWhole
    let float (exponent : Int) : Value :=
      .float (.ofDecimal negative (Numeral.ofDigits 10 (digitValues (whole ++ fraction)))
        (exponent - fraction.length))
    match exponent? afterFraction with
    | some (exponent, rest) => .ok (float exponent, rest)
    | none =>
      if fraction ≠ [] then .ok (float 0, afterFraction)
      else if Numeral.maxDigits < whole.length then breakOff .notANumber
      else
        let n : Int := Numeral.ofDigits 10 (digitValues whole)
        .ok (.int (if negative then -n else n), afterFraction)

/-! ## Values -/

/-- The words that stand for a value. -/
def constants : List (String × Value) := [
  ("null", .null), ("true", .bool true), ("false", .bool false), ("NaN", .float .nan),
  ("Infinity", .float (.infinity false)), ("-Infinity", .float (.infinity true))]

/-- A constant or a number. -/
def plain (cs : List Char) : Attempt Flaw (Value × List Char) :=
  match constants.find? fun constant => constant.1.toList.isPrefixOf cs with
  | some (word, v) => .ok (v, cs.drop word.length)
  | none => number cs

mutual

/-- One value. Of two steps at least one takes a character. -/
def value : Nat → List Char → Attempt Flaw (Value × List Char)
  | 0, cs => problemAt .expectedValue cs
  | _, [] => problemAt .expectedValue []
  | _, '"' :: rest => do
    let (s, left) ← string rest
    return (.str s, left)
  | steps + 1, '[' :: rest =>
    match skipSpace rest with
    | ']' :: left => .ok (.list [], left)
    | cs => do
      let (found, left) ← items steps cs
      return (.list found, left)
  | steps + 1, '\x7b' :: rest =>
    match skipSpace rest with
    | '\x7d' :: left => .ok (.map [], left)
    | cs => do
      let (found, left) ← members steps cs
      return (.map (Entries.ofPairs found), left)
  | _, cs => plain cs

/-- The items of a list up to its closing bracket. -/
def items : Nat → List Char → Attempt Flaw (List Value × List Char)
  | 0, cs => problemAt .expectedValue cs
  | steps + 1, cs => do
    let (first, rest) ← value steps cs
    match skipSpace rest with
    | ']' :: left => return ([first], left)
    | ',' :: after =>
      let (others, left) ← items steps (skipSpace after)
      return (first :: others, left)
    | left => problemAt .expectedComma left

/-- The members of an object up to its closing brace. -/
def members : Nat → List Char → Attempt Flaw (List (Scalar × Value) × List Char)
  | 0, cs => problemAt .expectedKey cs
  | steps + 1, '"' :: rest => do
    let (key, afterKey) ← string rest
    match skipSpace afterKey with
    | ':' :: afterColon =>
      let (v, afterValue) ← value steps (skipSpace afterColon)
      match skipSpace afterValue with
      | '\x7d' :: left => return ([(.str key, v)], left)
      | ',' :: after =>
        let (others, left) ← members steps (skipSpace after)
        return ((.str key, v) :: others, left)
      | left => problemAt .expectedComma left
    | left => problemAt .expectedColon left
  | _, cs => problemAt .expectedKey cs

end

/-- A text that is one value and blanks around it. -/
def wholeText (text : List Char) : Attempt Flaw Value :=
  if text.head? = some '\uFEFF' then problemAt .byteOrderMark text
  else do
    let (v, rest) ← value (2 * text.length + 2) (skipSpace text)
    match skipSpace rest with
    | [] => return v
    | left => problemAt .extraData left

def read (text : List Char) : Attempt Error Value :=
  (wholeText text).widen fun flaw => ⟨flaw.problem, text.length - flaw.left⟩

end StepGraph.Json
