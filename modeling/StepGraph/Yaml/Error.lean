import StepGraph.Fault
import StepGraph.Text.Quoted
import StepGraph.Text.Utf8
import StepGraph.Yaml.Token.Basic

/-!
# Errors in YAML text

An error says what was being read (`Activity`), what is wrong (`Problem`) and where. Its message
puts these on lines of their own, the place of the activity only where it differs from the place of
the problem; a place is shown with the line of the text around it.
-/

set_option autoImplicit false

namespace StepGraph.Yaml

/-- Collections nested deeper are refused, in reading as in writing. Both take a call for each level
and end at the recursion limit of the interpreter, which this number stands for. -/
def maxNesting : Nat := 325

inductive Activity
  | nextToken
  | simpleKey
  | directiveLine
  | directiveTag
  | anchorName
  | aliasName
  | tagText
  | tagBody
  | blockScalar
  | doubleQuoted
  | quotedScalar
  | node
  | blockNode
  | flowNode
  | blockCollection
  | blockMapping
  | flowSequence
  | flowMapping
  | mappingValue
  | singleDocument
  | firstAnchor (name : String)
  deriving DecidableEq

/-- The three forms of a node. -/
inductive NodeForm
  | scalar
  | sequence
  | mapping
  deriving DecidableEq

def NodeForm.name : NodeForm → String
  | .scalar => "scalar"
  | .sequence => "sequence"
  | .mapping => "mapping"

inductive Problem
  | cannotStartToken (found : Char)
  | keyWithoutColon
  | sequenceNotAllowed
  | keyNotAllowed
  | valueNotAllowed
  | expectedNameChar (found : Char)
  | expectedDigit (found : Char)
  | expectedDigitOrPoint (found : Char)
  | expectedDigitOrSpace (found : Char)
  | expectedSpace (found : Char)
  | expectedCommentOrBreak (found : Char)
  | expectedExclamation (found : Char)
  | expectedUri (found : Char)
  | expectedClosingAngle (found : Char)
  | expectedOctet (found : Char)
  | undecodable (fault : Text.Utf8.Fault)
  | zeroIndentation
  | expectedBlockIndicators (found : Char)
  | expectedHexDigits (count : Nat) (found : Char)
  | unknownEscape (found : Char)
  | endInQuotedScalar
  | documentInQuotedScalar
  | expectedDocumentStart (found : TokenKind)
  | secondVersion
  | incompatibleVersion
  | secondHandle (handle : String)
  | undefinedHandle (handle : String)
  | expectedNode (found : TokenKind)
  | expectedBlockEnd (found : TokenKind)
  | expectedCommaOrBracket (found : TokenKind)
  | expectedCommaOrBrace (found : TokenKind)
  | secondDocument
  | undefinedAlias (name : String)
  | secondAnchor
  | recursiveAlias (name : String)
  | expectedForm (expected found : NodeForm)
  | compositeKey
  | notMergeable (found : NodeForm)
  | notMergeableItem (found : NodeForm)
  | forbiddenTag (uri : String)
  | unknownTag (uri : String)
  deriving DecidableEq

inductive Error
  /-- A character that no text may contain. -/
  | character (c : Char) (index : Nat)
  | tooDeep
  | at_ (context : Option (Activity × Option Mark)) (problem : Problem) (place : Mark)
  deriving DecidableEq

def Activity.describe : Activity → String
  | .nextToken => "while scanning for the next token"
  | .simpleKey => "while scanning a simple key"
  | .directiveLine => "while scanning a directive"
  | .directiveTag => "while parsing a directive"
  | .anchorName => "while scanning an anchor"
  | .aliasName => "while scanning an alias"
  | .tagText => "while scanning a tag"
  | .tagBody => "while parsing a tag"
  | .blockScalar => "while scanning a block scalar"
  | .doubleQuoted => "while scanning a double-quoted scalar"
  | .quotedScalar => "while scanning a quoted scalar"
  | .node => "while parsing a node"
  | .blockNode => "while parsing a block node"
  | .flowNode => "while parsing a flow node"
  | .blockCollection => "while parsing a block collection"
  | .blockMapping => "while parsing a block mapping"
  | .flowSequence => "while parsing a flow sequence"
  | .flowMapping => "while parsing a flow mapping"
  | .mappingValue => "while constructing a mapping"
  | .singleDocument => "expected a single document in the stream"
  | .firstAnchor name => "found duplicate anchor " ++ Text.quoted name ++ "; first occurrence"

private def butFound (expected : String) (found : Char) : String :=
  "expected " ++ expected ++ ", but found " ++ Text.quoted (String.singleton found)

private def tokenFound (expected verb : String) (found : TokenKind) : String :=
  "expected " ++ expected ++ ", but " ++ verb ++ " " ++ Text.quoted found.name

def Problem.describe : Problem → String
  | .cannotStartToken c =>
    "found character " ++ Text.quoted (String.singleton c) ++ " that cannot start any token"
  | .keyWithoutColon => "could not find expected ':'"
  | .sequenceNotAllowed => "sequence entries are not allowed here"
  | .keyNotAllowed => "mapping keys are not allowed here"
  | .valueNotAllowed => "mapping values are not allowed here"
  | .expectedNameChar c => butFound "alphabetic or numeric character" c
  | .expectedDigit c => butFound "a digit" c
  | .expectedDigitOrPoint c => butFound "a digit or '.'" c
  | .expectedDigitOrSpace c => butFound "a digit or ' '" c
  | .expectedSpace c => butFound "' '" c
  | .expectedCommentOrBreak c => butFound "a comment or a line break" c
  | .expectedExclamation c => butFound "'!'" c
  | .expectedUri c => butFound "URI" c
  | .expectedClosingAngle c => butFound "'>'" c
  | .expectedOctet c => butFound "URI escape sequence of 2 hexadecimal numbers" c
  | .undecodable fault => fault.message
  | .zeroIndentation => "expected indentation indicator in the range 1-9, but found 0"
  | .expectedBlockIndicators c => butFound "chomping or indentation indicators" c
  | .expectedHexDigits count c =>
    butFound ("escape sequence of " ++ toString count ++ " hexadecimal numbers") c
  | .unknownEscape c => "found unknown escape character " ++ Text.quoted (String.singleton c)
  | .endInQuotedScalar => "found unexpected end of stream"
  | .documentInQuotedScalar => "found unexpected document separator"
  | .expectedDocumentStart t => tokenFound "'<document start>'" "found" t
  | .secondVersion => "found duplicate YAML directive"
  | .incompatibleVersion => "found incompatible YAML document (version 1.* is required)"
  | .secondHandle handle => "duplicate tag handle " ++ Text.quoted handle
  | .undefinedHandle handle => "found undefined tag handle " ++ Text.quoted handle
  | .expectedNode t => tokenFound "the node content" "found" t
  | .expectedBlockEnd t => tokenFound "<block end>" "found" t
  | .expectedCommaOrBracket t => tokenFound "',' or ']'" "got" t
  | .expectedCommaOrBrace t => tokenFound "',' or '\x7d'" "got" t
  | .secondDocument => "but found another document"
  | .undefinedAlias name => "found undefined alias " ++ Text.quoted name
  | .secondAnchor => "second occurrence"
  | .recursiveAlias name =>
    "recursive alias " ++ Text.quoted name ++ " is not allowed in workflow YAML"
  | .expectedForm expected found =>
    "expected a " ++ expected.name ++ " node, but found " ++ found.name
  | .compositeKey => "found unhashable key"
  | .notMergeable found =>
    "expected a mapping or list of mappings for merging, but found " ++ found.name
  | .notMergeableItem found => "expected a mapping for merging, but found " ++ found.name
  | .forbiddenTag uri => "tag " ++ Text.quoted uri ++ " is not allowed in workflow YAML"
  | .unknownTag uri => "could not determine a constructor for the tag " ++ Text.quoted uri

namespace Error

/-- The place of the problem, if it has one. -/
def place? : Error → Option Mark
  | .at_ _ _ place => some place
  | _ => none

/-- The message, for the text the error was found in. -/
def message (text : List Char) : Error → String
  | .character c index =>
    "unacceptable character #x" ++ String.ofList (Text.hex 4 c.toNat)
      ++ ": special characters are not allowed\n  in \"<unicode string>\", position "
      ++ toString index
  | .tooDeep => "document is nested too deeply"
  | .at_ context problem place =>
    let lines :=
      match context with
      | none => []
      | some (activity, none) => [activity.describe]
      | some (activity, some start) =>
        if start.line = place.line ∧ start.column = place.column then [activity.describe]
        else [activity.describe, start.describe text]
    "\n".intercalate (lines ++ [problem.describe, place.describe text])

end Error

/-- Reports a problem at a place, found while reading what began at `start`. -/
def fail {α : Type} (activity : Activity) (start : Mark) (problem : Problem) (place : Mark) :
    Attempt Error α :=
  report (.at_ (some (activity, some start)) problem place)

/-- Reports a problem at a place. -/
def failAt {α : Type} (problem : Problem) (place : Mark) : Attempt Error α :=
  report (.at_ none problem place)

end StepGraph.Yaml
