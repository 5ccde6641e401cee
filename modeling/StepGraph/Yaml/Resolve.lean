import StepGraph.Text.Pattern
import StepGraph.Yaml.Tag

/-!
# The type of a plain scalar

A plain scalar without a tag gets its type from its text. A `Rule` gives a tag to the texts of a
pattern that start with certain characters, and the first rule that applies wins; a text that no
rule applies to is a string. `standardRules` are the rules of YAML 1.1. `workflowRules`, by which
documents are read, differ in two points: words such as `yes` and `off` are no booleans, and
timestamps are strings.
-/

set_option autoImplicit false

namespace StepGraph.Yaml

open StepGraph.Text

structure Rule where
  tag : CoreTag
  /-- The characters with which a text of this rule starts. -/
  firsts : List Char
  /-- Whether the empty text is one, too. -/
  empty : Bool
  pattern : Pattern

namespace Rule

def digit : Pattern := .anyOf "0123456789"

def nonzero : Pattern := .anyOf "123456789"

def digits_ : Pattern := .many (.anyOf "0123456789_")

def sign : Pattern := .optional (.anyOf "-+")

/-- Groups of up to two digits after colons, counting in sixties. -/
def sixties : Pattern :=
  .some (.all [.char ':', .optional (.anyOf "012345"), digit])

def exponent : Pattern :=
  .optional (.all [.anyOf "eE", .anyOf "-+", .some digit])

def bool : Rule :=
  ⟨.bool, "yYnNtTfFoO".toList, false, .words [
    "yes", "Yes", "YES", "no", "No", "NO", "true", "True", "TRUE", "false", "False", "FALSE",
    "on", "On", "ON", "off", "Off", "OFF"]⟩

/-- The booleans of a workflow document. -/
def workflowBooleans : List String :=
  ["true", "True", "TRUE", "false", "False", "FALSE"]

def float : Rule :=
  ⟨.float, "-+0123456789.".toList, false, .choice [
    .all [sign, digit, digits_, .char '.', digits_, exponent],
    .all [.char '.', digit, digits_, exponent],
    .all [sign, digit, digits_, sixties, .char '.', digits_],
    .all [sign, .char '.', .words ["inf", "Inf", "INF"]],
    .all [.char '.', .words ["nan", "NaN", "NAN"]]]⟩

def int : Rule :=
  ⟨.int, "-+0123456789".toList, false, .choice [
    .all [sign, .word "0b", .some (.anyOf "01_")],
    .all [sign, .char '0', .some (.anyOf "01234567_")],
    .all [sign, .either (.char '0') (.both nonzero digits_)],
    .all [sign, .word "0x", .some (.anyOf "0123456789abcdefABCDEF_")],
    .all [sign, nonzero, digits_, sixties]]⟩

def merge : Rule :=
  ⟨.merge, ['<'], false, .word "<<"⟩

def null : Rule :=
  ⟨.null, ['~', 'n', 'N'], true, .words ["~", "null", "Null", "NULL", ""]⟩

def twoDigits : Pattern := .both digit digit

def oneOrTwoDigits : Pattern := .both digit (.optional digit)

def timestamp : Rule :=
  let blanks : Pattern := .anyOf " \t"
  let year : Pattern := .both twoDigits twoDigits
  let zone : Pattern :=
    .either (.char 'Z')
      (.all [.anyOf "-+", oneOrTwoDigits, .optional (.both (.char ':') twoDigits)])
  ⟨.timestamp, "0123456789".toList, false, .either
    (.all [year, .char '-', twoDigits, .char '-', twoDigits])
    (.all [
      year, .char '-', oneOrTwoDigits, .char '-', oneOrTwoDigits,
      .either (.anyOf "Tt") (.some blanks),
      oneOrTwoDigits, .char ':', twoDigits, .char ':', twoDigits,
      .optional (.both (.char '.') (.many digit)),
      .optional (.both (.many blanks) zone)])⟩

def value : Rule :=
  ⟨.value, ['='], false, .char '='⟩

/-- The signs that start no plain scalar, as the text of another one. -/
def yaml : Rule :=
  ⟨.yaml, ['!', '&', '*'], false, .words ["!", "&", "*"]⟩

/-- Whether a rule applies to a text. A line feed at the end of the text does not count. -/
def applies (rule : Rule) (cs : List Char) : Bool :=
  (match cs with
    | [] => rule.empty
    | c :: _ => rule.firsts.contains c)
    && (Pattern.both rule.pattern (.optional (.char '\n'))).accepts cs

end Rule

def standardRules : List Rule :=
  [.bool, .float, .int, .merge, .null, .timestamp, .value, .yaml]

def workflowRules : List Rule :=
  (standardRules.filter (·.tag != .timestamp)).map fun rule =>
    if rule.tag = .bool then { rule with pattern := .words Rule.workflowBooleans } else rule

/-- The tag of an untagged plain scalar. -/
def resolve (rules : List Rule) (cs : List Char) : CoreTag :=
  ((rules.find? (·.applies cs)).map Rule.tag).getD .str

end StepGraph.Yaml
