import StepGraph.Yaml.Cursor
import StepGraph.Yaml.Options

/-!
# The styles a text can be written in

`TextTraits.of` finds what about a text rules out styles: signs of the notation, line breaks,
blanks at its ends or around breaks, characters that need an escape. `TextTraits.style` chooses the
style from these, from the place the scalar stands in, and from the style asked for; double quotes
serve where nothing else does.
-/

set_option autoImplicit false

namespace StepGraph.Yaml

/-- A break that a written text can hold: no carriage return. -/
def isTextBreak (c : Char) : Bool :=
  c == '\n' || c == '\x85' || c == '\u2028' || c == '\u2029'

structure TextTraits where
  empty : Bool
  multiline : Bool
  flowPlain : Bool
  blockPlain : Bool
  single : Bool
  block : Bool
  deriving DecidableEq, Repr

namespace TextTraits

/-- A character that cannot be written as itself outside double quotes. -/
def isSpecial (unicode : Bool) (c : Char) : Bool :=
  let n := c.toNat
  let ascii := c == '\n' || (0x20 ≤ n && n ≤ 0x7E)
  let other := n == 0x85 || (0xA0 ≤ n && n ≤ 0xD7FF)
    || (0xE000 ≤ n && n ≤ 0xFFFD && n != 0xFEFF) || (0x10000 ≤ n && n < 0x10FFFF)
  !ascii && !(unicode && other)

/-- Whether some character and the one after it satisfy `p` and `q`. -/
def hasPair (p q : Char → Bool) : List Char → Bool
  | a :: b :: rest => (p a && q b) || hasPair p q (b :: rest)
  | _ => false

def startsLikeMarker (cs : List Char) : Bool :=
  cs.take 3 == ['-', '-', '-'] || cs.take 3 == ['.', '.', '.']

/-- Characters that are signs at the start of a text, wherever it stands. -/
def startSigns : List Char := "#,[]\x7b\x7d&*!|>'\"%@`".toList

/-- Characters that are signs later in a text in a flow collection. -/
def innerFlowSigns : List Char := ",?[]\x7b\x7d".toList

def nextIsGap (rest : List Char) : Bool :=
  isGap (rest.headD endChar)

/-- Whether signs after the first character, which `before` stands before, rule out plain style in
block context. -/
def innerBlockSigns : Char → List Char → Bool
  | _, [] => false
  | before, c :: rest =>
    (c == ':' && nextIsGap rest) || (c == '#' && isGap before) || innerBlockSigns c rest

/-- The same in flow context. -/
def innerFlowSignsFrom : Char → List Char → Bool
  | _, [] => false
  | before, c :: rest =>
    innerFlowSigns.contains c || c == ':' || (c == '#' && isGap before)
      || innerFlowSignsFrom c rest

def blockSigns : List Char → Bool
  | [] => false
  | c :: rest =>
    startsLikeMarker (c :: rest) || startSigns.contains c
      || ((c == '?' || c == ':' || c == '-') && nextIsGap rest) || innerBlockSigns c rest

def flowSigns : List Char → Bool
  | [] => false
  | c :: rest =>
    startsLikeMarker (c :: rest) || startSigns.contains c || c == '?' || c == ':'
      || (c == '-' && nextIsGap rest) || innerFlowSignsFrom c rest

def of (unicode : Bool) (cs : List Char) : TextTraits :=
  match cs with
  | [] => ⟨true, false, false, true, true, false⟩
  | first :: _ =>
    let last := cs.getLastD ' '
    let isSpace := (· == ' ')
    let lines := cs.any isTextBreak
    let edges := isSpace first || isTextBreak first || isSpace last || isTextBreak last
    let breakSpace := hasPair isTextBreak isSpace cs
    let awkward := hasPair isSpace isTextBreak cs || cs.any (isSpecial unicode)
    let plain := !edges && !breakSpace && !awkward && !lines
    { empty := false
      multiline := lines
      flowPlain := plain && !flowSigns cs
      blockPlain := plain && !blockSigns cs
      single := !breakSpace && !awkward
      block := !isSpace last && !awkward }

/-- Where a scalar stands. -/
structure Place where
  inFlow : Bool
  /-- A key on the line of its value. -/
  simpleKey : Bool

/-- The style of a scalar; `implicit` if its plain text has the right type. -/
def style (t : TextTraits) (place : Place) (canonical implicit : Bool)
    (asked : Option ScalarStyle) : ScalarStyle :=
  let plainFits := !(place.simpleKey && (t.empty || t.multiline))
    && (if place.inFlow then t.flowPlain else t.blockPlain)
  let blockFits := !place.inFlow && !place.simpleKey && t.block
  let singleFits := t.single && !(place.simpleKey && t.multiline)
  if asked = some .double ∨ canonical then .double
  else
    match asked with
    | some .literal => if blockFits then .literal else .double
    | some .folded => if blockFits then .folded else .double
    | some .single => if singleFits then .single else .double
    | _ =>
      if implicit && plainFits then .plain else if singleFits then .single else .double

end TextTraits

end StepGraph.Yaml
