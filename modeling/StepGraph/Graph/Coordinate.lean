import StepGraph.Num.Number
import StepGraph.Num.Numeral

/-!
# Coordinates given as text

An editor may hand over a coordinate as an ASCII text, blanks around it not counting.
`Coordinate.ofText?` reads it as a whole number if it can (`Coordinate.whole?`), and as a double
otherwise (`Coordinate.double?`). Underscores separate digits. Of a whole number zeros may stand
before the digits and before the minus sign, and a fraction of zeros after them; a point without
digits after it makes a double.
-/

set_option autoImplicit false

namespace StepGraph.Coordinate

open Text

/-- The text without its underscores, each between two other characters; `inside` tells whether
one may come next. -/
def joinedFrom? : Bool → List Char → Option (List Char)
  | inside, [] => if inside then some [] else none
  | inside, '_' :: rest => if inside then joinedFrom? false rest else none
  | _, c :: rest => (joinedFrom? true rest).map (c :: ·)

/-- The text without its underscores, none of which may stand at an end or next to another; an
empty text is refused as well. -/
def joined? (cs : List Char) : Option (List Char) :=
  joinedFrom? false cs

/-- The text without a plus sign, which must not come before a minus sign. -/
def dropPlus : List Char → List Char
  | '+' :: '-' :: rest => '+' :: '-' :: rest
  | '+' :: rest => rest
  | cs => cs

/-- The text without a fraction of one or more zeros. -/
def dropZeroFraction (cs : List Char) : List Char :=
  match cs.span (· != '.') with
  | (whole, '.' :: '0' :: rest) => if rest.all (· == '0') then whole else cs
  | _ => cs

/-- The text without the zeros that it starts with, and the underscores among and after them. -/
def dropZeros : List Char → List Char
  | '0' :: rest => rest.dropWhile fun c => c == '0' || c == '_'
  | cs => cs

/-- Digits after an optional minus sign, not more than a numeral may have. -/
def signed? (cs : List Char) : Option Int :=
  let (negative, digits) : Bool × List Char :=
    match cs with
    | '-' :: rest => (true, rest)
    | _ => (false, cs)
  match Numeral.digits? 10 digits with
  | none => none
  | some ds =>
    if Numeral.maxDigits < ds.length then none
    else
      let n : Int := Numeral.ofDigits 10 ds
      some (if negative then -n else n)

/-- The whole number that a text stands for. Zeros alone are zero unless an underscore ends them. -/
def whole? (cs : List Char) : Option Int :=
  let cs := dropZeroFraction (dropPlus cs)
  match dropZeros cs with
  | [] => if cs.getLast? = some '0' then some 0 else none
  | rest => (joined? rest).bind signed?

/-- The double that a text stands for. -/
def double? (cs : List Char) : Option Double :=
  (joined? cs).bind Numeral.readFloat

def ofText? (s : String) : Option Number :=
  let cs := trimBlanks s.toList
  if cs.any (0x7F < ·.toNat) then none
  else
    match whole? cs with
    | some n => some (.int n)
    | none => (double? cs).map .float

end StepGraph.Coordinate
