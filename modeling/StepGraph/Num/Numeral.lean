import StepGraph.Num.Double
import StepGraph.Text.Blank
import StepGraph.Text.Digit

/-!
# Numerals

`Numeral.readInt` and `Numeral.readFloat` read a whole text as one number. Blanks may stand
around it and a sign before it; single underscores may separate digits; the digits may be those of
any script. A whole number of base two, eight or sixteen may carry its base marker (`0b`, `0o`,
`0x`), and one of base ten has at most `maxDigits` digits.
-/

set_option autoImplicit false

namespace StepGraph.Numeral

open Text

/-- A longer numeral of base ten is refused, in reading as in writing. -/
def maxDigits : Nat := 4300

/-- The sign of a numeral and what follows it. -/
def sign : List Char → Bool × List Char
  | '-' :: rest => (true, rest)
  | '+' :: rest => (false, rest)
  | cs => (false, cs)

/-- Digits, each pair of neighbours with at most one underscore between them; `separated` tells
whether an underscore may come next. -/
def digitsFrom? (base : Nat) : Bool → List Char → Option (List Nat)
  | separated, [] => if separated then some [] else none
  | separated, '_' :: rest => if separated then digitsFrom? base false rest else none
  | _, c :: rest =>
    match digit? base c with
    | some d => (digitsFrom? base true rest).map (d :: ·)
    | none => none

/-- A run of one or more digits. -/
def digits? (base : Nat) (cs : List Char) : Option (List Nat) :=
  digitsFrom? base false cs

def ofDigits (base : Nat) (ds : List Nat) : Nat :=
  ds.foldl (fun n d => base * n + d) 0

/-- What follows the base marker, if the numeral has the one of its base. An underscore may stand
between the marker and the digits. -/
def dropMarker (base : Nat) (cs : List Char) : List Char :=
  let unmarked (lower upper : Char) : List Char :=
    match cs with
    | '0' :: m :: rest =>
      if m = lower ∨ m = upper then
        match rest with
        | '_' :: digits => digits
        | digits => digits
      else cs
    | _ => cs
  if base = 2 then unmarked 'b' 'B'
  else if base = 8 then unmarked 'o' 'O'
  else if base = 16 then unmarked 'x' 'X'
  else cs

def readInt (base : Nat) (cs : List Char) : Option Int :=
  let (negative, body) := sign (trimBlanks cs)
  match digits? base (dropMarker base body) with
  | none => none
  | some ds =>
    if base = 10 ∧ maxDigits < ds.length then none
    else
      let n : Int := ofDigits base ds
      some (if negative then -n else n)

/-! ## Fractions -/

def isDigit (c : Char) : Bool :=
  (decimalDigit? c).isSome

/-- A run of digits and underscores, and the rest. -/
def run (cs : List Char) : List Char × List Char :=
  cs.span fun c => isDigit c || c == '_'

/-- The exponent after its letter: nothing, or a signed run of digits. -/
def exponent? : List Char → Option Int
  | [] => some 0
  | c :: rest =>
    if c = 'e' ∨ c = 'E' then
      let (negative, body) := sign rest
      (digits? 10 body).map fun ds =>
        let n : Int := ofDigits 10 ds
        if negative then -n else n
    else none

/-- A run that may be empty. -/
def optionalDigits? (cs : List Char) : Option (List Nat) :=
  if cs.isEmpty then some [] else digits? 10 cs

/-- Digits with a point among them, at least one digit in all, and an exponent. -/
def decimal? (negative : Bool) (cs : List Char) : Option Double :=
  let (whole, afterWhole) := run cs
  let (fraction, afterFraction) :=
    match afterWhole with
    | '.' :: rest => run rest
    | rest => ([], rest)
  match optionalDigits? whole, optionalDigits? fraction, exponent? afterFraction with
  | some w, some f, some e =>
    if w.isEmpty && f.isEmpty then none
    else some (.ofDecimal negative (ofDigits 10 (w ++ f)) (e - f.length))
  | _, _, _ => none

/-- A decimal fraction, an infinity or not a number, these by their words in any case. -/
def readFloat (cs : List Char) : Option Double :=
  let (negative, body) := sign (trimBlanks cs)
  let word := String.ofList (lowerAscii body)
  if word = "inf" ∨ word = "infinity" then some (.infinity negative)
  else if word = "nan" then some .nan
  else decimal? negative body

end StepGraph.Numeral
