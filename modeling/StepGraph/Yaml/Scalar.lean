import StepGraph.Num.Numeral
import StepGraph.Value.Basic
import StepGraph.Yaml.Error
import StepGraph.Yaml.Tag

/-!
# Scalars by their tags

What the text of a scalar means under each tag for which it means one value. Numbers ignore
underscores and may count in sixties, the groups separated by colons. The texts that a plain
scalar gets such a tag for are nearly always readable; a tag that is written out may stand before
any text, and a text that is no number then ends in a fault.
-/

set_option autoImplicit false

namespace StepGraph.Yaml

open StepGraph.Text

private def orNotANumber {α : Type} : Option α → Attempt Error α
  | some x => .ok x
  | none => breakOff .notANumber

private def allOrNotANumber {α : Type} (read : List Char → Option α) :
    List (List Char) → Attempt Error (List α)
  | [] => .ok []
  | part :: rest => do
    let x ← orNotANumber (read part)
    return x :: (← allOrNotANumber read rest)

/-- The text without underscores, its sign and what follows the sign; the text must not be
empty. -/
def signed (cs : List Char) : Attempt Error (Bool × List Char) :=
  match cs.filter (· != '_') with
  | [] => breakOff .emptyNumeral
  | kept => .ok (Numeral.sign kept)

def readInt (cs : List Char) : Attempt Error Int := do
  let (negative, body) ← signed cs
  let magnitude : Int ←
    match body with
    | [] => breakOff .emptyNumeral
    | ['0'] => .ok 0
    | '0' :: 'b' :: digits => orNotANumber (Numeral.readInt 2 digits)
    | '0' :: 'x' :: digits => orNotANumber (Numeral.readInt 16 digits)
    | '0' :: _ => orNotANumber (Numeral.readInt 8 body)
    | _ =>
      if body.contains ':' then do
        let groups ← allOrNotANumber (Numeral.readInt 10) (splitAround ':' body)
        pure (groups.foldl (fun n group => 60 * n + group) 0)
      else orNotANumber (Numeral.readInt 10 body)
  return if negative then -magnitude else magnitude

/-- The sum of groups, the last one counting once, the one before it sixty times, and so on, each
product and each sum rounded. -/
def sumSixties (groups : List Double) : Attempt Error Double :=
  go (Double.zero false) 1 groups.reverse
where
  go (sum : Double) (unit : Int) : List Double → Attempt Error Double
    | [] => .ok sum
    | group :: rest =>
      let factor := Double.ofInt unit
      if factor.isFinite then go (sum.add (group.mul factor)) (60 * unit) rest
      else breakOff .tooLarge

def readFloat (cs : List Char) : Attempt Error Double := do
  let (negative, body) ← signed (lowerAscii cs)
  let magnitude ←
    if body == ".inf".toList then pure (Double.infinity false)
    else if body == ".nan".toList then pure Double.nan
    else if body.contains ':' then do
      sumSixties (← allOrNotANumber Numeral.readFloat (splitAround ':' body))
    else orNotANumber (Numeral.readFloat body)
  return if negative then magnitude.neg else magnitude

def readBool (cs : List Char) : Attempt Error Bool :=
  let word := String.ofList (lowerAscii cs)
  if ["yes", "true", "on"].contains word then .ok true
  else if ["no", "false", "off"].contains word then .ok false
  else breakOff .unknownWord

/-- How the text of a scalar is read under a tag that is one of a scalar. -/
def scalarReader? : CoreTag → Option (String → Attempt Error Scalar)
  | .null => some fun _ => .ok .null
  | .bool => some fun text => Scalar.bool <$> readBool text.toList
  | .int => some fun text => Scalar.int <$> readInt text.toList
  | .float => some fun text => Scalar.float <$> readFloat text.toList
  | .str => some fun text => .ok (.str text)
  | _ => none

end StepGraph.Yaml
