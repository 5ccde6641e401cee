import StepGraph.Num.Number
import StepGraph.Num.Numeral

/-!
# Decimal text of numbers

`Decimal.shortest` finds the fewest significant digits that read back as the given double, and of
those the nearest: it walks the powers of ten downwards and stops at the first grid that has a
point in the interval of values rounding to the double. `FloatStyle` holds what a format decides
about the text around the digits: where positional notation ends, whether the exponent form needs
a point, and how the values without digits are spelt.
-/

set_option autoImplicit false

namespace StepGraph

/-- The value `digits * 10 ^ power`. -/
structure Decimal where
  digits : Nat
  power : Int
  deriving DecidableEq, Repr

namespace Decimal

/-- The natural numbers `low`, `value` and `high`, over one denominator: a finite positive double
and the ends of the interval of values that round to it. -/
structure Interval where
  low : Nat
  value : Nat
  high : Nat
  den : Nat
  /-- Whether the ends themselves round to the double. -/
  closed : Bool

/-- The ends lie half a unit away, a quarter below a power of two. -/
def Interval.ofDouble (m : Nat) (e : Int) : Interval :=
  let atPower := m = 1 <<< 52 ∧ -1074 < e
  let low := if atPower then 4 * m - 1 else 4 * m - 2
  let up := (e - 2).toNat
  let down := (2 - e).toNat
  ⟨low <<< up, (4 * m) <<< up, (4 * m + 2) <<< up, 1 <<< down, m % 2 == 0⟩

/-- Whether `digits * unit / unitDen` lies in the interval. -/
def Interval.contains (i : Interval) (digits unit unitDen : Nat) : Bool :=
  let x := digits * unit * i.den
  let low := i.low * unitDen
  let high := i.high * unitDen
  (low < x && x < high) || (i.closed && (x == low || x == high))

/-- The point of the grid `unit / unitDen` nearest to the value among the two neighbours that lie
in the interval, a tie going to the even one. -/
def Interval.gridPoint? (i : Interval) (unit unitDen : Nat) : Option Nat :=
  let num := i.value * unitDen
  let den := i.den * unit
  let below := num / den
  let fits (d : Nat) := d != 0 && i.contains d unit unitDen
  if fits below && fits (below + 1) then some (Double.roundQuotient num den)
  else if fits below then some below
  else if fits (below + 1) then some (below + 1)
  else none

/-- Tries the grids `10 ^ power`, `10 ^ (power - 1)`, …. -/
def Interval.search (i : Interval) : Nat → Int → Decimal
  | 0, power => ⟨0, power⟩
  | steps + 1, power =>
    match i.gridPoint? (Nat.pow 10 power.toNat) (Nat.pow 10 (-power).toNat) with
    | some digits => ⟨digits, power⟩
    | none => i.search steps (power - 1)

/-- The shortest decimal that reads back as `m * 2 ^ e`, for a positive `m`. The first grid is
coarser than the value, and twenty grids hold all seventeen digit counts. -/
def shortest (m : Nat) (e : Int) : Decimal :=
  let first := ((m.log2 : Int) + e + 1) * 30103 / 100000 + 1
  (Interval.ofDouble m e).search 20 first

end Decimal

/-- What a format decides about the text of a double. -/
structure FloatStyle where
  /-- Decimal exponents from here up to `positionalEnd` are written positionally. -/
  positionalStart : Int
  positionalEnd : Int
  /-- Whether a lone digit before an exponent gets a point and a zero. -/
  pointBeforeExponent : Bool
  nan : String
  infinity : String
  deriving DecidableEq

namespace FloatStyle

/-- Messages show doubles positionally from `1e-4` up to `1e16`. -/
def report : FloatStyle :=
  ⟨-4, 16, false, "nan", "inf"⟩

/-- The exponent's sign and at least two digits. -/
def exponentText (e : Int) : String :=
  let digits := toString e.natAbs
  "e" ++ (if e < 0 then "-" else "+") ++ (if e.natAbs < 10 then "0" ++ digits else digits)

/-- The text of `d`, which is nonzero or the digit zero. -/
def magnitude (style : FloatStyle) (d : Decimal) : String :=
  let digits := Nat.toDigits 10 d.digits
  let count : Int := digits.length
  let exponent := count + d.power - 1
  if style.positionalStart ≤ exponent ∧ exponent < style.positionalEnd then
    if 0 ≤ d.power then
      String.ofList (digits ++ List.replicate d.power.toNat '0') ++ ".0"
    else if 0 ≤ exponent then
      let whole := (exponent + 1).toNat
      String.ofList (digits.take whole ++ '.' :: digits.drop whole)
    else
      "0." ++ String.ofList (List.replicate (-exponent - 1).toNat '0' ++ digits)
  else
    let body :=
      match digits with
      | [single] => String.singleton single ++ (if style.pointBeforeExponent then ".0" else "")
      | first :: rest => String.ofList (first :: '.' :: rest)
      | [] => ""
    body ++ exponentText exponent

def write (style : FloatStyle) : Double → String
  | .nan => style.nan
  | .infinity negative => (if negative then "-" else "") ++ style.infinity
  | .finite negative m e _ =>
    (if negative then "-" else "") ++ style.magnitude (if m = 0 then ⟨0, 0⟩ else .shortest m e)

end FloatStyle

namespace Number

/-- A whole number in decimal, however long, and a double in the given style. -/
def spelled (style : FloatStyle) : Number → String
  | .int n => toString n
  | .float d => style.write d

/-- Whether a number can be written: a whole number has no more digits than one that can be read. -/
def isWritable : Number → Bool
  | .int n => decide ((Nat.toDigits 10 n.natAbs).length ≤ Numeral.maxDigits)
  | .float _ => true

end Number

end StepGraph
