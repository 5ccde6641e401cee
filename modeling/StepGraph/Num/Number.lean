import StepGraph.Num.Double

/-!
# Numbers of a workflow document

A `Number` is a whole number of any size or a double; the two kinds are kept apart when they are
stored and written, and compared by their exact values (`Number.sameValue`, `Number.lt`).
`Number.normal` is the form in which numbers of equal value coincide.
-/

set_option autoImplicit false

namespace StepGraph

inductive Number
  | int (n : Int)
  | float (d : Double)
  deriving DecidableEq, Inhabited

namespace Number

def isNaN : Number → Bool
  | .int _ => false
  | .float d => d.isNaN

/-- The exact value of a number that has one. -/
def toRat? : Number → Option Rat
  | .int n => some n
  | .float d => d.toRat?

/-- A double with a whole value becomes that whole number; other numbers stay as they are. -/
def normal : Number → Number
  | .int n => .int n
  | .float d =>
    match d.toRat? with
    | some q => if q.den = 1 then .int q.num else .float d
    | none => .float d

/-- Equality of exact values. Not a number equals nothing. -/
def sameValue (a b : Number) : Bool :=
  !a.isNaN && !b.isNaN && a.normal == b.normal

/-- Where a number stands on the line that is extended by both infinities. -/
def rank? : Number → Option (Int × Rat)
  | .int n => some (0, n)
  | .float .nan => none
  | .float (.infinity negative) => some (if negative then -1 else 1, 0)
  | .float d => d.toRat?.map (0, ·)

/-- Comparison of exact values; not a number is comparable to nothing. -/
def lt (a b : Number) : Bool :=
  match a.rank?, b.rank? with
  | some (i, p), some (j, q) => decide (i < j ∨ (i = j ∧ p < q))
  | _, _ => false

def toDouble : Number → Double
  | .int n => .ofInt n
  | .float d => d

/-- Whether a number is a whole one beyond the largest double. -/
def isHuge : Number → Bool
  | .int n => !(Double.ofInt n).isFinite
  | .float _ => false

/-- Whether two numbers have a distance: a whole number beyond the doubles has none from a
double. -/
def hasDistance : Number → Number → Bool
  | .int _, .int _ => true
  | a, b => !a.isHuge && !b.isHuge

/-- The distance, if there is one: exact between whole numbers, otherwise in double arithmetic. -/
def distance : Number → Number → Number
  | .int m, .int n => .int (m - n).natAbs
  | a, b => .float (a.toDouble.sub b.toDouble).abs

def zero : Number :=
  .int 0

/-- Zero of either kind and either sign. -/
def isZero (a : Number) : Bool :=
  a.sameValue zero

end Number

end StepGraph
