/-!
# Double-precision numbers

A `Double` is the exact value that 64 bits of floating point stand for: not a number, an infinity,
or a signed `mantissa * 2 ^ exponent` in the one canonical form the format has for it. Arithmetic
computes the exact rational result and rounds it once, to the nearest double, a tie to the even
mantissa (`Double.ofRatio`); a result beyond the largest double becomes an infinity.

Everything here is integer and rational arithmetic, so closed statements about it evaluate.
-/

set_option autoImplicit false

namespace StepGraph

/-- The pairs `m * 2 ^ e` the format has room for, each value written one way: a mantissa of 53
bits, or of fewer at the smallest exponent. -/
def Double.Canonical (m : Nat) (e : Int) : Prop :=
  m < 1 <<< 53 ∧ -1074 ≤ e ∧ e ≤ 971 ∧ (1 <<< 52 ≤ m ∨ e = -1074)

instance (m : Nat) (e : Int) : Decidable (Double.Canonical m e) := by
  unfold Double.Canonical; infer_instance

inductive Double
  | nan
  | infinity (negative : Bool)
  | finite (negative : Bool) (mantissa : Nat) (exponent : Int)
      (canonical : Double.Canonical mantissa exponent)
  deriving DecidableEq

namespace Double

def zero (negative : Bool) : Double :=
  .finite negative 0 (-1074) (by decide)

instance : Inhabited Double := ⟨zero false⟩

/-- The quotient rounded to the nearest natural number, a tie to the even one. -/
def roundQuotient (num den : Nat) : Nat :=
  let q := num / den
  let r := num % den
  if den < 2 * r ∨ (den = 2 * r ∧ q % 2 = 1) then q + 1 else q

/-- `num / den` divided by `2 ^ e`, as a pair. -/
def scaleDown (num den : Nat) (e : Int) : Nat × Nat :=
  if 0 ≤ e then (num, den <<< e.toNat) else (num <<< (-e).toNat, den)

/-- The exponent at which `num / den` has a mantissa of 53 bits, or the smallest exponent. -/
def exponentFor (num den : Nat) : Int :=
  let e : Int := (num.log2 : Int) - den.log2 - 52
  let scaled := scaleDown num den e
  max (-1074) (if scaled.1 < scaled.2 <<< 52 then e - 1 else e)

/-- The double nearest to `num / den`; beyond the largest double, an infinity. -/
def ofRatio (negative : Bool) (num den : Nat) : Double :=
  if num = 0 then zero negative
  else
    let e := exponentFor num den
    let scaled := scaleDown num den e
    let m := roundQuotient scaled.1 scaled.2
    let me : Nat × Int := if m = 1 <<< 53 then (1 <<< 52, e + 1) else (m, e)
    if h : Canonical me.1 me.2 then .finite negative me.1 me.2 h else .infinity negative

/-- The double nearest to `m * 2 ^ e`. -/
def ofScaled (negative : Bool) (m : Nat) (e : Int) : Double :=
  if 0 ≤ e then ofRatio negative (m <<< e.toNat) 1 else ofRatio negative m (1 <<< (-e).toNat)

def ofRat (q : Rat) : Double :=
  ofRatio (decide (q < 0)) q.num.natAbs q.den

def ofInt (n : Int) : Double :=
  ofRatio (decide (n < 0)) n.natAbs 1

/-- The double nearest to `digits * 10 ^ power`. Powers far outside the format's range are settled
without being computed. -/
def ofDecimal (negative : Bool) (digits : Nat) (power : Int) : Double :=
  if digits = 0 then zero negative
  else if 400 < power then .infinity negative
  else if power < -400 - (digits.log2 : Int) then zero negative
  else if 0 ≤ power then ofRatio negative (digits * Nat.pow 10 power.toNat) 1
  else ofRatio negative digits (Nat.pow 10 (-power).toNat)

/-- The exact value of a finite double. -/
def toRat? : Double → Option Rat
  | .finite negative m e _ =>
    let q : Rat := (m : Rat) * (2 : Rat) ^ e
    some (if negative then -q else q)
  | _ => none

def isNaN : Double → Bool
  | .nan => true
  | _ => false

def isFinite : Double → Bool
  | .finite .. => true
  | _ => false

def isNegative : Double → Bool
  | .nan => false
  | .infinity negative => negative
  | .finite negative .. => negative

def neg : Double → Double
  | .nan => .nan
  | .infinity negative => .infinity (!negative)
  | .finite negative m e h => .finite (!negative) m e h

def abs : Double → Double
  | .nan => .nan
  | .infinity _ => .infinity false
  | .finite _ m e h => .finite false m e h

/-- The rounded sum. A sum of zero is negative only when both terms are. -/
def add (a b : Double) : Double :=
  match a.toRat?, b.toRat? with
  | some p, some q =>
    if p + q = 0 then zero (a.isNegative && b.isNegative) else ofRat (p + q)
  | some _, none => b
  | none, some _ => a
  | none, none => if a = b then a else .nan

def sub (a b : Double) : Double :=
  a.add b.neg

/-- The rounded product. Zero times an infinity is not a number. -/
def mul (a b : Double) : Double :=
  let negative := a.isNegative != b.isNegative
  match a.toRat?, b.toRat? with
  | some p, some q => ofRatio negative (p * q).num.natAbs (p * q).den
  | some p, none => if p = 0 ∨ b.isNaN then .nan else .infinity negative
  | none, some q => if q = 0 ∨ a.isNaN then .nan else .infinity negative
  | none, none => if a.isNaN ∨ b.isNaN then .nan else .infinity negative

/-! ## Square root -/

/-- Bits `k - 1` down to `0` of a root whose higher bits are `root`. -/
def floorSqrtFrom (n : Nat) : Nat → Nat → Nat
  | 0, root => root
  | k + 1, root =>
    if (root + 2 ^ k) * (root + 2 ^ k) ≤ n then floorSqrtFrom n k (root + 2 ^ k)
    else floorSqrtFrom n k root

/-- The largest natural number whose square is at most `n`. -/
def floorSqrt (n : Nat) : Nat :=
  floorSqrtFrom n (n.log2 / 2 + 1) 0

/-- The rounded square root. The radicand is scaled by an even power of two to 105 or 106 bits, so
that its integer root has the 53 bits of a mantissa; half a unit is never hit exactly. -/
def sqrt : Double → Double
  | .finite false m e h =>
    if m = 0 then .finite false m e h
    else
      let widest := 105 - m.log2
      let shift := if (e - widest) % 2 = 0 then widest else widest - 1
      let n := m <<< shift
      let root := floorSqrt n
      ofScaled false (if root * (root + 1) < n then root + 1 else root) ((e - shift) / 2)
  | .finite true 0 e h => .finite true 0 e h
  | .infinity false => .infinity false
  | _ => .nan

end Double

end StepGraph
