import Mathlib.Data.Nat.Sqrt
import StepGraph.Proofs.Num.Rounded

/-!
# Square roots of doubles

`floorSqrt` finds the bits of an integer root from the highest on: the root lies between the bits
that are known and the next number with these bits (`floorSqrtFrom_spec`), so it is `Nat.sqrt`
(`floorSqrt_eq`). `nearestRoot` is the whole number nearest to a root, and `nearestRoot_le_iff` says
when it is no larger than a given number.

* `exists_sqrt_eq`: a positive double is a whole number of more than 104 bits on a square scale, and
  its root is the nearest root of that number on the scale itself.
-/

set_option autoImplicit false

namespace StepGraph.Double

/-! ## Whole numbers -/

theorem floorSqrtFrom_succ (n k root : Nat) : floorSqrtFrom n (k + 1) root =
    if (root + 2 ^ k) * (root + 2 ^ k) ≤ n then floorSqrtFrom n k (root + 2 ^ k)
    else floorSqrtFrom n k root :=
  rfl

theorem floorSqrtFrom_spec {n k root : Nat} (hlow : root * root ≤ n)
    (hhigh : n < (root + 2 ^ k) * (root + 2 ^ k)) :
    floorSqrtFrom n k root * floorSqrtFrom n k root ≤ n ∧
      n < (floorSqrtFrom n k root + 1) * (floorSqrtFrom n k root + 1) := by
  induction k generalizing root with
  | zero => exact ⟨hlow, hhigh⟩
  | succ k ih =>
    rw [floorSqrtFrom_succ]
    split
    · have hnext : root + 2 ^ k + 2 ^ k = root + 2 ^ (k + 1) := by
        rw [Nat.pow_succ]
        omega
      exact ih ‹_› (by rwa [hnext])
    · exact ih hlow (Nat.lt_of_not_le ‹_›)

theorem floorSqrt_eq (n : Nat) : floorSqrt n = Nat.sqrt n := by
  have hlt : n < 2 ^ (n.log2 / 2 + 1) * 2 ^ (n.log2 / 2 + 1) := by
    rw [← Nat.pow_add]
    exact Nat.lt_log2_self.trans_le (Nat.pow_le_pow_right (by decide) (by omega))
  rw [← Nat.zero_add (2 ^ (n.log2 / 2 + 1))] at hlt
  exact Nat.eq_sqrt.2 (floorSqrtFrom_spec (Nat.zero_le n) hlt)

/-- The whole number nearest to the root of `n`. -/
def nearestRoot (n : Nat) : Nat :=
  if floorSqrt n * (floorSqrt n + 1) < n then floorSqrt n + 1 else floorSqrt n

theorem nearestRoot_le_iff {n b : Nat} : nearestRoot n ≤ b ↔ n ≤ b * (b + 1) := by
  have hlow := Nat.sqrt_le n
  have hhigh := Nat.lt_succ_sqrt n
  rw [nearestRoot, floorSqrt_eq]
  generalize Nat.sqrt n = root at *
  have hmono {c d : Nat} (hcd : c ≤ d) : c * (c + 1) ≤ d * (d + 1) :=
    Nat.mul_le_mul hcd (Nat.succ_le_succ hcd)
  split
  · -- the root is nearer to the next number, and `n` is below its square
    constructor
    · intro hb
      have hsquare : root.succ * root.succ ≤ b * (b + 1) := Nat.mul_le_mul hb (Nat.le_succ_of_le hb)
      omega
    · intro hn
      by_contra hb
      have := hmono (show b ≤ root by omega)
      omega
  · constructor
    · intro hb
      have := hmono hb
      omega
    · intro hn
      by_contra hb
      have hroot : b + 1 ≤ root := by omega
      have hsquare := Nat.mul_le_mul hroot hroot
      have hsplit := Nat.add_one_mul b (b + 1)
      omega

/-! ## Doubles -/

theorem toRat?_ofScaled {m : Nat} {e : Int} (h0 : m ≠ 0) (hm : m < 2 ^ 53) (hmin : -1074 ≤ e)
    (hmax : e ≤ 971) : (ofScaled false m e).toRat? = some ((m : ℚ) * 2 ^ e) := by
  have hexact {num den : Nat} (hn : num ≠ 0) (hd : den ≠ 0) (hq : (num : ℚ) / den = m * 2 ^ e) :
      (ofRatio false num den).toRat? = some ((m : ℚ) * 2 ^ e) := by
    have hlt : (num : ℚ) / den < overflow := by
      have hlargest : (largest : ℚ) < overflow := by exact_mod_cast largest_lt_overflow
      rw [hq]
      exact (mul_zpow_le_largest hm hmax).trans_lt hlargest
    rw [toRat?_ofRatio_exact hn hd hm hmin hq (isFinite_ofRatio hd hlt), hq]
    rfl
  unfold ofScaled
  split
  · obtain ⟨k, rfl⟩ := Int.eq_ofNat_of_zero_le ‹0 ≤ e›
    rw [Int.toNat_natCast, Nat.shiftLeft_eq]
    refine hexact (Nat.mul_ne_zero h0 (by positivity)) one_ne_zero ?_
    rw [zpow_natCast]
    push_cast
    ring
  · obtain ⟨k, hk⟩ := Int.eq_ofNat_of_zero_le (show 0 ≤ -e by omega)
    obtain rfl : e = -k := by omega
    rw [neg_neg, Int.toNat_natCast, Nat.shiftLeft_eq]
    refine hexact h0 (by positivity) ?_
    rw [zpow_neg, zpow_natCast]
    push_cast
    ring

/-- The radicand is shifted to 105 or 106 bits and to an even exponent. -/
theorem exists_sqrt_eq_ofScaled {m : Nat} {e : Int} (hc : Canonical m e) (h0 : m ≠ 0) :
    ∃ (shift : Nat) (f : Int), e = 2 * f + shift ∧ (m.log2 + shift = 104 ∨ m.log2 + shift = 105) ∧
      (finite false m e hc).sqrt = ofScaled false (nearestRoot (m * 2 ^ shift)) f := by
  have hlog : m.log2 < 53 := (Nat.log2_lt h0).2 hc.1
  obtain ⟨shift, hshift⟩ : ∃ shift, shift =
      if (e - (105 - m.log2 : Nat)) % 2 = 0 then 105 - m.log2 else 105 - m.log2 - 1 := ⟨_, rfl⟩
  refine ⟨shift, (e - shift) / 2, ?_, ?_, ?_⟩
  · split at hshift <;> omega
  · split at hshift <;> omega
  · rw [← Nat.shiftLeft_eq, sqrt, if_neg h0, hshift]
    rfl

theorem mul_two_pow_bounds {m shift : Nat} (hm : m < 2 ^ 53) (h0 : m ≠ 0)
    (hshift : m.log2 + shift = 104 ∨ m.log2 + shift = 105) :
    2 ^ 104 ≤ m * 2 ^ shift ∧ m * 2 ^ shift ≤ (2 ^ 53 - 1) * (2 ^ 53 - 1 + 1) := by
  have hlow := Nat.mul_le_mul_right (2 ^ shift) (Nat.log2_self_le h0)
  have hhigh : m + 1 ≤ 2 ^ (m.log2 + 1) := Nat.lt_log2_self
  have hlog : m.log2 < 53 := (Nat.log2_lt h0).2 hm
  have hhigh := Nat.mul_le_mul_right (2 ^ shift) hhigh
  rw [← Nat.pow_add] at hlow
  rw [← Nat.pow_add, Nat.add_one_mul, Nat.add_right_comm] at hhigh
  have hpos := Nat.two_pow_pos shift
  rcases hshift with hshift | hshift
  · rw [hshift] at hlow hhigh
    omega
  · -- the mantissa has a bit less than the shift
    have hpow : 2 ^ 53 ≤ 2 ^ shift := Nat.pow_le_pow_right (by decide) (by omega)
    rw [hshift] at hlow hhigh
    omega

theorem exists_sqrt_eq {d : Double} {v : ℚ} (h : d.toRat? = some v) (hv : 0 < v) :
    ∃ (n : Nat) (f : Int), v = n * (2 ^ f) ^ 2 ∧ 2 ^ 104 ≤ n ∧
      d.sqrt.toRat? = some ((nearestRoot n : ℚ) * 2 ^ f) := by
  cases d with
  | nan => cases h
  | infinity negative => cases h
  | finite negative m e hc =>
    obtain rfl := Option.some.inj h
    cases negative with
    | true =>
      have : (0 : ℚ) ≤ m * 2 ^ e := by positivity
      exact absurd hv (by simpa using this)
    | false =>
      have h0 : m ≠ 0 := by rintro rfl; simp at hv
      obtain ⟨shift, f, he, hshift, hsqrt⟩ := exists_sqrt_eq_ofScaled hc h0
      obtain ⟨hlow, hhigh⟩ := mul_two_pow_bounds hc.1 h0 hshift
      have hroot := nearestRoot_le_iff.2 hhigh
      have hroot0 : nearestRoot (m * 2 ^ shift) ≠ 0 := fun hz => by
        have := nearestRoot_le_iff.1 hz.le
        omega
      refine ⟨m * 2 ^ shift, f, ?_, hlow, ?_⟩
      · rw [he, zpow_add₀ (by norm_num), zpow_natCast, ← zpow_natCast (2 ^ f : ℚ), ← zpow_mul,
          mul_comm f]
        push_cast
        ring
      · have hmin := hc.2.1
        have hmax := hc.2.2.1
        rw [hsqrt]
        exact toRat?_ofScaled hroot0 (by omega) (by omega) (by omega)

end StepGraph.Double
