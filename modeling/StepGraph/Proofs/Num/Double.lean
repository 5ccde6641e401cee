import Mathlib.Algebra.Order.Field.Power
import Mathlib.Data.Nat.Log
import Mathlib.Data.Rat.Cast.Order
import Mathlib.Tactic.Linarith
import Mathlib.Tactic.NormNum
import Mathlib.Tactic.Positivity
import Mathlib.Tactic.Ring
import StepGraph.Num.Double

/-!
# When a rounded result is finite

`ofRatio` chooses an exponent at which the mantissa has 53 bits (`exponentFor_spec`), rounds the
mantissa there and gives an infinity only if the exponent is then too large. So a ratio below
`Double.overflow`, half a unit above the largest double, is finite (`isFinite_ofRatio`,
`isFinite_ofRat`, `isFinite_ofInt`). No finite double is beyond `Double.largest`
(`abs_le_largest`).
-/

set_option autoImplicit false

namespace StepGraph.Double

def largest : Nat := (2 ^ 54 - 2) * 2 ^ 970

/-- Half way from the largest double to the next power of two. -/
def overflow : Nat := (2 ^ 54 - 1) * 2 ^ 970

theorem largest_lt_overflow : largest < overflow := by
  have h (k : Nat) : (2 ^ 54 - 2) * 2 ^ k < (2 ^ 54 - 1) * 2 ^ k :=
    Nat.mul_lt_mul_of_pos_right (by decide) (Nat.two_pow_pos k)
  exact h 970

theorem le_overflow : 2 ^ 70 ≤ overflow := by
  have h (k : Nat) (hk : 70 ≤ k) : 2 ^ 70 ≤ (2 ^ 54 - 1) * 2 ^ k :=
    (Nat.pow_le_pow_right (by decide) hk).trans (Nat.le_mul_of_pos_left _ (by decide))
  exact h 970 (by decide)

/-! ## The mantissa -/

section
variable {num den c : Nat}

theorem roundQuotient_le (hd : 0 < den) (h : num ≤ c * den) : roundQuotient num den ≤ c := by
  have hq : num / den ≤ c := Nat.div_le_of_le_mul (by rwa [Nat.mul_comm] at h)
  have hr := Nat.div_add_mod num den
  simp only [roundQuotient]
  split
  · rcases Nat.lt_or_eq_of_le hq with hlt | rfl
    · exact hlt
    · have hr0 : num % den = 0 := by
        have := Nat.mul_comm den (num / den)
        omega
      omega
  · exact hq

theorem le_roundQuotient (hd : 0 < den) (h : c * den ≤ num) : c ≤ roundQuotient num den := by
  have hq : c ≤ num / den := (Nat.le_div_iff_mul_le hd).2 h
  simp only [roundQuotient]
  split <;> omega

theorem roundQuotient_lt (hd : 0 < den) (h : 2 * num + den < 2 * (c * den)) :
    roundQuotient num den < c := by
  have hq : num / den < c := (Nat.div_lt_iff_lt_mul hd).2 (by omega)
  have hr := Nat.div_add_mod num den
  simp only [roundQuotient]
  split
  · rename_i hup
    rcases Nat.lt_or_eq_of_le (Nat.succ_le_of_lt hq) with hlt | heq
    · exact hlt
    · have hc : c * den = den * (num / den) + den := by
        rw [← heq, Nat.succ_mul, Nat.mul_comm]
      omega
  · exact hq

theorem scaleDown_pos (num : Nat) (hd : 0 < den) (e : Int) : 0 < (scaleDown num den e).2 := by
  unfold scaleDown
  split
  · rw [Nat.shiftLeft_eq]; positivity
  · exact hd

theorem scaleDown_ratio (num den : Nat) (e : Int) :
    ((scaleDown num den e).1 : ℚ) / (scaleDown num den e).2 = num / den / 2 ^ e := by
  unfold scaleDown
  split
  · rename_i he
    obtain ⟨n, rfl⟩ := Int.eq_ofNat_of_zero_le he
    simp only [Int.toNat_natCast, Nat.shiftLeft_eq, zpow_natCast]
    push_cast
    rw [div_div]
  · rename_i he
    obtain ⟨n, hn⟩ := Int.eq_ofNat_of_zero_le (by omega : 0 ≤ -e)
    obtain rfl : e = -n := by omega
    simp only [neg_neg, Int.toNat_natCast, Nat.shiftLeft_eq, zpow_neg, zpow_natCast]
    push_cast
    rw [div_inv_eq_mul]
    ring

end

/-! ## The exponent -/

section
variable {num den : Nat}

theorem ratio_lt_iff (num : Nat) (hd : 0 < den) (e : Int) (k : Nat) :
    (scaleDown num den e).1 < (scaleDown num den e).2 <<< k ↔
      (num : ℚ) / den < 2 ^ k * 2 ^ e := by
  have hs : (0 : ℚ) < (scaleDown num den e).2 := by exact_mod_cast scaleDown_pos num hd e
  rw [← div_lt_iff₀ (by positivity : (0 : ℚ) < 2 ^ e), ← scaleDown_ratio, div_lt_iff₀ hs,
    Nat.shiftLeft_eq, Nat.mul_comm]
  norm_cast

theorem roundQuotient_scaleDown_le {e : Int} {k : Nat} (hd : 0 < den)
    (h : (num : ℚ) / den < 2 ^ k * 2 ^ e) :
    roundQuotient (scaleDown num den e).1 (scaleDown num den e).2 ≤ 1 <<< k := by
  refine roundQuotient_le (scaleDown_pos num hd e) ?_
  have hlt := (ratio_lt_iff num hd e k).2 h
  rw [Nat.shiftLeft_eq, Nat.mul_comm] at hlt
  rw [Nat.shiftLeft_eq, Nat.one_mul]
  exact hlt.le

theorem le_roundQuotient_scaleDown {e : Int} {k : Nat} (hd : 0 < den)
    (h : 2 ^ k * 2 ^ e ≤ (num : ℚ) / den) :
    1 <<< k ≤ roundQuotient (scaleDown num den e).1 (scaleDown num den e).2 := by
  refine le_roundQuotient (scaleDown_pos num hd e) ?_
  have hle := mt (ratio_lt_iff num hd e k).1 (not_lt.2 h)
  rw [Nat.shiftLeft_eq, Nat.mul_comm, not_lt] at hle
  rwa [Nat.shiftLeft_eq, Nat.one_mul]

theorem ratio_bounds (hn : num ≠ 0) (hd : den ≠ 0) :
    (2 : ℚ) ^ ((num.log2 : Int) - den.log2 - 1) ≤ num / den ∧
      (num : ℚ) / den < 2 ^ ((num.log2 : Int) - den.log2 + 1) := by
  have hnl : (2 : ℚ) ^ (num.log2 : Int) ≤ num := by exact_mod_cast Nat.log2_self_le hn
  have hnu : (num : ℚ) < 2 ^ ((num.log2 : Int) + 1) := by exact_mod_cast Nat.lt_log2_self
  have hdl : (2 : ℚ) ^ (den.log2 : Int) ≤ den := by exact_mod_cast Nat.log2_self_le hd
  have hdu : (den : ℚ) < 2 ^ ((den.log2 : Int) + 1) := by exact_mod_cast Nat.lt_log2_self
  have hd0 : (0 : ℚ) < den := by positivity
  constructor
  · rw [le_div_iff₀ hd0]
    calc (2 : ℚ) ^ ((num.log2 : Int) - den.log2 - 1) * den
        ≤ 2 ^ ((num.log2 : Int) - den.log2 - 1) * 2 ^ ((den.log2 : Int) + 1) := by gcongr
      _ = 2 ^ (num.log2 : Int) := by rw [← zpow_add₀ (by norm_num)]; congr 1; ring
      _ ≤ num := hnl
  · rw [div_lt_iff₀ hd0]
    calc (num : ℚ) < 2 ^ ((num.log2 : Int) + 1) := hnu
      _ = 2 ^ ((num.log2 : Int) - den.log2 + 1) * 2 ^ (den.log2 : Int) := by
        rw [← zpow_add₀ (by norm_num)]; congr 1; ring
      _ ≤ 2 ^ ((num.log2 : Int) - den.log2 + 1) * den := by gcongr

/-- At some exponent a ratio has exactly 53 bits before the point; `exponentFor` is that exponent or
the smallest one. -/
theorem exists_exponentFor_eq (hn : num ≠ 0) (hd : den ≠ 0) :
    ∃ e, exponentFor num den = max (-1074) e ∧
      (2 : ℚ) ^ 52 * 2 ^ e ≤ num / den ∧ (num : ℚ) / den < 2 ^ 53 * 2 ^ e := by
  obtain ⟨hlow, hhigh⟩ := ratio_bounds hn hd
  have hpow : ∀ e : Int, ∀ k : Nat, (2 : ℚ) ^ k * 2 ^ e = 2 ^ (k + e) := fun e k => by
    rw [zpow_add₀ (by norm_num), zpow_natCast]
  have hiff := ratio_lt_iff num (Nat.pos_of_ne_zero hd) ((num.log2 : Int) - den.log2 - 52) 52
  refine ⟨_, rfl, ?_⟩
  split
  · rename_i hlt
    refine ⟨?_, lt_of_lt_of_eq (hiff.1 hlt) ?_⟩
    · rw [hpow]; exact le_of_eq_of_le (by congr 1; push_cast; ring) hlow
    · rw [hpow, hpow]; congr 1; push_cast; ring
  · rename_i hlt
    refine ⟨not_lt.1 (mt hiff.2 hlt), lt_of_lt_of_eq hhigh ?_⟩
    rw [hpow]; congr 1; push_cast; ring

/-- At its exponent a ratio has at most 53 bits before the point, and no fewer unless the exponent
is the smallest. -/
theorem exponentFor_spec (hn : num ≠ 0) (hd : den ≠ 0) :
    -1074 ≤ exponentFor num den ∧
      (num : ℚ) / den < 2 ^ 53 * 2 ^ exponentFor num den ∧
      (exponentFor num den ≠ -1074 → (2 : ℚ) ^ 52 * 2 ^ exponentFor num den ≤ num / den) := by
  obtain ⟨e, he, hlow, hhigh⟩ := exists_exponentFor_eq hn hd
  rw [he]
  refine ⟨le_max_left _ _, hhigh.trans_le ?_, fun hne => ?_⟩
  · have hle : (2 : ℚ) ^ e ≤ 2 ^ max (-1074) e :=
      zpow_le_zpow_right₀ (by norm_num) (le_max_right _ _)
    exact mul_le_mul_of_nonneg_left hle (by norm_num)
  · rcases max_choice (-1074) e with h | h
    · exact absurd h hne
    · rw [h]; exact hlow

variable {negative : Bool}

theorem exponentFor_le (hn : num ≠ 0) (hd : den ≠ 0) (h : (num : ℚ) / den < overflow) :
    exponentFor num den ≤ 971 := by
  obtain ⟨-, -, hlow⟩ := exponentFor_spec hn hd
  by_contra hlt
  have hle : (2 : ℚ) ^ (972 : Int) ≤ 2 ^ exponentFor num den :=
    zpow_le_zpow_right₀ (by norm_num) (by omega)
  rw [show (972 : Int) = (2 + 970 : Nat) by rfl, zpow_natCast, pow_add] at hle
  have ht : (0 : ℚ) < 2 ^ 970 := by positivity
  have hlow := hlow (by omega)
  simp only [overflow, Nat.cast_mul, Nat.cast_pow, Nat.cast_ofNat] at h
  generalize (2 : ℚ) ^ 970 = t at *
  norm_num at h hlow
  linarith

theorem roundQuotient_lt_of_overflow (hd : den ≠ 0) (h : (num : ℚ) / den < overflow) :
    roundQuotient (scaleDown num den 971).1 (scaleDown num den 971).2 < 1 <<< 53 := by
  have hs := scaleDown_pos num (Nat.pos_of_ne_zero hd) 971
  have hs' : (0 : ℚ) < (scaleDown num den 971).2 := by exact_mod_cast hs
  have hr : ((scaleDown num den 971).1 : ℚ) / (scaleDown num den 971).2 < (2 ^ 54 - 1) / 2 := by
    rw [scaleDown_ratio, div_lt_iff₀ (by positivity)]
    refine lt_of_lt_of_eq h ?_
    rw [show (971 : Int) = (1 + 970 : Nat) by rfl, zpow_natCast, pow_add]
    simp only [overflow, Nat.cast_mul, Nat.cast_pow, Nat.cast_ofNat]
    generalize (2 : ℚ) ^ 970 = t
    norm_num
    ring
  refine roundQuotient_lt hs ?_
  rw [div_lt_div_iff₀ hs' (by norm_num)] at hr
  have hnat : (scaleDown num den 971).1 * 2 < (2 ^ 54 - 1) * (scaleDown num den 971).2 := by
    have hcast : ((2 ^ 54 - 1 : Nat) : ℚ) = 2 ^ 54 - 1 := by norm_num
    rw [← hcast] at hr
    exact_mod_cast hr
  rw [Nat.shiftLeft_eq]
  omega

theorem isFinite_ofRatio (hd : den ≠ 0) (h : (num : ℚ) / den < overflow) :
    (ofRatio negative num den).isFinite = true := by
  by_cases hn : num = 0
  · simp [ofRatio, hn, zero, isFinite]
  obtain ⟨hmin, hhigh, hlow⟩ := exponentFor_spec hn hd
  have hmax := exponentFor_le hn hd h
  have hcarry := roundQuotient_lt_of_overflow hd h
  have hm := roundQuotient_scaleDown_le (Nat.pos_of_ne_zero hd) hhigh
  have hm' := fun he => le_roundQuotient_scaleDown (Nat.pos_of_ne_zero hd) (hlow he)
  simp only [ofRatio, if_neg hn]
  generalize exponentFor num den = e at *
  split
  · -- rounding carried into a bit more: the exponent grows, and was not the largest
    rename_i hc
    have he : e ≠ 971 := by rintro rfl; omega
    have hcan : Canonical (1 <<< 52) (e + 1) :=
      ⟨by decide, by omega, by omega, .inl (le_refl _)⟩
    rw [dif_pos hcan]; rfl
  · rename_i hc
    have hcan : Canonical (roundQuotient (scaleDown num den e).1 (scaleDown num den e).2) e :=
      ⟨by omega, hmin, hmax, (em (e = -1074)).symm.imp_left hm'⟩
    rw [dif_pos hcan]; rfl

theorem isFinite_ofRat {q : ℚ} (h : |q| < overflow) : (ofRat q).isFinite = true := by
  refine isFinite_ofRatio q.den_ne_zero ?_
  rwa [Nat.cast_natAbs, Int.cast_abs, ← Nat.abs_cast q.den, ← abs_div, Rat.num_div_den]

theorem isFinite_ofInt {n : Int} (h : n.natAbs < overflow) : (ofInt n).isFinite = true := by
  refine isFinite_ofRatio one_ne_zero ?_
  rw [Nat.cast_one, div_one]
  exact_mod_cast h

end

/-! ## Finite doubles -/

theorem exists_toRat? {d : Double} (h : d.isFinite = true) : ∃ q, d.toRat? = some q := by
  cases d with
  | finite negative m e h => exact ⟨_, rfl⟩
  | nan => cases h
  | infinity negative => cases h

theorem mul_zpow_le_largest {m : Nat} {e : Int} (hm : m < 2 ^ 53) (he : e ≤ 971) :
    (m : ℚ) * 2 ^ e ≤ largest := by
  have hm' : (m : ℚ) ≤ 2 ^ 53 - 1 := by
    rw [le_sub_iff_add_le]
    exact_mod_cast hm
  have he' : (2 : ℚ) ^ e ≤ 2 ^ (971 : Int) := zpow_le_zpow_right₀ (by norm_num) he
  calc (m : ℚ) * 2 ^ e
      ≤ (2 ^ 53 - 1) * 2 ^ (971 : Int) := mul_le_mul hm' he' (by positivity) (by norm_num)
    _ = largest := by
      rw [show (971 : Int) = (1 + 970 : Nat) by rfl, zpow_natCast, pow_add]
      simp only [largest, Nat.cast_mul, Nat.cast_pow, Nat.cast_ofNat]
      generalize (2 : ℚ) ^ 970 = t
      norm_num
      ring

theorem abs_le_largest {d : Double} {q : ℚ} (h : d.toRat? = some q) : |q| ≤ largest := by
  cases d with
  | nan => cases h
  | infinity negative => cases h
  | finite negative m e hc =>
    simp only [toRat?, Option.some.injEq] at h
    obtain ⟨hm, -, he, -⟩ := hc
    have habs : |q| = m * 2 ^ e := by
      have hpos : (0 : ℚ) ≤ m * 2 ^ e := by positivity
      rw [← h]
      split
      · rw [abs_neg, abs_of_nonneg hpos]
      · exact abs_of_nonneg hpos
    rw [habs]
    exact mul_zpow_le_largest hm he

end StepGraph.Double
