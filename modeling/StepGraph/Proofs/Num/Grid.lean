import StepGraph.Proofs.Num.Rounded

/-!
# Multiples of a power of two

A finite double is a whole multiple of a power of two (`exists_onGrid`), and a multiple with no more
than 53 bits is not changed by rounding (`toRat?_ofRat_of_onGrid`). Two multiples of one power are
at least that power apart (`OnGrid.add_le_of_lt`). Rounding passes no multiple of the unit of a
number: one that is not above the number is not above the result (`le_rounded`), and one that is more
than half a unit above the number is above the result (`rounded_lt`).
-/

set_option autoImplicit false

namespace StepGraph.Double

theorem two_zpow_le {e e' : Int} (h : e ≤ e') : (2 : ℚ) ^ e ≤ 2 ^ e' :=
  zpow_le_zpow_right₀ (by norm_num) h

/-- A whole multiple of `2 ^ e`. -/
def OnGrid (e : Int) (q : ℚ) : Prop :=
  ∃ z : Int, q = z * 2 ^ e

section
variable {e e' : Int} {p q : ℚ}

theorem onGrid_intCast (n : Int) : OnGrid 0 n :=
  ⟨n, by rw [zpow_zero, mul_one]⟩

theorem onGrid_half : OnGrid (-1) (1 / 2) :=
  ⟨1, by norm_num⟩

theorem OnGrid.mono (h : OnGrid e q) (he : e' ≤ e) : OnGrid e' q := by
  obtain ⟨z, rfl⟩ := h
  obtain ⟨k, rfl⟩ := Int.le.dest he
  refine ⟨z * 2 ^ k, ?_⟩
  rw [zpow_add₀ (by norm_num), zpow_natCast]
  push_cast
  ring

theorem onGrid_zpow (h : e ≤ e') : OnGrid e (2 ^ e') :=
  OnGrid.mono ⟨1, by rw [Int.cast_one, one_mul]⟩ h

theorem OnGrid.add (hp : OnGrid e p) (hq : OnGrid e q) : OnGrid e (p + q) := by
  obtain ⟨y, rfl⟩ := hp
  obtain ⟨z, rfl⟩ := hq
  exact ⟨y + z, by push_cast; ring⟩

theorem OnGrid.add_le_of_lt (hp : OnGrid e p) (hq : OnGrid e q) (h : p < q) : p + 2 ^ e ≤ q := by
  obtain ⟨y, rfl⟩ := hp
  obtain ⟨z, rfl⟩ := hq
  have hu : (0 : ℚ) < 2 ^ e := by positivity
  have hlt := Int.cast_lt.1 ((mul_lt_mul_iff_left₀ hu).1 h)
  have hle : (y : ℚ) + 1 ≤ z := by exact_mod_cast hlt
  calc (y : ℚ) * 2 ^ e + 2 ^ e = (y + 1) * 2 ^ e := by ring
    _ ≤ z * 2 ^ e := mul_le_mul_of_nonneg_right hle hu.le

/-- Nonnegative multiples are those by natural numbers. -/
theorem OnGrid.exists_natCast (h : OnGrid e q) (h0 : 0 ≤ q) : ∃ c : Nat, q = c * 2 ^ e := by
  obtain ⟨z, rfl⟩ := h
  have hz : 0 ≤ z := Int.cast_nonneg_iff.1 (nonneg_of_mul_nonneg_left h0 (by positivity))
  obtain ⟨c, rfl⟩ := Int.eq_ofNat_of_zero_le hz
  exact ⟨c, by rw [Int.cast_natCast]⟩

theorem OnGrid.abs (h : OnGrid e q) : OnGrid e |q| := by
  obtain ⟨z, rfl⟩ := h
  refine ⟨|z|, ?_⟩
  rw [abs_mul, Int.cast_abs, abs_of_pos (by positivity : (0 : ℚ) < 2 ^ e)]

theorem exists_onGrid {d : Double} (h : d.toRat? = some q) :
    ∃ e, -1074 ≤ e ∧ OnGrid e q ∧ |q| < 2 ^ 53 * 2 ^ e := by
  cases d with
  | nan => cases h
  | infinity negative => cases h
  | finite negative m e hc =>
    obtain rfl := Option.some.inj h
    have hm : (m : ℚ) < 2 ^ 53 := by exact_mod_cast hc.1
    refine ⟨e, hc.2.1, ⟨if negative then -m else m, by split <;> push_cast <;> ring⟩, ?_⟩
    rw [abs_ite_neg _ (by positivity)]
    exact mul_lt_mul_of_pos_right hm (by positivity)

theorem toRat?_ofRat_of_onGrid (h : OnGrid e q) (he : -1074 ≤ e) (hq : |q| < 2 ^ 53 * 2 ^ e)
    (h0 : q ≠ 0) (hf : (ofRat q).isFinite = true) : (ofRat q).toRat? = some q := by
  obtain ⟨m, hm⟩ := h.abs.exists_natCast (abs_nonneg q)
  rw [hm, mul_lt_mul_iff_left₀ (by positivity)] at hq
  exact toRat?_ofRat_exact h0 (by exact_mod_cast hq) he hm hf

end

/-! ## Rounding -/

section
variable {p q : ℚ}

/-- What is rounded to the mantissa: a number over its unit. -/
theorem exists_mantissaOf_eq (q : ℚ) : ∃ num den : Nat, 0 < den ∧
    mantissaOf q = roundQuotient num den ∧ |q| = num / den * 2 ^ exponentOf q := by
  have hd := scaleDown_pos q.num.natAbs q.den_pos (exponentOf q)
  have hratio := scaleDown_ratio q.num.natAbs q.den (exponentOf q)
  rw [mantissaOf]
  generalize scaleDown q.num.natAbs q.den (exponentOf q) = s at *
  refine ⟨s.1, s.2, hd, rfl, ?_⟩
  rw [hratio, ← abs_eq_div, div_mul_cancel₀ _ (by positivity)]

/-- The size of what a number is rounded to. -/
def rounded (q : ℚ) : ℚ :=
  mantissaOf q * 2 ^ exponentOf q

theorem rounded_nonneg (q : ℚ) : 0 ≤ rounded q := by
  unfold rounded
  positivity

theorem le_rounded (hp : OnGrid (exponentOf q) p) (h : p ≤ |q|) : p ≤ rounded q := by
  rcases lt_or_ge p 0 with hneg | h0
  · exact hneg.le.trans (rounded_nonneg q)
  obtain ⟨c, rfl⟩ := hp.exists_natCast h0
  obtain ⟨num, den, hd, hm, hq⟩ := exists_mantissaOf_eq q
  have hu : (0 : ℚ) < 2 ^ exponentOf q := by positivity
  have hd' : (0 : ℚ) < den := by exact_mod_cast hd
  rw [hq, mul_le_mul_iff_left₀ hu, le_div_iff₀ hd'] at h
  have hle := le_roundQuotient hd (by exact_mod_cast h)
  rw [rounded, hm]
  exact mul_le_mul_of_nonneg_right (by exact_mod_cast hle) hu.le

theorem rounded_lt (hp : OnGrid (exponentOf q) p) (h : |q| < p - 2 ^ exponentOf q / 2) :
    rounded q < p := by
  have hu : (0 : ℚ) < 2 ^ exponentOf q := by positivity
  have h0 : 0 ≤ p := by linarith [abs_nonneg q]
  obtain ⟨c, rfl⟩ := hp.exists_natCast h0
  obtain ⟨num, den, hd, hm, hq⟩ := exists_mantissaOf_eq q
  have hd' : (0 : ℚ) < den := by exact_mod_cast hd
  have hhalf : (c : ℚ) * 2 ^ exponentOf q - 2 ^ exponentOf q / 2 =
      (c - 1 / 2) * 2 ^ exponentOf q := by ring
  rw [hhalf, hq, mul_lt_mul_iff_left₀ hu, div_lt_iff₀ hd'] at h
  have hlt : 2 * (num : ℚ) + den < 2 * (c * den) := by linarith
  have hmlt := roundQuotient_lt hd (by exact_mod_cast hlt)
  rw [rounded, hm]
  exact mul_lt_mul_of_pos_right (by exact_mod_cast hmlt) hu

end

end StepGraph.Double
