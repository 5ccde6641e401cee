import StepGraph.Num.Decimal
import StepGraph.Proofs.Num.Nearest

/-!
# The shortest decimal reads back

`Decimal.shortest` looks for a point in the interval around a double on grids that get finer by tens
(`search_spec`). A grid with a step of at most a quarter of a unit has such a point
(`gridPoint?_of_fine`), and the last of the twenty grids is as fine as that for every double
(`last_grid_fine`), so the search never comes out empty-handed.

* `ofDecimal_shortest`: what is found is read as the double.
-/

set_option autoImplicit false

namespace StepGraph.Decimal

open Double (Canonical Surrounds lowEnd highEnd)

/-! ## The interval -/

namespace Interval

section
variable {m : Nat} {e : Int}

theorem den_eq (m : Nat) (e : Int) : (ofDouble m e).den = 2 ^ (2 - e).toNat := by
  rw [← Nat.one_mul (2 ^ (2 - e).toNat), ← Nat.shiftLeft_eq]
  rfl

theorem den_pos (m : Nat) (e : Int) : 0 < (ofDouble m e).den := by
  rw [den_eq]
  positivity

/-- A number of quarter units, over the denominator. -/
theorem shiftLeft_quarters (k : Nat) (m : Nat) (e : Int) :
    ((k <<< (e - 2).toNat : Nat) : ℚ) = k * 2 ^ (e - 2) * (ofDouble m e).den := by
  rw [den_eq, Nat.shiftLeft_eq]
  push_cast
  rw [mul_assoc]
  congr 1
  rw [← zpow_natCast, ← zpow_natCast, ← zpow_add₀ (by norm_num)]
  congr 1
  omega

theorem value_eq (m : Nat) (e : Int) :
    ((ofDouble m e).value : ℚ) = m * 2 ^ e * (ofDouble m e).den := by
  have h := shiftLeft_quarters (4 * m) m e
  rw [Double.zpow_sub_two] at h
  refine h.trans ?_
  push_cast
  ring

theorem high_eq (m : Nat) (e : Int) :
    ((ofDouble m e).high : ℚ) = highEnd m e * (ofDouble m e).den := by
  refine (shiftLeft_quarters (4 * m + 2) m e).trans ?_
  rw [highEnd]
  push_cast
  ring

theorem low_eq (hm : m ≠ 0) (e : Int) :
    ((ofDouble m e).low : ℚ) = lowEnd m e * (ofDouble m e).den := by
  have hlow : (ofDouble m e).low
      = (if m = 2 ^ 52 ∧ -1074 < e then 4 * m - 1 else 4 * m - 2) <<< (e - 2).toNat := rfl
  rw [hlow, shiftLeft_quarters _ m e, lowEnd]
  congr 2
  by_cases h : m = 2 ^ 52 ∧ -1074 < e
  · rw [if_pos h, if_pos h, Nat.cast_sub (by omega)]
    push_cast
    ring
  · rw [if_neg h, if_neg h, Nat.cast_sub (by omega)]
    push_cast
    ring

theorem contains_iff (hm : m ≠ 0) {digits unit unitDen : Nat} (hu : 0 < unitDen) :
    (ofDouble m e).contains digits unit unitDen = true ↔
      Surrounds m e (digits * unit / unitDen) := by
  have hd : (0 : ℚ) < (ofDouble m e).den := by exact_mod_cast den_pos m e
  have hu' : (0 : ℚ) < unitDen := by exact_mod_cast hu
  have hclosed : (ofDouble m e).closed = (m % 2 == 0) := rfl
  have hlow := low_eq hm e
  have hhigh := high_eq m e
  -- over both denominators all of them are natural numbers
  have hxlow : lowEnd m e < digits * unit / unitDen ↔
      (ofDouble m e).low * unitDen < digits * unit * (ofDouble m e).den := by
    rw [lt_div_iff₀ hu', ← mul_lt_mul_iff_left₀ hd, mul_right_comm, ← hlow]
    exact_mod_cast Iff.rfl
  have hxhigh : digits * unit / unitDen < highEnd m e ↔
      digits * unit * (ofDouble m e).den < (ofDouble m e).high * unitDen := by
    rw [div_lt_iff₀ hu', ← mul_lt_mul_iff_left₀ hd, mul_right_comm (highEnd m e), ← hhigh]
    exact_mod_cast Iff.rfl
  have helow : (digits * unit / unitDen : ℚ) = lowEnd m e ↔
      digits * unit * (ofDouble m e).den = (ofDouble m e).low * unitDen := by
    rw [div_eq_iff hu'.ne', ← mul_left_inj' hd.ne', mul_right_comm (lowEnd m e), ← hlow]
    exact_mod_cast Iff.rfl
  have hehigh : (digits * unit / unitDen : ℚ) = highEnd m e ↔
      digits * unit * (ofDouble m e).den = (ofDouble m e).high * unitDen := by
    rw [div_eq_iff hu'.ne', ← mul_left_inj' hd.ne', mul_right_comm (highEnd m e), ← hhigh]
    exact_mod_cast Iff.rfl
  simp only [Surrounds, hxlow, hxhigh, helow, hehigh, contains, hclosed, Bool.or_eq_true,
    Bool.and_eq_true, decide_eq_true_eq, beq_iff_eq]

end

/-! ## Grids -/

section
variable {i : Interval} {unit unitDen : Nat}

theorem gridPoint?_eq_some {d : Nat} (h : i.gridPoint? unit unitDen = some d) :
    d ≠ 0 ∧ i.contains d unit unitDen = true := by
  have hround : ∀ num den : Nat, Double.roundQuotient num den = num / den ∨
      Double.roundQuotient num den = num / den + 1 := by
    intro num den
    simp only [Double.roundQuotient]
    split
    · exact .inr rfl
    · exact .inl rfl
  have hfits : ∀ d, (d != 0 && i.contains d unit unitDen) = true →
      d ≠ 0 ∧ i.contains d unit unitDen = true := by simp
  simp only [gridPoint?] at h
  split at h
  · rename_i hboth
    obtain ⟨hbelow, habove⟩ := Bool.and_eq_true_iff.1 hboth
    obtain rfl := Option.some.inj h
    rcases hround (i.value * unitDen) (i.den * unit) with hr | hr
    · rw [hr]
      exact hfits _ hbelow
    · rw [hr]
      exact hfits _ habove
  · split at h
    · rename_i hbelow
      obtain rfl := Option.some.inj h
      exact hfits _ hbelow
    · split at h
      · rename_i habove
        obtain rfl := Option.some.inj h
        exact hfits _ habove
      · cases h

/-- The point below the value is one that is looked at. -/
theorem gridPoint?_ne_none (h0 : i.value * unitDen / (i.den * unit) ≠ 0)
    (h : i.contains (i.value * unitDen / (i.den * unit)) unit unitDen = true) :
    i.gridPoint? unit unitDen ≠ none := by
  have h0' : (i.value * unitDen / (i.den * unit) != 0) = true := by simpa using h0
  simp only [gridPoint?, h0', h, Bool.true_and]
  split <;> simp

/-- A grid whose step is no more than a quarter of a unit has a point in the interval. -/
theorem gridPoint?_of_fine {m : Nat} {e : Int} (hm : m ≠ 0) (hu : 0 < unit) (hd : 0 < unitDen)
    (hfine : (unit : ℚ) / unitDen ≤ 2 ^ (e - 2)) :
    (ofDouble m e).gridPoint? unit unitDen ≠ none := by
  have hden := den_pos m e
  have hvalue := value_eq m e
  have hlowEnd : lowEnd m e ≤ m * 2 ^ e - 2 ^ (e - 2) := by
    have hq : (0 : ℚ) < 2 ^ e := by positivity
    rw [lowEnd, Double.zpow_sub_two]
    split <;> linarith
  have hhighEnd : (m : ℚ) * 2 ^ e < highEnd m e := by
    have hq : (0 : ℚ) < 2 ^ e := by positivity
    rw [Double.highEnd_eq]
    linarith
  have hpos : 0 ≤ lowEnd m e := by
    have hm1 : (1 : ℚ) ≤ m := by exact_mod_cast Nat.one_le_iff_ne_zero.2 hm
    exact (mul_nonneg (by linarith) (by positivity)).trans (Double.lowEnd_ge m e)
  have hu' : (0 : ℚ) < unit := by exact_mod_cast hu
  have hd' : (0 : ℚ) < unitDen := by exact_mod_cast hd
  have hden' : (0 : ℚ) < (ofDouble m e).den := by exact_mod_cast hden
  have hdiv := Nat.div_add_mod ((ofDouble m e).value * unitDen) ((ofDouble m e).den * unit)
  have hmod := Nat.mod_lt ((ofDouble m e).value * unitDen) (Nat.mul_pos hden hu)
  generalize hb : (ofDouble m e).value * unitDen / ((ofDouble m e).den * unit) = b at *
  generalize (ofDouble m e).value * unitDen % ((ofDouble m e).den * unit) = r at *
  -- `b` steps lead to the value or to less than a step below it
  have hbelow : (b * unit / unitDen : ℚ) ≤ m * 2 ^ e := by
    rw [div_le_iff₀ hd', ← mul_le_mul_iff_left₀ hden', mul_right_comm _ (unitDen : ℚ), ← hvalue]
    have hle : b * unit * (ofDouble m e).den ≤ (ofDouble m e).value * unitDen := by
      rw [← hdiv]
      exact Nat.le_add_right_of_le (le_of_eq (by ring))
    exact_mod_cast hle
  have habove : (m * 2 ^ e : ℚ) < b * unit / unitDen + unit / unitDen := by
    rw [← add_div, lt_div_iff₀ hd', ← mul_lt_mul_iff_left₀ hden', mul_right_comm _ (unitDen : ℚ),
      ← hvalue]
    have hlt : (ofDouble m e).value * unitDen < (b * unit + unit) * (ofDouble m e).den := by
      rw [← hdiv]
      calc _ < (ofDouble m e).den * unit * b + (ofDouble m e).den * unit := by omega
        _ = (b * unit + unit) * (ofDouble m e).den := by ring
    exact_mod_cast hlt
  have hlow : lowEnd m e < b * unit / unitDen := by linarith
  refine gridPoint?_ne_none ?_ ?_
  · rw [hb]
    rintro rfl
    rw [Nat.cast_zero, zero_mul, zero_div] at hlow
    exact absurd hlow (not_lt.2 hpos)
  · rw [hb, contains_iff hm hd]
    exact .inl ⟨hlow, hbelow.trans_lt hhighEnd⟩

end

/-! ## The search -/

section
variable {i : Interval}

/-- Some grid of a search has a point, so a point is found. -/
theorem search_spec {steps : Nat} {power : Int}
    (h : ∃ k < steps, i.gridPoint? (Nat.pow 10 (power - k).toNat)
      (Nat.pow 10 (-(power - k)).toNat) ≠ none) :
    (i.search steps power).digits ≠ 0 ∧
      i.contains (i.search steps power).digits
        (10 ^ (i.search steps power).power.toNat)
        (10 ^ (-(i.search steps power).power).toNat) = true := by
  induction steps generalizing power with
  | zero =>
    obtain ⟨k, hk, -⟩ := h
    cases hk
  | succ steps ih =>
    rw [search]
    split
    · rename_i digits hpoint
      exact gridPoint?_eq_some hpoint
    · rename_i hpoint
      refine ih ?_
      obtain ⟨k, hk, hgrid⟩ := h
      cases k with
      | zero =>
        rw [Nat.cast_zero, sub_zero] at hgrid
        exact absurd hpoint hgrid
      | succ k =>
        refine ⟨k, by omega, ?_⟩
        rw [sub_sub, add_comm (1 : Int), ← Nat.cast_succ]
        exact hgrid

end

end Interval

/-! ## Twenty grids -/

/-- The power of ten of the first grid. -/
def firstPower (m : Nat) (e : Int) : Int :=
  ((m.log2 : Int) + e + 1) * 30103 / 100000 + 1

theorem ten_zpow_le_two_zpow {p e : Int} (hlow : -1074 ≤ e) (hhigh : e ≤ 971)
    (h : 100000 * p ≤ 30103 * e - 204541) : (10 : ℚ) ^ p ≤ 2 ^ (e - 2) := by
  rcases le_or_gt 0 p with hp | hp
  · -- a thousand is less than the tenth power of two
    obtain ⟨n, rfl⟩ := Int.eq_ofNat_of_zero_le hp
    obtain ⟨k, hk⟩ := Int.eq_ofNat_of_zero_le (by omega : 0 ≤ e - 2)
    rw [hk, zpow_natCast, zpow_natCast]
    refine (pow_le_pow_iff_left₀ (by positivity) (by positivity) three_ne_zero).1 ?_
    calc ((10 : ℚ) ^ n) ^ 3 = (10 ^ 3) ^ n := by rw [← pow_mul, ← pow_mul, mul_comm]
      _ ≤ (2 ^ 10) ^ n := pow_le_pow_left₀ (by norm_num) (by norm_num) n
      _ = 2 ^ (10 * n) := by rw [← pow_mul]
      _ ≤ 2 ^ (k * 3) := pow_le_pow_right₀ (by norm_num) (by omega)
      _ = (2 ^ k) ^ 3 := pow_mul _ _ _
  · -- ten to the 28 is more than two to the 93
    obtain ⟨n, hn⟩ := Int.eq_ofNat_of_zero_le (by omega : 0 ≤ -p)
    obtain rfl : p = -n := by omega
    rcases le_or_gt 0 (e - 2) with he | he
    · calc (10 : ℚ) ^ (-(n : Int)) ≤ 10 ^ (0 : Int) := zpow_le_zpow_right₀ (by norm_num) hp.le
        _ = 2 ^ (0 : Int) := by rw [zpow_zero, zpow_zero]
        _ ≤ 2 ^ (e - 2) := Double.two_zpow_le he
    · obtain ⟨k, hk⟩ := Int.eq_ofNat_of_zero_le (by omega : 0 ≤ 2 - e)
      have hk' : e - 2 = -(k : Int) := by omega
      rw [hk', zpow_neg, zpow_neg, zpow_natCast, zpow_natCast]
      refine inv_anti₀ (by positivity) ?_
      refine (pow_le_pow_iff_left₀ (n := 28) (by positivity) (by positivity) (by norm_num)).1 ?_
      calc ((2 : ℚ) ^ k) ^ 28 = 2 ^ (k * 28) := (pow_mul _ _ _).symm
        _ ≤ 2 ^ (93 * n) := pow_le_pow_right₀ (by norm_num) (by omega)
        _ = (2 ^ 93) ^ n := pow_mul _ _ _
        _ ≤ (10 ^ 28) ^ n := pow_le_pow_left₀ (by norm_num) (by norm_num) n
        _ = (10 ^ n) ^ 28 := by rw [← pow_mul, ← pow_mul, mul_comm]

section
variable {m : Nat} {e : Int}

/-- The step of the last grid is no more than a quarter of a unit. -/
theorem last_grid_fine (hc : Canonical m e) (hm : m ≠ 0) :
    (10 : ℚ) ^ (firstPower m e - 19) ≤ 2 ^ (e - 2) := by
  have hlog : m.log2 < 53 := (Nat.log2_lt hm).2 (by simpa [Nat.shiftLeft_eq] using hc.1)
  refine ten_zpow_le_two_zpow hc.2.1 hc.2.2.1 ?_
  rw [firstPower]
  omega

theorem ten_pow_div (p : Int) :
    (((10 ^ p.toNat : Nat) : ℚ) / ((10 ^ (-p).toNat : Nat) : ℚ)) = 10 ^ p := by
  push_cast
  rw [← zpow_natCast, ← zpow_natCast, ← zpow_sub₀ (by norm_num)]
  congr 1
  omega

/-- The decimal that is found is not zero and lies in the interval around the double. -/
theorem shortest_spec (hc : Canonical m e) (hm : m ≠ 0) :
    (shortest m e).digits ≠ 0 ∧
      Surrounds m e ((shortest m e).digits * 10 ^ (shortest m e).power) := by
  have hfine := last_grid_fine hc hm
  rw [← ten_pow_div] at hfine
  have hten : ∀ n, 0 < Nat.pow 10 n := fun n => Nat.pow_pos (by decide)
  have hlast := Interval.gridPoint?_of_fine hm (hten _) (hten _) hfine
  obtain ⟨h0, hcontains⟩ :=
    @Interval.search_spec (.ofDouble m e) 20 (firstPower m e) ⟨19, by decide, hlast⟩
  rw [Interval.contains_iff hm (by positivity), mul_div_assoc, ten_pow_div] at hcontains
  exact ⟨h0, hcontains⟩

/-- The shortest decimal of a double is read as the double. -/
theorem ofDecimal_shortest {negative : Bool} (hc : Canonical m e) (hm : m ≠ 0) :
    Double.ofDecimal negative (shortest m e).digits (shortest m e).power
      = .finite negative m e hc :=
  Double.ofDecimal_of_surrounds hc hm (shortest_spec hc hm).2

end

end StepGraph.Decimal
