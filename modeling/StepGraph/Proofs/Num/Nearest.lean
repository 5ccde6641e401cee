import StepGraph.Proofs.Num.Grid

/-!
# The numbers that are rounded to a double

A number between the ends of the interval around a double is rounded to it, and one on an end if the
mantissa is even (`Surrounds`). Just below a power of two doubles lie twice as close, so that a
number there has the next smaller exponent, and rounding carries it over
(`ofRatio_of_surrounds`). A decimal in the interval is far from the sizes at which `ofDecimal`
gives up (`ofDecimal_of_surrounds`).
-/

set_option autoImplicit false

namespace StepGraph.Double

/-- The lower end: half a unit below, a quarter below a power of two. -/
def lowEnd (m : Nat) (e : Int) : ℚ :=
  (if m = 2 ^ 52 ∧ -1074 < e then 4 * (m : ℚ) - 1 else 4 * m - 2) * 2 ^ (e - 2)

/-- The upper end: half a unit above. -/
def highEnd (m : Nat) (e : Int) : ℚ :=
  (4 * m + 2) * 2 ^ (e - 2)

/-- The interval around `m * 2 ^ e` holds `q`. -/
def Surrounds (m : Nat) (e : Int) (q : ℚ) : Prop :=
  lowEnd m e < q ∧ q < highEnd m e ∨ m % 2 = 0 ∧ (q = lowEnd m e ∨ q = highEnd m e)

section
variable {m : Nat} {e : Int} {q : ℚ}

theorem zpow_sub_two (e : Int) : (2 : ℚ) ^ (e - 2) = 2 ^ e / 4 := by
  rw [zpow_sub₀ (by norm_num)]
  norm_num

theorem highEnd_eq (m : Nat) (e : Int) : highEnd m e = (m + 1 / 2) * 2 ^ e := by
  rw [highEnd, zpow_sub_two]
  ring

theorem lowEnd_ge (m : Nat) (e : Int) : (m - 1 / 2 : ℚ) * 2 ^ e ≤ lowEnd m e := by
  have hu : (0 : ℚ) < 2 ^ e := by positivity
  rw [lowEnd, zpow_sub_two]
  split <;> linarith

theorem lowEnd_lt_highEnd (m : Nat) (e : Int) : lowEnd m e < highEnd m e := by
  have hu : (0 : ℚ) < 2 ^ e := by positivity
  rw [highEnd_eq, lowEnd, zpow_sub_two]
  split <;> linarith

theorem Surrounds.bounds (h : Surrounds m e q) : lowEnd m e ≤ q ∧ q ≤ highEnd m e := by
  have hlt := lowEnd_lt_highEnd m e
  rcases h with h | ⟨-, rfl | rfl⟩
  · exact ⟨h.1.le, h.2.le⟩
  · exact ⟨le_rfl, hlt.le⟩
  · exact ⟨hlt.le, le_rfl⟩

theorem Surrounds.near (h : Surrounds m e q) :
    (m - 1 / 2 : ℚ) * 2 ^ e ≤ q ∧ q ≤ (m + 1 / 2) * 2 ^ e := by
  rw [← highEnd_eq]
  exact ⟨(lowEnd_ge m e).trans h.bounds.1, h.bounds.2⟩

/-- Half a unit away are only ends. -/
theorem Surrounds.even_of_far (h : Surrounds m e q)
    (hq : q = (m - 1 / 2 : ℚ) * 2 ^ e ∨ q = (m + 1 / 2) * 2 ^ e) : m % 2 = 0 := by
  rcases h with h | h
  · rcases hq with rfl | rfl
    · exact absurd h.1 (not_lt.2 (lowEnd_ge m e))
    · exact absurd h.2 (not_lt.2 (highEnd_eq m e).le)
  · exact h.1

theorem Surrounds.pos (h : Surrounds m e q) (hm : m ≠ 0) : 0 < q := by
  have hm1 : (1 : ℚ) ≤ m := by exact_mod_cast Nat.one_le_iff_ne_zero.2 hm
  have hu : (0 : ℚ) < 2 ^ e := by positivity
  refine lt_of_lt_of_le ?_ h.near.1
  exact mul_pos (by linarith) hu

end

/-! ## Ratios -/

section
variable {negative : Bool} {m num den : Nat} {e : Int}

/-- What is rounded at an exponent is the mantissa, if it is near that multiple of the unit. -/
theorem roundQuotient_scaleDown_eq {E : Int} {c : Nat} (hd : den ≠ 0)
    (hlow : (c - 1 / 2 : ℚ) * 2 ^ E ≤ num / den) (hhigh : (num : ℚ) / den ≤ (c + 1 / 2) * 2 ^ E)
    (htie : (num : ℚ) / den = (c - 1 / 2) * 2 ^ E ∨ (num : ℚ) / den = (c + 1 / 2) * 2 ^ E →
      c % 2 = 0) :
    roundQuotient (scaleDown num den E).1 (scaleDown num den E).2 = c := by
  have hs := scaleDown_pos num (Nat.pos_of_ne_zero hd) E
  have hratio := scaleDown_ratio num den E
  have hu : (0 : ℚ) < 2 ^ E := by positivity
  generalize scaleDown num den E = s at *
  have hs' : (0 : ℚ) < s.2 := by exact_mod_cast hs
  rw [eq_div_iff hu.ne', eq_comm] at hratio
  rw [hratio, mul_le_mul_iff_left₀ hu] at hlow hhigh
  rw [hratio, mul_left_inj' hu.ne', mul_left_inj' hu.ne'] at htie
  rw [le_div_iff₀ hs'] at hlow
  rw [div_le_iff₀ hs'] at hhigh
  rw [div_eq_iff hs'.ne', div_eq_iff hs'.ne'] at htie
  refine roundQuotient_eq hs ?_ ?_ fun h => htie ?_
  · have hnat : 2 * ((c : ℚ) * s.2) ≤ 2 * s.1 + s.2 := by linarith
    exact_mod_cast hnat
  · have hnat : 2 * (s.1 : ℚ) ≤ 2 * (c * s.2) + s.2 := by linarith
    exact_mod_cast hnat
  · refine h.imp (fun h => ?_) fun h => ?_
    · have hnat : 2 * ((c : ℚ) * s.2) = 2 * s.1 + s.2 := by exact_mod_cast h
      linarith
    · have hnat : 2 * (s.1 : ℚ) = 2 * (c * s.2) + s.2 := by exact_mod_cast h
      linarith

/-- A number in the interval has the exponent of the double, or the next smaller one if it lies
below a power of two. -/
theorem exponentFor_cases (hc : Canonical m e) (hn : num ≠ 0) (hd : den ≠ 0)
    (h : Surrounds m e (num / den)) :
    exponentFor num den = e ∨
      exponentFor num den = e - 1 ∧ m = 2 ^ 52 ∧ lowEnd m e = (2 ^ 53 - 1 / 2) * 2 ^ (e - 1) ∧
        (num : ℚ) / den < 2 ^ 53 * 2 ^ (e - 1) := by
  obtain ⟨hm, hmin, -, hfull⟩ := hc
  obtain ⟨hE, hhigh, hlow⟩ := exponentFor_spec hn hd
  obtain ⟨hge, hle⟩ := h.bounds
  rw [highEnd_eq] at hle
  have hm' : (m : ℚ) + 1 ≤ 2 ^ 53 := by
    rw [Nat.shiftLeft_eq] at hm
    exact_mod_cast hm
  have hu : (0 : ℚ) < 2 ^ e := by positivity
  generalize exponentFor num den = E at *
  rcases lt_trichotomy E e with hlt | rfl | hgt
  · right
    have he : -1074 < e := by omega
    have hm52 : (2 : ℚ) ^ 52 ≤ m := by
      have hm52 : 1 <<< 52 ≤ m := hfull.resolve_right (by omega)
      rw [Nat.shiftLeft_eq, Nat.one_mul] at hm52
      exact_mod_cast hm52
    have hpow : (2 : ℚ) ^ (e - 1) = 2 ^ e / 2 := by rw [zpow_sub_one₀ (by norm_num)]; ring
    have hEle : (2 : ℚ) ^ E ≤ 2 ^ (e - 1) := two_zpow_le (by omega)
    have hlt52 : (num : ℚ) / den < 2 ^ 52 * 2 ^ e := by
      rw [hpow] at hEle
      linarith
    have hm : m = 2 ^ 52 := by
      by_contra hne
      have hm1 : (2 : ℚ) ^ 52 + 1 ≤ m := by
        have hlt : 2 ^ 52 < m := lt_of_le_of_ne (by exact_mod_cast hm52) (Ne.symm hne)
        exact_mod_cast hlt
      have hnear := lowEnd_ge m e
      nlinarith
    have hlowEnd : lowEnd m e = (2 ^ 53 - 1 / 2) * 2 ^ (e - 1) := by
      rw [lowEnd, if_pos ⟨hm, he⟩, hm, zpow_sub_two, hpow]
      push_cast
      ring
    refine ⟨?_, hm, hlowEnd, ?_⟩
    · by_contra hne
      have hEle : (2 : ℚ) ^ E ≤ 2 ^ (e - 2) := two_zpow_le (by omega)
      rw [hlowEnd, hpow] at hge
      rw [zpow_sub_two] at hEle
      linarith
    · rw [hpow]
      linarith
  · exact .inl rfl
  · have hpow : (2 : ℚ) ^ (e + 1) ≤ 2 ^ E := two_zpow_le (by omega)
    rw [zpow_add_one₀ (by norm_num)] at hpow
    have hlow := hlow (by omega)
    nlinarith

/-- A ratio in the interval around a double is rounded to it. -/
theorem ofRatio_of_surrounds (hc : Canonical m e) (hm : m ≠ 0) (hd : den ≠ 0)
    (h : Surrounds m e (num / den)) : ofRatio negative num den = .finite negative m e hc := by
  have hn : num ≠ 0 := by
    rintro rfl
    have hpos := h.pos hm
    simp at hpos
  rw [ofRatio, if_neg hn]
  rcases exponentFor_cases hc hn hd h with hE | ⟨hE, rfl, hlowEnd, hlt⟩
  · have hround := roundQuotient_scaleDown_eq hd h.near.1 h.near.2 h.even_of_far
    have hcarry : m ≠ 1 <<< 53 := hc.1.ne
    simp only [hE, hround, if_neg hcarry, dif_pos hc]
  · -- the mantissa is carried over
    have hu : (0 : ℚ) < 2 ^ (e - 1) := by positivity
    have hcast : ((1 <<< 53 : Nat) : ℚ) = 2 ^ 53 := by rw [Nat.shiftLeft_eq]; norm_num
    have hround : roundQuotient (scaleDown num den (e - 1)).1 (scaleDown num den (e - 1)).2
        = 1 <<< 53 := by
      refine roundQuotient_scaleDown_eq hd ?_ ?_ fun _ => by decide
      · rw [hcast, ← hlowEnd]
        exact h.bounds.1
      · rw [hcast]
        linarith
    have hcan : Canonical (1 <<< 52) e := hc
    simp only [hE, hround, if_true, sub_add_cancel, dif_pos hcan]
    rfl

end

/-! ## Decimals -/

section
variable {negative : Bool} {m digits : Nat} {e power : Int}

/-- A decimal in the interval around a double is read as the double. -/
theorem ofDecimal_of_surrounds (hc : Canonical m e) (hm : m ≠ 0)
    (h : Surrounds m e (digits * 10 ^ power)) :
    ofDecimal negative digits power = .finite negative m e hc := by
  have hdigits : digits ≠ 0 := by
    rintro rfl
    have hpos := h.pos hm
    simp at hpos
  have hd1 : (1 : ℚ) ≤ digits := by exact_mod_cast Nat.one_le_iff_ne_zero.2 hdigits
  have hm53 : (m : ℚ) + 1 ≤ 2 ^ 53 := by
    have hm53 := hc.1
    rw [Nat.shiftLeft_eq] at hm53
    exact_mod_cast hm53
  have hm1 : (1 : ℚ) ≤ m := by exact_mod_cast Nat.one_le_iff_ne_zero.2 hm
  obtain ⟨hlow, hhigh⟩ := h.near
  have hbig : ¬ 400 < power := by
    intro hp
    have h10 : (2 : ℚ) ^ (1200 : Int) ≤ 10 ^ power := by
      calc (2 : ℚ) ^ (1200 : Int) = 8 ^ (400 : Int) := by
            rw [show (1200 : Int) = 3 * 400 by rfl, zpow_mul]
            norm_num
        _ ≤ 10 ^ (400 : Int) := zpow_le_zpow_left₀ (by norm_num) (by norm_num) (by norm_num)
        _ ≤ 10 ^ power := zpow_le_zpow_right₀ (by norm_num) hp.le
    have hmax : (2 : ℚ) ^ e ≤ 2 ^ (971 : Int) := two_zpow_le hc.2.2.1
    have hsmall : (2 : ℚ) ^ 53 * 2 ^ (971 : Int) < 2 ^ (1200 : Int) := by
      rw [← zpow_natCast, ← zpow_add₀ (by norm_num)]
      exact zpow_lt_zpow_right₀ (by norm_num) (by norm_num)
    have hp0 : (0 : ℚ) < 10 ^ power := by positivity
    have hle : (10 : ℚ) ^ power ≤ digits * 10 ^ power := le_mul_of_one_le_left hp0.le hd1
    have hunit : (m + 1 / 2 : ℚ) * 2 ^ e ≤ 2 ^ 53 * 2 ^ (971 : Int) := by
      refine mul_le_mul ?_ hmax (by positivity) (by norm_num)
      linarith
    exact absurd (h10.trans (hle.trans (hhigh.trans hunit))) (not_le.2 hsmall)
  have htiny : ¬ power < -400 - (digits.log2 : Int) := by
    intro hp
    have hlog : (digits : ℚ) < 2 ^ ((digits.log2 : Int) + 1) := by
      exact_mod_cast Nat.lt_log2_self
    have h10 : (10 : ℚ) ^ power ≤ 2 ^ (-1203 - (digits.log2 : Int)) := by
      calc (10 : ℚ) ^ power ≤ 10 ^ (-401 - (digits.log2 : Int)) :=
            zpow_le_zpow_right₀ (by norm_num) (by omega)
        _ ≤ 8 ^ (-401 - (digits.log2 : Int)) := by
            rw [← neg_add', zpow_neg, zpow_neg]
            exact inv_anti₀ (by positivity)
              (zpow_le_zpow_left₀ (by omega) (by norm_num) (by norm_num))
        _ = 2 ^ (3 * (-401 - (digits.log2 : Int))) := by
            rw [zpow_mul]
            norm_num
        _ ≤ 2 ^ (-1203 - (digits.log2 : Int)) := two_zpow_le (by omega)
    have hmin : (2 : ℚ) ^ (-1075 : Int) ≤ 2 ^ (e - 1) := two_zpow_le (by have := hc.2.1; omega)
    have hq : (digits : ℚ) * 10 ^ power < 2 ^ (-1202 : Int) := by
      calc (digits : ℚ) * 10 ^ power
          < 2 ^ ((digits.log2 : Int) + 1) * 10 ^ power := by gcongr
        _ ≤ 2 ^ ((digits.log2 : Int) + 1) * 2 ^ (-1203 - (digits.log2 : Int)) := by gcongr
        _ = 2 ^ (-1202 : Int) := by
            rw [← zpow_add₀ (by norm_num)]
            congr 1
            ring
    have hle : (2 : ℚ) ^ (-1202 : Int) ≤ 2 ^ (-1075 : Int) := two_zpow_le (by norm_num)
    rw [zpow_sub_one₀ (by norm_num)] at hmin
    have hu : (0 : ℚ) < 2 ^ e := by positivity
    nlinarith
  rw [ofDecimal, if_neg hdigits, if_neg hbig, if_neg htiny]
  split
  · rename_i hp
    obtain ⟨n, rfl⟩ := Int.eq_ofNat_of_zero_le hp
    refine ofRatio_of_surrounds hc hm one_ne_zero ?_
    rw [zpow_natCast] at h
    simpa using h
  · rename_i hp
    obtain ⟨n, hn⟩ := Int.eq_ofNat_of_zero_le (by omega : 0 ≤ -power)
    obtain rfl : power = -n := by omega
    refine ofRatio_of_surrounds hc hm (by simp) ?_
    rw [zpow_neg, zpow_natCast, ← div_eq_mul_inv] at h
    simpa using h

end

end StepGraph.Double
