import StepGraph.Proofs.Num.Double

/-!
# The value of a rounded number

A rational number is rounded to a whole multiple of its unit, two to the power of its exponent
(`exponentOf`, `mantissaOf`, `toRat?_ofRat`). The multiple is that in whose neighbourhood of half a
unit the number lies (`mantissaOf_eq`), and the even one of two that are equally near
(`mantissaOf_half_even`). A number with no more than 53 bits is not changed
(`toRat?_ofRat_exact`).
-/

set_option autoImplicit false

namespace StepGraph.Double

/-! ## Quotients -/

section
variable {num den c : Nat}

/-- The quotient is rounded to a number that is no further than a half away, and even if it is that
far away. -/
theorem roundQuotient_eq (hd : 0 < den) (hlow : 2 * (c * den) ≤ 2 * num + den)
    (hhigh : 2 * num ≤ 2 * (c * den) + den)
    (htie : 2 * (c * den) = 2 * num + den ∨ 2 * num = 2 * (c * den) + den → c % 2 = 0) :
    roundQuotient num den = c := by
  have hdiv := Nat.div_add_mod num den
  have hmod := Nat.mod_lt num hd
  simp only [roundQuotient]
  generalize num / den = q at *
  generalize num % den = r at *
  rw [Nat.mul_comm] at hdiv
  have hle : q ≤ c := by
    by_contra hlt
    have hmul := Nat.mul_le_mul_right den (show c + 1 ≤ q by omega)
    rw [Nat.add_one_mul] at hmul
    omega
  have hge : c ≤ q + 1 := by
    by_contra hlt
    have hmul := Nat.mul_le_mul_right den (show q + 1 + 1 ≤ c by omega)
    rw [Nat.add_one_mul, Nat.add_one_mul] at hmul
    omega
  rcases Nat.lt_or_eq_of_le hge with hlt | rfl
  · obtain rfl : c = q := by omega
    rw [if_neg (by omega)]
  · rw [Nat.add_one_mul q den] at hlow hhigh htie
    rw [if_pos (by omega)]

/-- Half way between two numbers the even one is taken. -/
theorem roundQuotient_half_even (hd : 0 < den) (h : 2 * num = 2 * (c * den) + den) :
    roundQuotient num den % 2 = 0 := by
  rcases Nat.mod_two_eq_zero_or_one c with hc | hc
  · rw [roundQuotient_eq hd (by omega) (by omega) fun _ => hc]
    exact hc
  · have hs := Nat.add_one_mul c den
    rw [roundQuotient_eq (c := c + 1) hd (by omega) (by omega) fun _ => by omega]
    omega

end

/-! ## The parts of a rounded number -/

/-- The value of a rounded ratio. A mantissa of `2 ^ 53` is carried to the next exponent, which
leaves the value as it is. -/
theorem toRat?_ofRatio {negative : Bool} {num den : Nat} (hn : num ≠ 0)
    (hf : (ofRatio negative num den).isFinite = true) :
    (ofRatio negative num den).toRat? =
      let scaled := scaleDown num den (exponentFor num den)
      let q : ℚ := (roundQuotient scaled.1 scaled.2 : ℚ) * 2 ^ exponentFor num den
      some (if negative then -q else q) := by
  simp only [ofRatio, if_neg hn] at hf ⊢
  generalize exponentFor num den = e at *
  generalize roundQuotient (scaleDown num den e).1 (scaleDown num den e).2 = m at *
  have hcarry : ((1 <<< 52 : Nat) : ℚ) * (2 : ℚ) ^ (e + 1) = ((1 <<< 53 : Nat) : ℚ) * (2 : ℚ) ^ e := by
    rw [zpow_add_one₀ (by norm_num), Nat.shiftLeft_eq, Nat.shiftLeft_eq]
    push_cast
    ring
  by_cases hm : m = 1 <<< 53
  · rw [if_pos hm] at hf ⊢
    split at hf
    · rename_i hcan
      rw [dif_pos hcan, toRat?]
      dsimp only
      rw [hcarry, hm]
    · cases hf
  · rw [if_neg hm] at hf ⊢
    split at hf
    · rename_i hcan
      rw [dif_pos hcan, toRat?]
    · cases hf

/-- A ratio that is rounded to a finite double has the exponent of one. -/
theorem exponentFor_le_of_isFinite {negative : Bool} {num den : Nat} (hn : num ≠ 0)
    (hf : (ofRatio negative num den).isFinite = true) : exponentFor num den ≤ 971 := by
  simp only [ofRatio, if_neg hn] at hf
  generalize exponentFor num den = e at *
  generalize roundQuotient (scaleDown num den e).1 (scaleDown num den e).2 = m at *
  by_cases hm : m = 1 <<< 53
  · rw [if_pos hm] at hf
    split at hf
    · rename_i hcan
      have hle : e + 1 ≤ 971 := hcan.2.2.1
      omega
    · cases hf
  · rw [if_neg hm] at hf
    split at hf
    · rename_i hcan
      exact hcan.2.2.1
    · cases hf

/-- A ratio with few enough bits is not changed by rounding. -/
theorem toRat?_ofRatio_exact {negative : Bool} {num den m : Nat} {e : Int} (hn : num ≠ 0)
    (hd : den ≠ 0) (hm : m < 2 ^ 53) (he : -1074 ≤ e) (hq : (num : ℚ) / den = m * 2 ^ e)
    (hf : (ofRatio negative num den).isFinite = true) : (ofRatio negative num den).toRat? =
      some (if negative then -((num : ℚ) / den) else (num : ℚ) / den) := by
  obtain ⟨-, -, hlow⟩ := exponentFor_spec hn hd
  have hle : exponentFor num den ≤ e := by
    by_contra hlt
    have hlow := hlow (by omega)
    have hpow : (2 : ℚ) ^ (53 + e) ≤ 2 ^ (52 + exponentFor num den) :=
      zpow_le_zpow_right₀ (by norm_num) (by omega)
    have hm' : (m : ℚ) < 2 ^ 53 := by exact_mod_cast hm
    have hlt' : (m : ℚ) * 2 ^ e < 2 ^ 53 * 2 ^ e := mul_lt_mul_of_pos_right hm' (by positivity)
    rw [zpow_add₀ (by norm_num), zpow_add₀ (by norm_num)] at hpow
    rw [hq] at hlow
    exact absurd (hlow.trans_lt (hlt'.trans_le hpow)) (lt_irrefl _)
  obtain ⟨k, hk⟩ := Int.le.dest hle
  have hmul : (num : ℚ) / den = ((m * 2 ^ k : Nat) : ℚ) * 2 ^ exponentFor num den := by
    rw [hq, ← hk, zpow_add₀ (by norm_num), zpow_natCast]
    push_cast
    ring
  -- at its exponent the ratio is whole
  have hscaled := scaleDown_pos num (Nat.pos_of_ne_zero hd) (exponentFor num den)
  have hratio := scaleDown_ratio num den (exponentFor num den)
  rw [hmul, mul_div_cancel_right₀ _ (by positivity)] at hratio
  rw [toRat?_ofRatio hn hf, hmul]
  generalize scaleDown num den (exponentFor num den) = scaled at *
  rw [div_eq_iff (by exact_mod_cast hscaled.ne')] at hratio
  have hwhole : scaled.1 = m * 2 ^ k * scaled.2 := by exact_mod_cast hratio
  have hround : roundQuotient scaled.1 scaled.2 = m * 2 ^ k :=
    roundQuotient_eq hscaled (by omega) (by omega) (by omega)
  simp only [hround]

/-- The exponent at which a number is rounded. -/
def exponentOf (q : ℚ) : Int :=
  exponentFor q.num.natAbs q.den

/-- The whole number that a number is rounded to at its exponent. -/
def mantissaOf (q : ℚ) : Nat :=
  let scaled := scaleDown q.num.natAbs q.den (exponentOf q)
  roundQuotient scaled.1 scaled.2

theorem abs_eq_div (q : ℚ) : |q| = (q.num.natAbs : ℚ) / q.den := by
  rw [Nat.cast_natAbs, Int.cast_abs, ← Nat.abs_cast q.den, ← abs_div, Rat.num_div_den]

section
variable {q : ℚ} (h : q ≠ 0)
include h

theorem exponentOf_spec : -1074 ≤ exponentOf q ∧ |q| < 2 ^ 53 * 2 ^ exponentOf q ∧
    (exponentOf q ≠ -1074 → (2 : ℚ) ^ 52 * 2 ^ exponentOf q ≤ |q|) := by
  rw [abs_eq_div]
  exact exponentFor_spec (Int.natAbs_ne_zero.2 (Rat.num_ne_zero.2 h)) q.den_ne_zero

/-- A large number is rounded to a whole one. -/
theorem exponentOf_nonneg (hbig : (2 : ℚ) ^ 52 ≤ |q|) : 0 ≤ exponentOf q := by
  by_contra hneg
  have hhigh := (exponentOf_spec h).2.1
  have hpow : (2 : ℚ) ^ exponentOf q ≤ 2 ^ (-1 : Int) :=
    zpow_le_zpow_right₀ (by norm_num) (by omega)
  norm_num at hpow hhigh hbig
  linarith

theorem mantissaOf_le : mantissaOf q ≤ 2 ^ 53 := by
  have hs := (exponentOf_spec h).2.1
  rw [abs_eq_div] at hs
  have hle := roundQuotient_scaleDown_le q.den_pos hs
  rwa [Nat.shiftLeft_eq, Nat.one_mul] at hle

theorem toRat?_ofRat (hf : (ofRat q).isFinite = true) : (ofRat q).toRat? =
    some (if q < 0 then -((mantissaOf q : ℚ) * 2 ^ exponentOf q)
      else (mantissaOf q : ℚ) * 2 ^ exponentOf q) := by
  rw [ofRat, toRat?_ofRatio (Int.natAbs_ne_zero.2 (Rat.num_ne_zero.2 h)) hf]
  simp only [mantissaOf, exponentOf, decide_eq_true_eq]

omit h in
/-- A number that is near a multiple of its unit has that multiple as mantissa, if it is no further
away than half a unit, and only from an even one as far. -/
theorem mantissaOf_eq {c : Nat} (hnear : |(|q| / 2 ^ exponentOf q - c)| ≤ 1 / 2)
    (htie : |(|q| / 2 ^ exponentOf q - c)| = 1 / 2 → c % 2 = 0) : mantissaOf q = c := by
  have hd := scaleDown_pos q.num.natAbs q.den_pos (exponentOf q)
  rw [abs_eq_div q, ← scaleDown_ratio] at hnear htie
  rw [mantissaOf]
  generalize scaleDown q.num.natAbs q.den (exponentOf q) = s at *
  obtain ⟨num, den⟩ := s
  dsimp only at *
  have hd' : (0 : ℚ) < den := by exact_mod_cast hd
  have hdist : (num : ℚ) / den - c = (num - c * den) / den := by
    rw [sub_div, mul_div_cancel_right₀ _ hd'.ne']
  rw [hdist, abs_div, abs_of_pos hd'] at hnear htie
  rw [div_le_iff₀ hd', abs_le] at hnear
  rw [div_eq_iff hd'.ne'] at htie
  obtain ⟨hlow, hhigh⟩ := hnear
  refine roundQuotient_eq hd ?_ ?_ fun h => htie ?_
  · have hlow' : 2 * ((c : ℚ) * den) ≤ 2 * num + den := by linarith
    exact_mod_cast hlow'
  · have hhigh' : 2 * (num : ℚ) ≤ 2 * (c * den) + den := by linarith
    exact_mod_cast hhigh'
  · rcases h with h | h
    · have h' : 2 * ((c : ℚ) * den) = 2 * num + den := by exact_mod_cast h
      rw [abs_of_nonpos] <;> linarith
    · have h' : 2 * (num : ℚ) = 2 * (c * den) + den := by exact_mod_cast h
      rw [abs_of_nonneg] <;> linarith

omit h in
theorem mantissaOf_of_eq_mul {c : Nat} (hc : |q| = c * 2 ^ exponentOf q) : mantissaOf q = c := by
  have hu : (2 : ℚ) ^ exponentOf q ≠ 0 := by positivity
  have hzero : |q| / 2 ^ exponentOf q - c = 0 := by
    rw [hc, mul_div_cancel_right₀ _ hu, sub_self]
  refine mantissaOf_eq (by rw [hzero]; norm_num) fun h => ?_
  rw [hzero] at h
  norm_num at h

omit h in
/-- Half way between two multiples of its unit a number gets an even mantissa. -/
theorem mantissaOf_half_even {c : Nat} (hq : |q| / 2 ^ exponentOf q = c + 1 / 2) :
    mantissaOf q % 2 = 0 := by
  have hd := scaleDown_pos q.num.natAbs q.den_pos (exponentOf q)
  rw [abs_eq_div q, ← scaleDown_ratio] at hq
  rw [mantissaOf]
  generalize scaleDown q.num.natAbs q.den (exponentOf q) = s at *
  obtain ⟨num, den⟩ := s
  dsimp only at *
  have hd' : (0 : ℚ) < den := by exact_mod_cast hd
  rw [div_eq_iff hd'.ne'] at hq
  have h : 2 * (num : ℚ) = 2 * (c * den) + den := by linarith
  exact roundQuotient_half_even hd (by exact_mod_cast h)

/-- A number with few enough bits is not changed by rounding. -/
theorem toRat?_ofRat_exact {m : Nat} {e : Int} (hm : m < 2 ^ 53) (he : -1074 ≤ e)
    (hq : |q| = m * 2 ^ e) (hf : (ofRat q).isFinite = true) : (ofRat q).toRat? = some q := by
  rw [abs_eq_div] at hq
  have hn : q.num.natAbs ≠ 0 := Int.natAbs_ne_zero.2 (Rat.num_ne_zero.2 h)
  rw [ofRat, toRat?_ofRatio_exact hn q.den_ne_zero hm he hq hf, ← abs_eq_div]
  simp only [decide_eq_true_eq]
  split
  · rw [abs_of_neg ‹_›, neg_neg]
  · rw [abs_of_nonneg (not_lt.1 ‹_›)]

end

/-! ## Finite doubles -/

theorem ofInt_eq (n : Int) : ofInt n = ofRat n := by
  simp [ofInt, ofRat]

/-- A whole number that is finite as a double has no more than 1024 bits. -/
theorem natAbs_lt_of_isFinite {n : Int} (hf : (ofInt n).isFinite = true) {bits : Nat}
    (hbits : 1024 ≤ bits) : n.natAbs < 2 ^ bits := by
  by_cases hn : n.natAbs = 0
  · rw [hn]
    exact Nat.two_pow_pos bits
  · obtain ⟨-, hhigh, -⟩ := exponentFor_spec hn one_ne_zero
    have hle := exponentFor_le_of_isFinite hn hf
    rw [Nat.cast_one, div_one] at hhigh
    rw [← @Nat.cast_lt ℚ, Nat.cast_pow, Nat.cast_ofNat]
    calc (n.natAbs : ℚ) < 2 ^ 53 * 2 ^ exponentFor n.natAbs 1 := hhigh
      _ = 2 ^ (53 + exponentFor n.natAbs 1) := by rw [zpow_add₀ (by norm_num)]; rfl
      _ ≤ 2 ^ (bits : Int) := zpow_le_zpow_right₀ (by norm_num) (by omega)
      _ = 2 ^ bits := zpow_natCast 2 bits

theorem toRat?_zero (negative : Bool) : (zero negative).toRat? = some 0 := by
  simp [zero, toRat?]

theorem ofRat_zero : ofRat 0 = zero false := by
  simp [ofRat, ofRatio]

theorem isFinite_of_toRat? {d : Double} {v : ℚ} (h : d.toRat? = some v) : d.isFinite = true := by
  cases d with
  | finite => rfl
  | nan => cases h
  | infinity => cases h

theorem abs_ite_neg (p : Prop) [Decidable p] {v : ℚ} (h : 0 ≤ v) : |if p then -v else v| = v := by
  split
  · rw [abs_neg, abs_of_nonneg h]
  · exact abs_of_nonneg h

theorem abs_of_toRat? {d : Double} {v : ℚ} (h : d.toRat? = some v) :
    ∃ (m : Nat) (e : Int), m < 2 ^ 53 ∧ |v| = m * 2 ^ e := by
  cases d with
  | nan => cases h
  | infinity negative => cases h
  | finite negative m e hc =>
    obtain rfl := Option.some.inj h
    exact ⟨m, e, hc.1, abs_ite_neg _ (by positivity)⟩

theorem abs_of_toRat?_ofRat {q r : ℚ} (hq : q ≠ 0) (h : (ofRat q).toRat? = some r) :
    |r| = (mantissaOf q : ℚ) * 2 ^ exponentOf q := by
  rw [toRat?_ofRat hq (isFinite_of_toRat? h)] at h
  obtain rfl := Option.some.inj h
  exact abs_ite_neg _ (by positivity)

end StepGraph.Double
