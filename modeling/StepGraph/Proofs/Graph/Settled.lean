import StepGraph.Proofs.Graph.Position
import StepGraph.Proofs.Num.Rounded

/-!
# Positions that are rounded already

Rounding a coordinate once more changes nothing, although the half is added in double arithmetic:
what a coordinate is rounded to is `Settled` (`settled_roundHalfUp`), and a settled number is left
alone (`roundHalfUp_of_settled`). Up to `2 ^ 52` the sum with a half is exact. Beyond, doubles are
whole; the sum is half way between two of them or nearer to the first, and the even one is taken, so
an odd number may be moved once and an even one is not moved at all.

* `storedPosition_again`: a position that was stored is stored as it is.
-/

set_option autoImplicit false

namespace StepGraph.Graph

open Double

/-- What a coordinate is rounded to. -/
theorem exists_roundHalfUp {n : Number} (h : n.toDouble.isFinite = true) :
    ∃ v r, n.toDouble.toRat? = some v ∧ (ofRat (v + 1 / 2)).toRat? = some r ∧
      roundHalfUp n = r.floor := by
  obtain ⟨v, hv⟩ := exists_toRat? h
  obtain ⟨r, hr, hfloor⟩ := roundHalfUp_eq h
  refine ⟨v, r, hv, ?_, hfloor⟩
  rw [← hr]
  simp only [add, hv, toRat?_half]
  split
  · rename_i h0
    rw [h0, ofRat_zero, toRat?_zero, toRat?_zero]
  · rfl

/-- A whole number that rounding leaves alone: it is a double, and even where doubles are no
closer than whole numbers. -/
structure Settled (n : Int) : Prop where
  bits : ∃ m e : Nat, m < 2 ^ 53 ∧ n.natAbs = m * 2 ^ e
  even : n.natAbs ≤ 2 ^ 52 ∨ n.natAbs % 2 = 0

theorem settled_of_natAbs_le {n : Int} (h : n.natAbs ≤ 2 ^ 52) : Settled n :=
  ⟨⟨n.natAbs, 0, by omega, by omega⟩, .inl h⟩

theorem settled_of_natAbs_eq {n : Int} {m k : Nat} (hn : n.natAbs = m * 2 ^ k) (hm : m ≤ 2 ^ 53)
    (heven : m % 2 = 0 ∨ k ≠ 0) : Settled n := by
  refine ⟨?_, .inr ?_⟩
  · rcases Nat.lt_or_eq_of_le hm with hlt | rfl
    · exact ⟨m, k, hlt, hn⟩
    · refine ⟨2 ^ 52, k + 1, by decide, ?_⟩
      rw [hn, Nat.pow_succ 2 k]
      omega
  · rw [hn]
    rcases heven with h | h
    · rw [Nat.mul_mod, h, Nat.zero_mul, Nat.zero_mod]
    · obtain ⟨j, rfl⟩ := Nat.exists_eq_succ_of_ne_zero h
      rw [Nat.pow_succ, ← Nat.mul_assoc, Nat.mul_mod_left]

theorem natAbs_floor_le {r : ℚ} {c : Nat} (h : |r| ≤ c) : r.floor.natAbs ≤ c := by
  obtain ⟨hlow, hhigh⟩ := abs_le.1 h
  have hl : -(c : Int) ≤ r.floor := by
    rw [Rat.le_floor_iff]
    push_cast
    exact hlow
  have hu : r.floor ≤ c := by
    have := (Rat.floor_le r).trans hhigh
    exact_mod_cast this
  omega

theorem exists_int_of_abs {r : ℚ} {c : Nat} (h : |r| = c) : ∃ z : Int, r = z ∧ z.natAbs = c := by
  rcases abs_choice r with hr | hr
  · refine ⟨c, ?_, Int.natAbs_natCast c⟩
    rw [← hr, h, Int.cast_natCast]
  · refine ⟨-c, ?_, by rw [Int.natAbs_neg, Int.natAbs_natCast]⟩
    rw [← neg_neg r, ← hr, h, Int.cast_neg, Int.cast_natCast]

theorem floor_of_abs_eq {r : ℚ} {c : Nat} (h : |r| = c) : r.floor.natAbs = c := by
  obtain ⟨z, rfl, hz⟩ := exists_int_of_abs h
  rwa [Rat.floor_intCast]

/-- A half added to a whole number is half way between two natural numbers, whatever the sign. -/
theorem abs_add_half (z : Int) : ∃ c : Nat, |(z : ℚ) + 1 / 2| = c + 1 / 2 := by
  rcases lt_or_ge z 0 with hz | hz
  · obtain ⟨c, rfl⟩ := Int.exists_eq_neg_ofNat hz.le
    obtain ⟨c, rfl⟩ := Nat.exists_eq_succ_of_ne_zero (show c ≠ 0 by omega)
    refine ⟨c, ?_⟩
    have hc : (0 : ℚ) ≤ c := by positivity
    push_cast
    rw [abs_of_nonpos (by linarith)]
    ring
  · obtain ⟨c, rfl⟩ := Int.eq_ofNat_of_zero_le hz
    refine ⟨c, ?_⟩
    rw [Int.cast_natCast, abs_of_nonneg (by positivity)]

/-- Where doubles are as close as whole numbers, the sum of a double and a half is rounded to an
even one: it is half way between two if the double is whole, and `2 ^ 52` otherwise. -/
theorem mantissaOf_add_half_even {d : Double} {v : ℚ} (h : d.toRat? = some v)
    (h0 : v + 1 / 2 ≠ 0) (he : exponentOf (v + 1 / 2) = 0) : mantissaOf (v + 1 / 2) % 2 = 0 := by
  obtain ⟨m, e, hm, hv⟩ := abs_of_toRat? h
  rcases lt_or_ge e 0 with hneg | hpos
  · have hm' : (m : ℚ) ≤ 2 ^ 53 - 1 := by
      rw [le_sub_iff_add_le]
      exact_mod_cast hm
    have hpow : (2 : ℚ) ^ e ≤ 2 ^ (-1 : Int) := zpow_le_zpow_right₀ (by norm_num) (by omega)
    have hle : |v| ≤ (2 ^ 53 - 1) * 2 ^ (-1 : Int) := by
      rw [hv]
      exact mul_le_mul hm' hpow (by positivity) (by norm_num)
    have hlow := (exponentOf_spec h0).2.2 (by omega)
    have habs := abs_add_le v (1 / 2)
    have heq : |v + 1 / 2| = 2 ^ 52 := by
      rw [he] at hlow
      norm_num at hle hlow habs ⊢
      linarith
    rw [mantissaOf_of_eq_mul (c := 2 ^ 52) (by rw [he, heq]; norm_num)]
    rfl
  · obtain ⟨k, rfl⟩ := Int.eq_ofNat_of_zero_le hpos
    have hwhole : |v| = (m * 2 ^ k : Nat) := by
      rw [hv, zpow_natCast]
      push_cast
      rfl
    obtain ⟨z, rfl, -⟩ := exists_int_of_abs hwhole
    obtain ⟨c, hc⟩ := abs_add_half z
    refine mantissaOf_half_even (c := c) ?_
    rw [he, hc, zpow_zero, div_one]

theorem settled_roundHalfUp {n : Number} (h : n.toDouble.isFinite = true) :
    Settled (roundHalfUp n) := by
  obtain ⟨v, r, hv, hr, hfloor⟩ := exists_roundHalfUp h
  rw [hfloor]
  by_cases h0 : v + 1 / 2 = 0
  · rw [h0, ofRat_zero, toRat?_zero] at hr
    obtain rfl := Option.some.inj hr
    exact settled_of_natAbs_le (by decide)
  have habs := abs_of_toRat?_ofRat h0 hr
  have hm := mantissaOf_le h0
  rcases lt_or_ge (exponentOf (v + 1 / 2)) 0 with hneg | hpos
  · -- there are fewer than 53 bits before the point
    have hm' : (mantissaOf (v + 1 / 2) : ℚ) ≤ 2 ^ 53 := by exact_mod_cast hm
    have hpow : (2 : ℚ) ^ exponentOf (v + 1 / 2) ≤ 2 ^ (-1 : Int) :=
      zpow_le_zpow_right₀ (by norm_num) (by omega)
    refine settled_of_natAbs_le (natAbs_floor_le ?_)
    calc |r| = mantissaOf (v + 1 / 2) * 2 ^ exponentOf (v + 1 / 2) := habs
      _ ≤ 2 ^ 53 * 2 ^ (-1 : Int) := mul_le_mul hm' hpow (by positivity) (by positivity)
      _ = (2 ^ 52 : Nat) := by norm_num
  · obtain ⟨k, hk⟩ := Int.eq_ofNat_of_zero_le hpos
    have hfloor : r.floor.natAbs = mantissaOf (v + 1 / 2) * 2 ^ k := by
      refine floor_of_abs_eq ?_
      rw [habs, hk, zpow_natCast]
      push_cast
      rfl
    refine settled_of_natAbs_eq hfloor hm ?_
    by_cases hk0 : k = 0
    · exact .inl (mantissaOf_add_half_even hv h0 (by rw [hk, hk0]; rfl))
    · exact .inr hk0

theorem toRat?_ofInt_of_settled {n : Int} (hn : Settled n) (hf : (ofInt n).isFinite = true) :
    (ofInt n).toRat? = some (n : ℚ) := by
  obtain ⟨m, e, hm, hbits⟩ := hn.bits
  rw [ofInt_eq] at hf ⊢
  by_cases h0 : (n : ℚ) = 0
  · rw [h0, ofRat_zero, toRat?_zero]
  · refine toRat?_ofRat_exact h0 hm (e := e) (by omega) ?_ hf
    rw [zpow_natCast, ← Int.cast_abs, ← Int.natCast_natAbs, hbits]
    push_cast
    rfl

theorem floor_add_half (n : Int) : ((n : ℚ) + 1 / 2).floor = n := by
  have hle : n ≤ ((n : ℚ) + 1 / 2).floor := by
    rw [Rat.le_floor_iff]
    linarith
  have hge : ((n : ℚ) + 1 / 2).floor < n + 1 := by
    have := Rat.floor_le ((n : ℚ) + 1 / 2)
    have : ((((n : ℚ) + 1 / 2).floor : Int) : ℚ) < ((n + 1 : Int) : ℚ) := by
      push_cast
      linarith
    exact_mod_cast this
  omega

theorem abs_add_half_sub (n : Int) : |(|(n : ℚ) + 1 / 2| - n.natAbs)| = 1 / 2 := by
  rcases lt_or_ge n 0 with hn | hn
  · have hn' : (n : ℚ) ≤ -1 := by exact_mod_cast Int.le_sub_one_of_lt hn
    have habs : (n.natAbs : ℚ) = -n := by
      rw [Nat.cast_natAbs, abs_of_neg hn]
      push_cast
      rfl
    rw [abs_of_nonpos (by linarith : (n : ℚ) + 1 / 2 ≤ 0), habs, abs_of_nonpos] <;> linarith
  · have hn' : (0 : ℚ) ≤ n := by exact_mod_cast hn
    have habs : (n.natAbs : ℚ) = n := by rw [Nat.cast_natAbs, abs_of_nonneg hn]
    rw [abs_of_nonneg (by linarith : 0 ≤ (n : ℚ) + 1 / 2), habs, abs_of_nonneg] <;> linarith

theorem add_half_ne_zero (n : Int) : (n : ℚ) + 1 / 2 ≠ 0 := by
  intro h
  have h2 : ((2 * n + 1 : Int) : ℚ) = 0 := by
    push_cast
    linarith
  have : 2 * n + 1 = 0 := by exact_mod_cast h2
  omega

/-- A number half away from a double has no larger unit than the double. -/
theorem le_of_near {q : ℚ} {a m e k : Nat} (hm : m < 2 ^ 53) (ha : a = m * 2 ^ e)
    (hdist : |(|q| - a)| = 1 / 2) (hlow : (2 : ℚ) ^ 52 * 2 ^ k ≤ |q|) : k ≤ e := by
  have hle := (abs_le.1 hdist.le).2
  have hlt : (2 : ℚ) ^ 52 * 2 ^ k < a + 1 := by linarith
  have hlt' : 2 ^ 52 * 2 ^ k < a + 1 := by exact_mod_cast hlt
  have hup : m * 2 ^ e < 2 ^ 53 * 2 ^ e := Nat.mul_lt_mul_of_pos_right hm (Nat.two_pow_pos e)
  have hpow : 2 ^ (52 + k) < 2 ^ (53 + e) := by
    rw [Nat.pow_add, Nat.pow_add]
    omega
  have := (Nat.pow_lt_pow_iff_right (by decide)).1 hpow
  omega

/-- A number half away from an even multiple of its unit is rounded to it. -/
theorem mantissaOf_of_near {q : ℚ} {a m k : Nat} (hk : exponentOf q = k) (ha : a = m * 2 ^ k)
    (heven : a % 2 = 0) (hdist : |(|q| - a)| = 1 / 2) : mantissaOf q = m := by
  have hu : (0 : ℚ) < 2 ^ k := by positivity
  have hdiv : |q| / 2 ^ k - (m : Nat) = (|q| - a) / 2 ^ k := by
    rw [ha, Nat.cast_mul, Nat.cast_pow, Nat.cast_ofNat, sub_div, mul_div_cancel_right₀ _ hu.ne']
  have hquot : |(|q| / 2 ^ exponentOf q - m)| = 1 / 2 / 2 ^ k := by
    rw [hk, zpow_natCast, hdiv, abs_div, hdist, abs_of_pos hu]
  refine mantissaOf_eq ?_ fun htie => ?_
  · rw [hquot]
    exact div_le_self (by norm_num) (one_le_pow₀ (by norm_num))
  · -- the distance is half a unit only if the unit is one
    rw [hquot, div_eq_iff hu.ne', left_eq_mul₀ (by norm_num)] at htie
    obtain rfl : k = 0 := by
      by_contra hk0
      exact absurd htie (one_lt_pow₀ (by norm_num) hk0).ne'
    rw [← heven, ha, Nat.pow_zero, Nat.mul_one]

/-- Where doubles are no closer than whole numbers, the sum of an even double and a half is rounded
back to the double. -/
theorem mantissaOf_add_half {n : Int} {m e : Nat} (hm : m < 2 ^ 53) (hbits : n.natAbs = m * 2 ^ e)
    (heven : n.natAbs % 2 = 0) (hbig : (2 : ℚ) ^ 52 ≤ |(n : ℚ) + 1 / 2|) :
    (mantissaOf ((n : ℚ) + 1 / 2) : ℚ) * 2 ^ exponentOf ((n : ℚ) + 1 / 2) = n.natAbs := by
  have hdist := abs_add_half_sub n
  have h0 := add_half_ne_zero n
  obtain ⟨-, -, hlow⟩ := exponentOf_spec h0
  obtain ⟨k, hk⟩ := Int.eq_ofNat_of_zero_le (exponentOf_nonneg h0 hbig)
  generalize (n : ℚ) + 1 / 2 = q at *
  rw [hk, zpow_natCast] at hlow
  obtain ⟨j, rfl⟩ := Nat.exists_eq_add_of_le (le_of_near hm hbits hdist (hlow (by omega)))
  have hsplit : n.natAbs = m * 2 ^ j * 2 ^ k := by
    rw [hbits, Nat.pow_add]
    ring
  rw [mantissaOf_of_near hk hsplit heven hdist, hk, zpow_natCast, hsplit]
  push_cast
  rfl

/-- The sum of a small number and a half has few enough bits. -/
theorem toRat?_add_half_of_small {n : Int} (hlow : -2 ^ 52 ≤ n) (hhigh : n < 2 ^ 52)
    (hf : (ofRat ((n : ℚ) + 1 / 2)).isFinite = true) :
    (ofRat ((n : ℚ) + 1 / 2)).toRat? = some ((n : ℚ) + 1 / 2) := by
  have habs : |(n : ℚ) + 1 / 2| = (2 * n + 1).natAbs * 2 ^ (-1 : Int) := by
    rw [Nat.cast_natAbs, Int.cast_abs, zpow_neg_one, ← abs_of_pos (by norm_num : (0 : ℚ) < 2⁻¹),
      ← abs_mul]
    push_cast
    congr 1
    ring
  exact toRat?_ofRat_exact (add_half_ne_zero n) (by omega) (by norm_num) habs hf

/-- The sum of a large settled number and a half is rounded back to the number. -/
theorem toRat?_add_half_of_large {n : Int} (hn : Settled n) (hlarge : ¬ (-2 ^ 52 ≤ n ∧ n < 2 ^ 52))
    (hf : (ofRat ((n : ℚ) + 1 / 2)).isFinite = true) :
    (ofRat ((n : ℚ) + 1 / 2)).toRat? = some (n : ℚ) := by
  have heven : n.natAbs % 2 = 0 := by
    rcases hn.even with h | h <;> omega
  have hbig : (2 : ℚ) ^ 52 ≤ |(n : ℚ) + 1 / 2| := by
    rcases lt_or_ge n (2 ^ 52) with hlt | hge
    · have hn' : (n : ℚ) ≤ -2 ^ 52 - 1 := by exact_mod_cast (show n ≤ -2 ^ 52 - 1 by omega)
      rw [abs_of_nonpos] <;> linarith
    · have hn' : (2 : ℚ) ^ 52 ≤ n := by exact_mod_cast hge
      rw [abs_of_nonneg] <;> linarith
  obtain ⟨m, e, hm, hbits⟩ := hn.bits
  rw [toRat?_ofRat (add_half_ne_zero n) hf, mantissaOf_add_half hm hbits heven hbig,
    Nat.cast_natAbs]
  congr 1
  split
  · have hneg : n < 0 := by
      have hn' : (n : ℚ) < 0 := by linarith
      exact_mod_cast hn'
    rw [abs_of_neg hneg, Int.cast_neg, neg_neg]
  · have hpos : 0 ≤ n := by
      by_contra hneg
      have hn' : (n : ℚ) ≤ -1 := by exact_mod_cast (show n ≤ -1 by omega)
      linarith
    rw [abs_of_nonneg hpos]

theorem roundHalfUp_of_settled {n : Int} (hn : Settled n) (hf : (ofInt n).isFinite = true) :
    roundHalfUp (.int n) = n := by
  obtain ⟨v, r, hv, hr, hfloor⟩ := exists_roundHalfUp (n := .int n) hf
  rw [hfloor]
  obtain rfl : v = n := by
    have hn := toRat?_ofInt_of_settled hn hf
    change (ofInt n).toRat? = some v at hv
    rw [hn] at hv
    exact (Option.some.inj hv).symm
  have hfr := isFinite_of_toRat? hr
  by_cases hsmall : -2 ^ 52 ≤ n ∧ n < 2 ^ 52
  · rw [toRat?_add_half_of_small hsmall.1 hsmall.2 hfr] at hr
    obtain rfl := Option.some.inj hr
    exact floor_add_half n
  · rw [toRat?_add_half_of_large hn hsmall hfr] at hr
    obtain rfl := Option.some.inj hr
    exact Rat.floor_intCast n

theorem roundHalfUp_roundHalfUp {n : Number} (h : n.toDouble.isFinite = true) :
    roundHalfUp (.int (roundHalfUp n)) = roundHalfUp n :=
  roundHalfUp_of_settled (settled_roundHalfUp h) (isFinite_roundHalfUp h)

theorem storedPosition_again {round : Bool} {p p' : Position}
    (h : storedPosition round p = .ok p') (hf : p'.IsFinite) :
    storedPosition round p' = .ok p' := by
  cases round with
  | false => rfl
  | true =>
    rcases storedPosition_eq_ok h with ⟨-, hp, rfl⟩ | ⟨hp, rfl⟩
    · rw [storedPosition_of_isFinite hf, roundHalfUp_roundHalfUp hp.1, roundHalfUp_roundHalfUp hp.2]
    · exact absurd hf (hp rfl)

end StepGraph.Graph
