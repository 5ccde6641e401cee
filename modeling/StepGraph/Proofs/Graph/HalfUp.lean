import StepGraph.Proofs.Graph.Settled
import StepGraph.Proofs.Num.Grid

/-!
# Where a half is rounded up

Rounding a coordinate should give the whole number `n` with `n ≤ v + 1/2 < n + 1` for its exact value
`v`. As the half is added in double arithmetic, it does so except at certain numbers.

* `roundHalfUp_eq_floor_iff`: these are the last double below a half, the odd numbers between
  `2 ^ 52` and `2 ^ 53`, and the whole numbers that are no doubles.

The parts: below zero the sum is exact (`toRat?_add_half_of_neg`); above, its floor is that of the
exact sum (`floor_add_half_of_pos`), which lies further below the next whole number than half a
unit (`add_half_lt`); from `2 ^ 52` on doubles are whole, and those that stay as they are were found
with positions that are rounded already (`Settled`).
-/

set_option autoImplicit false

namespace StepGraph.Graph

open Double

/-! ## Small numbers -/

section
variable {d : Double} {v r : ℚ} (hd : d.toRat? = some v) (hr : (ofRat (v + 1 / 2)).toRat? = some r)
include hd hr

/-- A negative sum is nearer to zero than the double, so that it has no more bits. -/
theorem toRat?_add_half_of_neg (hlow : -2 ^ 52 ≤ v) (hneg : v + 1 / 2 < 0) : r = v + 1 / 2 := by
  have hf := isFinite_of_toRat? hr
  suffices h : (ofRat (v + 1 / 2)).toRat? = some (v + 1 / 2) from
    Option.some.inj (hr.symm.trans h)
  obtain ⟨e, he, hv, hsize⟩ := exists_onGrid hd
  rw [abs_of_neg (by linarith)] at hsize
  rcases lt_or_ge e (-1) with hlt | hge
  · refine toRat?_ofRat_of_onGrid (hv.add (onGrid_half.mono hlt.le)) he ?_ hneg.ne hf
    rw [abs_of_neg hneg]
    linarith
  · refine toRat?_ofRat_of_onGrid ((hv.mono hge).add onGrid_half) (by norm_num) ?_ hneg.ne hf
    rw [abs_of_neg hneg]
    norm_num
    linarith

omit hd in
theorem eq_rounded_of_pos (hpos : 0 < v + 1 / 2) : r = rounded (v + 1 / 2) := by
  rw [toRat?_ofRat hpos.ne' (isFinite_of_toRat? hr), if_neg (not_lt.2 hpos.le)] at hr
  exact (Option.some.inj hr).symm

end

/-- The last double below a half. -/
def belowHalf : ℚ :=
  1 / 2 - 2 ^ (-54 : Int)

theorem lt_belowHalf {v : ℚ} {e : Int} (hv : OnGrid e v) (hsize : v < 2 ^ 53 * 2 ^ e)
    (he : e ≤ -54) (hne : v ≠ belowHalf) : v < belowHalf := by
  have hend : OnGrid e (2 ^ 53 * 2 ^ e) := ⟨2 ^ 53, by norm_num⟩
  have hpow : (2 : ℚ) ^ e ≤ 2 ^ (-54 : Int) := two_zpow_le he
  have hle := hv.add_le_of_lt hend hsize
  refine lt_of_le_of_ne ?_ hne
  rw [belowHalf]
  norm_num at hpow hle ⊢
  linarith

section
variable {v : ℚ} {e E n : Int}

/-- A double whose last bit the sum with a half cannot hold is below the power of two that the sum
has passed. -/
theorem lt_of_coarser (hsize : v < 2 ^ 53 * 2 ^ e) (hhigh : v < 2 ^ 52) (hE : E ≤ 0)
    (hgrid : ¬ (E ≤ -1 ∧ E ≤ e)) : v < 2 ^ 52 * 2 ^ E := by
  rcases eq_or_lt_of_le hE with rfl | hlt
  · rwa [zpow_zero, mul_one]
  · have hpow : (2 : ℚ) ^ (e + 1) ≤ 2 ^ E := two_zpow_le (by omega)
    rw [zpow_add_one₀ (by norm_num)] at hpow
    linarith

/-- The next whole number after the sum is one if the double is small. -/
theorem add_half_lt_of_small (hv : OnGrid e v) (hsize : v < 2 ^ 53 * 2 ^ e) (h0 : 0 ≤ v)
    (hne : v ≠ belowHalf) (hE : E < -52) (hgrid : ¬ (E ≤ -1 ∧ E ≤ e))
    (hup : v + 1 / 2 < 2 ^ 53 * 2 ^ E) (hn : v + 1 / 2 < n) : v + 1 / 2 < n - 2 ^ E / 2 := by
  have hE' : E = -53 := by
    by_contra hother
    have hpow : (2 : ℚ) ^ E ≤ 2 ^ (-54 : Int) := two_zpow_le (by omega)
    norm_num at hpow
    linarith
  subst hE'
  have hbelow := lt_belowHalf hv hsize (by omega) hne
  have hn1 : (1 : ℚ) ≤ n := by
    have : (0 : ℚ) < n := by linarith
    exact_mod_cast Int.add_one_le_iff.2 (Int.cast_pos.1 this)
  rw [belowHalf] at hbelow
  norm_num at hbelow ⊢
  linarith

/-- The sum of a double and a half, and a whole number above it, are further apart than half a unit
of the sum. -/
theorem add_half_lt (hv : OnGrid e v) (hsize : v < 2 ^ 53 * 2 ^ e) (h0 : 0 ≤ v) (hhigh : v < 2 ^ 52)
    (hne : v ≠ belowHalf) (hE : E ≤ 0) (hlow : 2 ^ 52 * 2 ^ E ≤ v + 1 / 2)
    (hup : v + 1 / 2 < 2 ^ 53 * 2 ^ E) (hn : v + 1 / 2 < n) : v + 1 / 2 < n - 2 ^ E / 2 := by
  have hu : (0 : ℚ) < 2 ^ E := by positivity
  by_cases hgrid : E ≤ -1 ∧ E ≤ e
  · have hsum := (hv.mono hgrid.2).add (onGrid_half.mono hgrid.1)
    have := hsum.add_le_of_lt ((onGrid_intCast n).mono hE) hn
    linarith
  rcases lt_or_ge E (-52) with hsmall | hge
  · exact add_half_lt_of_small hv hsize h0 hne hsmall hgrid hup hn
  · -- the power of two is whole, and the next whole number is above it
    have hpassed := lt_of_coarser hsize hhigh hE hgrid
    have hpow : OnGrid 0 ((2 : ℚ) ^ (52 + E)) := onGrid_zpow (by omega)
    rw [zpow_add₀ (by norm_num), zpow_ofNat] at hpow
    have hnext := hpow.add_le_of_lt (onGrid_intCast n) (hlow.trans_lt hn)
    have hu1 : (2 : ℚ) ^ E ≤ 1 := zpow_le_one_of_nonpos₀ (by norm_num) hE
    rw [zpow_zero] at hnext
    linarith

end

theorem floor_eq {q : ℚ} {n : Int} (hlow : (n : ℚ) ≤ q) (hhigh : q < n + 1) : q.floor = n := by
  have hle : n ≤ q.floor := Rat.le_floor_iff.2 hlow
  have hlt : (q.floor : ℚ) < (n + 1 : Int) := by
    push_cast
    exact (Rat.floor_le q).trans_lt hhigh
  have := Int.cast_lt.1 hlt
  omega

section
variable {d : Double} {v r : ℚ} (hd : d.toRat? = some v) (hr : (ofRat (v + 1 / 2)).toRat? = some r)
include hd hr

theorem floor_add_half_of_pos (hpos : 0 < v + 1 / 2) (hhigh : v < 2 ^ 52) (hne : v ≠ belowHalf) :
    r.floor = (v + 1 / 2).floor := by
  have hr := eq_rounded_of_pos hr hpos
  obtain ⟨hmin, hup, hlow⟩ := exponentOf_spec hpos.ne'
  have hle {p : ℚ} := le_rounded (p := p) (q := v + 1 / 2)
  have hlt {p : ℚ} := rounded_lt (p := p) (q := v + 1 / 2)
  rw [abs_of_pos hpos] at hup hlow hle hlt
  generalize exponentOf (v + 1 / 2) = E at *
  have hE : E ≤ 0 := by
    by_contra hE
    have hpow : (2 : ℚ) ^ (1 : Int) ≤ 2 ^ E := two_zpow_le (by omega)
    have := hlow (by omega)
    norm_num at hpow hhigh this
    linarith
  have hgap : ∀ n : Int, v + 1 / 2 < n → v + 1 / 2 < n - 2 ^ E / 2 := by
    intro n hn
    rcases lt_or_ge v 0 with hneg | h0
    · have hu : (2 : ℚ) ^ E ≤ 1 := zpow_le_one_of_nonpos₀ (by norm_num) hE
      have hn1 : (1 : ℚ) ≤ n := by
        exact_mod_cast Int.add_one_le_iff.2 (Int.cast_pos.1 (hpos.trans hn))
      linarith
    · obtain ⟨e, -, hv, hsize⟩ := exists_onGrid hd
      rw [abs_of_nonneg h0] at hsize
      refine add_half_lt hv hsize h0 hhigh hne hE (hlow fun hsmallest => ?_) hup hn
      have hpow : (2 : ℚ) ^ E ≤ 2 ^ (-54 : Int) := two_zpow_le (by omega)
      norm_num at hpow
      linarith
  have hnext : v + 1 / 2 < ((v + 1 / 2).floor + 1 : Int) := Rat.lt_floor_add_one _
  have hbelow := hlt ((onGrid_intCast _).mono hE) (hgap _ hnext)
  have habove := hle ((onGrid_intCast _).mono hE) (Rat.floor_le (v + 1 / 2))
  rw [← hr] at hbelow habove
  push_cast at hbelow
  exact floor_eq habove hbelow

/-- Up to `2 ^ 52` one double is not rounded half up. -/
theorem floor_add_half_iff (hsmall : |v| < 2 ^ 52) :
    r.floor = (v + 1 / 2).floor ↔ v ≠ belowHalf := by
  obtain ⟨hlow, hhigh⟩ := abs_lt.1 hsmall
  refine ⟨?_, fun hne => ?_⟩
  · rintro h rfl
    have hround : (ofRat (belowHalf + 1 / 2)).toRat? = some 1 := by decide +kernel
    obtain rfl := Option.some.inj (hround.symm.trans hr)
    exact absurd h (by decide +kernel)
  · rcases lt_trichotomy (v + 1 / 2) 0 with hneg | h0 | hpos
    · rw [toRat?_add_half_of_neg hd hr hlow.le hneg]
    · rw [h0, ofRat_zero, toRat?_zero] at hr
      rw [h0, Option.some.inj hr]
    · exact floor_add_half_of_pos hd hr hpos hhigh hne

end

/-! ## Large numbers -/

/-- From `2 ^ 52` on doubles are whole. -/
theorem exists_int_of_large {d : Double} {v : ℚ} (h : d.toRat? = some v) (hlarge : 2 ^ 52 ≤ |v|) :
    ∃ z : Int, v = z ∧ ∃ m e : Nat, m < 2 ^ 53 ∧ z.natAbs = m * 2 ^ e := by
  obtain ⟨e, -, hv, hsize⟩ := exists_onGrid h
  have he : 0 ≤ e := by
    by_contra hneg
    have hpow : (2 : ℚ) ^ e ≤ 2 ^ (-1 : Int) := two_zpow_le (by omega)
    norm_num at hpow hlarge hsize
    linarith
  obtain ⟨k, rfl⟩ := Int.eq_ofNat_of_zero_le he
  obtain ⟨m, hm⟩ := hv.abs.exists_natCast (abs_nonneg v)
  obtain ⟨z, rfl⟩ := hv.mono he
  rw [hm, mul_lt_mul_iff_left₀ (by positivity)] at hsize
  rw [zpow_zero, mul_one] at hm ⊢
  refine ⟨z, rfl, m, k, by exact_mod_cast hsize, ?_⟩
  rw [← Int.cast_abs, zpow_natCast] at hm
  have : ((z.natAbs : Int) : ℚ) = (m * 2 ^ k : Nat) := by
    rw [Int.natCast_natAbs, hm]
    push_cast
    rfl
  exact_mod_cast this

/-- Doubles that are not rounded half up. -/
def IsMisrounded (v : ℚ) : Prop :=
  v = belowHalf ∨ ∃ z : Int, v = z ∧ z % 2 = 1 ∧ 2 ^ 52 < z.natAbs ∧ z.natAbs < 2 ^ 53

theorem not_isMisrounded_iff (z : Int) :
    ¬ IsMisrounded z ↔ ¬ (z % 2 = 1 ∧ 2 ^ 52 < z.natAbs ∧ z.natAbs < 2 ^ 53) := by
  refine not_congr ⟨?_, fun h => .inr ⟨z, rfl, h⟩⟩
  rintro (h | ⟨z', hz, h⟩)
  · have hone : (0 : ℚ) < z ∧ (z : ℚ) < 1 := by
      rw [h, belowHalf]
      norm_num
    have h0 : 0 < z := by exact_mod_cast hone.1
    have h1 : z < 1 := by exact_mod_cast hone.2
    omega
  · rwa [Int.cast_injective hz]

theorem settled_iff {z : Int} (h : ∃ m e : Nat, m < 2 ^ 53 ∧ z.natAbs = m * 2 ^ e) :
    Settled z ↔ ¬ IsMisrounded z := by
  rw [not_isMisrounded_iff]
  refine ⟨fun hz => ?_, fun hodd => ⟨h, ?_⟩⟩
  · have := hz.even
    omega
  · obtain ⟨m, e, hm, hbits⟩ := h
    rcases Nat.eq_zero_or_pos e with rfl | he
    · omega
    · obtain ⟨k, rfl⟩ := Nat.exists_eq_add_of_le' he
      right
      rw [hbits, Nat.pow_succ, ← Nat.mul_assoc, Nat.mul_mod_left]

/-- What a coordinate is rounded to depends on its double alone. -/
theorem roundHalfUp_congr {n n' : Number} {v : ℚ} (h : n.toDouble.toRat? = some v)
    (h' : n'.toDouble.toRat? = some v) : roundHalfUp n = roundHalfUp n' := by
  obtain ⟨u, r, hu, hr, hn⟩ := exists_roundHalfUp (isFinite_of_toRat? h)
  obtain ⟨u', r', hu', hr', hn'⟩ := exists_roundHalfUp (isFinite_of_toRat? h')
  cases h.symm.trans hu
  cases h'.symm.trans hu'
  cases hr.symm.trans hr'
  rw [hn, hn']

/-- A coordinate with a whole value keeps it exactly if it is settled. -/
theorem roundHalfUp_eq_iff_settled {n : Number} {z : Int} (h : n.toDouble.toRat? = some (z : ℚ)) :
    roundHalfUp n = z ↔ Settled z := by
  have hf := isFinite_of_toRat? h
  refine ⟨fun heq => heq ▸ settled_roundHalfUp hf, fun hz => ?_⟩
  have hfz : (ofInt z).isFinite = true := by
    have := isFinite_ofInt_floor h
    rwa [Rat.floor_intCast] at this
  calc roundHalfUp n
    _ = roundHalfUp (.int z) := roundHalfUp_congr h (toRat?_ofInt_of_settled hz hfz)
    _ = z := roundHalfUp_of_settled hz hfz

/-- A finite coordinate is rounded half up exactly if it is a double and none of the misrounded
ones. -/
theorem roundHalfUp_eq_floor_iff {n : Number} {v : ℚ} (hv : n.toRat? = some v)
    (hf : n.toDouble.isFinite = true) :
    roundHalfUp n = (v + 1 / 2).floor ↔ n.toDouble.toRat? = some v ∧ ¬ IsMisrounded v := by
  by_cases hdouble : n.toDouble.toRat? = some v
  · rw [and_iff_right hdouble]
    obtain ⟨u, r, hu, hr, hround⟩ := exists_roundHalfUp hf
    cases hdouble.symm.trans hu
    rcases lt_or_ge |v| (2 ^ 52) with hsmall | hlarge
    · rw [hround, floor_add_half_iff hdouble hr hsmall, IsMisrounded, not_or, iff_self_and]
      rintro - ⟨z, rfl, -, hz, -⟩
      have hz' : ((2 ^ 52 : Nat) : ℚ) < z.natAbs := by exact_mod_cast hz
      rw [Nat.cast_natAbs, Int.cast_abs] at hz'
      norm_num at hz' hsmall
      linarith
    · obtain ⟨z, rfl, hbits⟩ := exists_int_of_large hdouble hlarge
      rw [floor_add_half, roundHalfUp_eq_iff_settled hdouble, settled_iff hbits]
  · refine iff_of_false ?_ fun h => hdouble h.1
    cases n with
    | float d => exact absurd hv hdouble
    | int z =>
      cases hv
      intro h
      change roundHalfUp (.int z) = ((z : ℚ) + 1 / 2).floor at h
      rw [floor_add_half] at h
      exact hdouble (toRat?_ofInt_of_settled (h ▸ settled_roundHalfUp hf) hf)

/-- One number of each kind that is not rounded half up. -/
example :
    roundHalfUp (.float (.ofRat belowHalf)) = 1 ∧
      roundHalfUp (.int (2 ^ 52 + 1)) = 2 ^ 52 + 2 ∧ roundHalfUp (.int (2 ^ 53 + 1)) = 2 ^ 53 := by
  decide +kernel

end StepGraph.Graph
