import StepGraph.Graph.Layout
import StepGraph.Graph.ToWorkflow
import StepGraph.Proofs.Fault
import StepGraph.Proofs.Num.Double
import StepGraph.Proofs.Workflow.Stored

/-!
# Stored positions

A position is stored rounded, or as it is (`storedPosition_eq_ok`). One that is finite can be stored,
and what is stored is finite (`storedPosition_ok`): adding a half to a finite coordinate gives a
finite double (`roundHalfUp_eq`), and the whole number below a finite double is finite again
(`isFinite_roundHalfUp`). The vertical layout places as many steps as
a list can hold at finite positions (`isFinite_vertical`).
-/

set_option autoImplicit false

namespace StepGraph

namespace Double

theorem half_eq : ofRatio false 1 2 = .finite false (1 <<< 52) (-53) (by decide) := by rfl

theorem toRat?_half : (ofRatio false 1 2).toRat? = some (1 / 2) := by
  rw [half_eq, toRat?, Nat.shiftLeft_eq]
  norm_num

theorem isFinite_add_half {d : Double} (h : d.isFinite = true) :
    (d.add (ofRatio false 1 2)).isFinite = true := by
  obtain ⟨q, hq⟩ := exists_toRat? h
  have hl := abs_le_largest hq
  have hcast {a b : Nat} (hab : a < b) : (a : ℚ) + 1 ≤ b := by exact_mod_cast hab
  have ho := hcast largest_lt_overflow
  simp only [add, hq, toRat?_half]
  split
  · rfl
  · refine isFinite_ofRat ?_
    calc |q + 1 / 2| ≤ |q| + |1 / 2| := abs_add_le q (1 / 2)
      _ = |q| + 1 / 2 := by norm_num
      _ < overflow := by linarith

theorem isFinite_ofInt_floor {d : Double} {q : ℚ} (h : d.toRat? = some q) :
    (ofInt q.floor).isFinite = true := by
  obtain ⟨hl, hu⟩ := abs_le.1 (abs_le_largest h)
  have hlow : -(largest : Int) ≤ q.floor := by
    rw [Rat.le_floor_iff]
    push_cast
    exact hl
  have hhigh : q.floor ≤ largest := by
    have := (Rat.floor_le q).trans hu
    exact_mod_cast this
  refine isFinite_ofInt (lt_of_le_of_lt ?_ largest_lt_overflow)
  omega

end Double

namespace Graph

/-- The sum of a finite coordinate and a half has a value to be rounded down. -/
theorem roundHalfUp_eq {n : Number} (h : n.toDouble.isFinite = true) :
    ∃ q, (n.toDouble.add (Double.ofRatio false 1 2)).toRat? = some q ∧ roundHalfUp n = q.floor := by
  obtain ⟨q, hq⟩ := Double.exists_toRat? (Double.isFinite_add_half h)
  exact ⟨q, hq, by simp only [roundHalfUp, hq]⟩

theorem isFinite_roundHalfUp {n : Number} (h : n.toDouble.isFinite = true) :
    (Double.ofInt (roundHalfUp n)).isFinite = true := by
  obtain ⟨q, hq, hr⟩ := roundHalfUp_eq h
  rw [hr]
  exact Double.isFinite_ofInt_floor hq

theorem isFinite_eq {n : Number} (h : n.toDouble.isFinite = true) : isFinite n = .ok true := by
  cases n with
  | int n => exact if_pos h
  | float d => exact congrArg Except.ok h

theorem isFinite_eq_ok {n : Number} {b : Bool} (h : isFinite n = .ok b) :
    n.toDouble.isFinite = b := by
  cases n with
  | int n =>
    by_cases hn : (Double.ofInt n).isFinite = true
    · rw [isFinite, if_pos hn] at h
      cases h
      exact hn
    · rw [isFinite, if_neg hn] at h
      cases h
  | float d =>
    cases h
    rfl

theorem storedPosition_of_isFinite {p : Position} (h : p.IsFinite) :
    storedPosition true p = .ok ⟨.int (roundHalfUp p.x), .int (roundHalfUp p.y)⟩ := by
  simp only [storedPosition, isFinite_eq h.1, isFinite_eq h.2]
  rfl

theorem storedPosition_ok (round : Bool) {p : Position} (h : p.IsFinite) :
    ∃ p', storedPosition round p = .ok p' ∧ p'.IsFinite := by
  cases round with
  | false => exact ⟨p, rfl, h⟩
  | true => exact ⟨_, storedPosition_of_isFinite h, isFinite_roundHalfUp h.1, isFinite_roundHalfUp h.2⟩

/-- A position that is stored is finite and rounded, or stays as it is. -/
theorem storedPosition_eq_ok {round : Bool} {p p' : Position}
    (h : storedPosition round p = .ok p') :
    (round = true ∧ p.IsFinite ∧ p' = ⟨.int (roundHalfUp p.x), .int (roundHalfUp p.y)⟩) ∨
      ((round = true → ¬ p.IsFinite) ∧ p' = p) := by
  cases round with
  | false =>
    cases h
    exact .inr ⟨nofun, rfl⟩
  | true =>
    by_cases hp : p.IsFinite
    · rw [storedPosition_of_isFinite hp] at h
      cases h
      exact .inl ⟨rfl, hp, rfl⟩
    · refine .inr ⟨fun _ => hp, ?_⟩
      obtain ⟨x, hx, h⟩ := Attempt.bind_eq_ok.1 h
      cases x with
      | false =>
        cases h
        rfl
      | true =>
        obtain ⟨y, hy, h⟩ := Attempt.bind_eq_ok.1 h
        cases y with
        | false =>
          cases h
          rfl
        | true => exact absurd ⟨isFinite_eq_ok hx, isFinite_eq_ok hy⟩ hp

end Graph

theorem Layout.isFinite_vertical {index : Nat} (h : index < 2 ^ 63) :
    (Layout.vertical index).IsFinite := by
  constructor
  · exact Double.isFinite_ofInt (lt_of_lt_of_le (by decide) Double.le_overflow)
  · refine Double.isFinite_ofInt (lt_of_lt_of_le ?_ Double.le_overflow)
    simp only [top, rowHeight]
    omega

end StepGraph
