import StepGraph.Proofs.Num.Rounded
import StepGraph.Value.Text

/-!
# Values that can be written

A value can be written if the numbers in it can, at any depth (`isWritable_list_iff`,
`isWritable_map_iff`). Only whole numbers with too many digits cannot, and a number that is finite
as a double has not too many (`isWritable_of_isFinite`).
-/

set_option autoImplicit false

namespace StepGraph

/-- A number that is finite as a double has not too many digits. -/
theorem Number.isWritable_of_isFinite {n : Number} (h : n.toDouble.isFinite = true) :
    n.isWritable = true := by
  cases n with
  | float d => rfl
  | int n =>
    have hlt : n.natAbs < 10 ^ Numeral.maxDigits :=
      (Double.natAbs_lt_of_isFinite h (by decide)).trans_le
        (Nat.pow_le_pow_left (by decide) Numeral.maxDigits)
    exact decide_eq_true
      ((Nat.length_toDigits_le_iff (b := 10) (by decide) (by decide)).2 hlt)

namespace Value

theorem areWritable_iff {items : List Value} :
    areWritable items = true ↔ ∀ v ∈ items, v.isWritable = true := by
  induction items with
  | nil => simp [areWritable]
  | cons v rest ih => rw [areWritable, Bool.and_eq_true, ih, List.forall_mem_cons]

theorem entriesWritable_iff {entries : Entries} : entriesWritable entries = true ↔
    ∀ e ∈ entries, e.1.isWritable = true ∧ e.2.isWritable = true := by
  induction entries with
  | nil => simp [entriesWritable]
  | cons e rest ih =>
    rw [entriesWritable, Bool.and_eq_true, Bool.and_eq_true, ih, List.forall_mem_cons]

theorem isWritable_list_iff {items : List Value} :
    (Value.list items).isWritable = true ↔ ∀ v ∈ items, v.isWritable = true := by
  rw [isWritable, areWritable_iff]

theorem isWritable_map_iff {entries : Entries} : (Value.map entries).isWritable = true ↔
    ∀ e ∈ entries, e.1.isWritable = true ∧ e.2.isWritable = true := by
  rw [isWritable, entriesWritable_iff]

theorem assertWritable_eq_ok {ε : Type} {v : Value} :
    (v.assertWritable : Attempt ε Unit) = .ok () ↔ v.isWritable = true := by
  unfold assertWritable
  cases v.isWritable with
  | true => exact iff_of_true rfl rfl
  | false => exact iff_of_false (fun h => by cases h) (fun h => by cases h)

/-- A value that cannot be written is no error to report. -/
theorem assertWritable_cases {ε : Type} (v : Value) :
    (v.assertWritable : Attempt ε Unit) = .ok () ∨
      (v.assertWritable : Attempt ε Unit) = breakOff .notANumber :=
  ite_eq_or_eq _ _ _

end Value

end StepGraph
