import Mathlib.Order.Bounds.Basic
import Mathlib.Tactic.FieldSimp
import StepGraph.Graph.Layout
import StepGraph.Proofs.Graph.Settled
import StepGraph.Proofs.Num.Root
import StepGraph.Proofs.Related

/-!
# Nodes on a grid

The width of a grid is the root of the number of its nodes, found in double arithmetic and rounded
up. Up to `2 ^ 52` nodes that is the least width with room for all of them (`columns_eq`): the root
of a number between two squares is more than half a unit above the lower one, so that rounding it
does not reach that square (`ceiling_sqrt`). A place on the grid is a column and a row (`cell`), and
the number of a node is found again from them, whatever the width is (`grid_inj`).

* `grid_rowByRow`: the grid is filled row by row, and nodes that are arranged on it are moved and not
  changed otherwise.
-/

set_option autoImplicit false

namespace StepGraph

open Double

theorem Number.int_lt_int {m n : Int} : (Number.int m).lt (.int n) = true ↔ m < n := by
  simp [Number.lt, Number.rank?]

/-- Upper rows come first, and in one row what stands further left. -/
def Position.Before (p q : Position) : Prop :=
  p.y.lt q.y = true ∨ p.y = q.y ∧ p.x.lt q.x = true

namespace Layout

/-- The place in a column and a row, both counted from zero. -/
def cell (column row : Nat) : Position :=
  ⟨.int (left + column * columnWidth), .int (top + row * rowHeight)⟩

/-- The places of `total` nodes on a grid that is about as wide as it is high. -/
structure RowByRow (total width : Nat) : Prop where
  least : IsLeast {c : Nat | total ≤ c * c} width
  answers : ∀ i : Nat, gridAt i total = .ok (grid i total)
  cells : ∀ i < total, ∃ column row, column < width ∧ row < width ∧ i = row * width + column ∧
    grid i total = cell column row
  distinct : ∀ i < total, ∀ j < total, grid i total = grid j total → i = j
  ordered : ∀ i j : Nat, i < j → j < total → (grid i total).Before (grid j total)

/-- The same nodes in the same order, but for their positions: these are the places on the grid. -/
structure Arranged (nodes arranged : List Node) : Prop where
  same : List.Forall₂ (fun n m => m = { n with position := m.position }) nodes arranged
  placed : ∀ (i : Nat) (n : Node), arranged[i]? = some n → n.position = grid i nodes.length
  distinct : (arranged.map Node.position).Nodup

/-! ## The width -/

section
variable {total : Nat}

theorem toRat?_ofInt_natCast (hmax : total ≤ 2 ^ 52) :
    (ofInt total).toRat? = some (total : ℚ) := by
  have hle : (total : Int).natAbs ≤ 2 ^ 52 := by omega
  have hlt : (total : Int).natAbs < overflow := by
    refine lt_of_lt_of_le ?_ le_overflow
    omega
  exact Graph.toRat?_ofInt_of_settled (Graph.settled_of_natAbs_le hle) (isFinite_ofInt hlt)

/-- The root is found on a scale of at least 26 binary places. -/
theorem exists_sqrt_ofInt (hpos : 1 ≤ total) (hmax : total ≤ 2 ^ 52) :
    ∃ k : Nat, 26 ≤ k ∧ (ofInt total).sqrt.toRat? =
      some ((nearestRoot (total * (2 ^ k * 2 ^ k)) : ℚ) / 2 ^ k) := by
  have htotal : (0 : ℚ) < total := by exact_mod_cast hpos
  obtain ⟨n, f, hn, hbig, hsqrt⟩ := exists_sqrt_eq (toRat?_ofInt_natCast hmax) htotal
  have hf : f ≤ -26 := by
    by_contra hlt
    have hscale : (2 : ℚ) ^ (-25 : Int) ≤ 2 ^ f := zpow_le_zpow_right₀ (by norm_num) (by omega)
    have hn' : (2 : ℚ) ^ 104 ≤ n := by exact_mod_cast hbig
    have hlarge : (2 : ℚ) ^ 104 * (2 ^ (-25 : Int)) ^ 2 ≤ n * (2 ^ f) ^ 2 := by gcongr
    have hmax' : (total : ℚ) ≤ 2 ^ 52 := by exact_mod_cast hmax
    rw [← hn] at hlarge
    norm_num at hlarge hmax'
    linarith
  obtain ⟨k, hk⟩ := Int.eq_ofNat_of_zero_le (show 0 ≤ -f by omega)
  obtain rfl : f = -k := by omega
  have hscaled : n = total * (2 ^ k * 2 ^ k) := by
    rw [zpow_neg, zpow_natCast] at hn
    have hcast : (n : ℚ) = total * (2 ^ k * 2 ^ k) := by
      rw [hn]
      field_simp
    exact_mod_cast hcast
  refine ⟨k, by omega, ?_⟩
  rw [hsqrt, hscaled, zpow_neg, zpow_natCast, div_eq_mul_inv]

/-- The root of a number above a square, and not above the next one, is rounded up to the root of
the latter. -/
theorem ceiling_sqrt {c : Nat} (hmax : total ≤ 2 ^ 52) (hlow : c * c < total)
    (hhigh : total ≤ (c + 1) * (c + 1)) : ceiling (ofInt total).sqrt = c + 1 := by
  obtain ⟨k, hk, hsqrt⟩ := exists_sqrt_ofInt (by omega) hmax
  have hpos : (0 : ℚ) < 2 ^ k := by positivity
  have hc : c < 2 ^ k := by
    have hc26 : c < 2 ^ 26 := by
      by_contra hge
      have := Nat.mul_le_mul (Nat.le_of_not_lt hge) (Nat.le_of_not_lt hge)
      omega
    exact hc26.trans_le (Nat.pow_le_pow_right (by decide) hk)
  have hle : nearestRoot (total * (2 ^ k * 2 ^ k)) ≤ (c + 1) * 2 ^ k := by
    rw [nearestRoot_le_iff]
    calc total * (2 ^ k * 2 ^ k)
        ≤ (c + 1) * (c + 1) * (2 ^ k * 2 ^ k) := Nat.mul_le_mul_right _ hhigh
      _ = (c + 1) * 2 ^ k * ((c + 1) * 2 ^ k) := by ring
      _ ≤ (c + 1) * 2 ^ k * ((c + 1) * 2 ^ k + 1) := Nat.mul_le_mul_left _ (Nat.le_succ _)
  have hlt : c * 2 ^ k < nearestRoot (total * (2 ^ k * 2 ^ k)) := by
    rw [← not_le, nearestRoot_le_iff, not_le]
    calc c * 2 ^ k * (c * 2 ^ k + 1)
        = c * c * (2 ^ k * 2 ^ k) + c * 2 ^ k := by ring
      _ < c * c * (2 ^ k * 2 ^ k) + 2 ^ k * 2 ^ k :=
        Nat.add_lt_add_left (Nat.mul_lt_mul_of_pos_right hc (Nat.two_pow_pos k)) _
      _ = (c * c + 1) * (2 ^ k * 2 ^ k) := by ring
      _ ≤ total * (2 ^ k * 2 ^ k) := Nat.mul_le_mul_right _ hlow
  rw [ceiling, hsqrt]
  apply le_antisymm
  · rw [Rat.ceil_le_iff, div_le_iff₀ hpos]
    exact_mod_cast hle
  · rw [Int.add_one_le_iff, Rat.lt_ceil_iff, lt_div_iff₀ hpos]
    exact_mod_cast hlt

theorem columns_eq (hpos : 1 ≤ total) (hmax : total ≤ 2 ^ 52) :
    ∃ width : Nat, columns total = width ∧ IsLeast {c : Nat | total ≤ c * c} width := by
  have hroom : ∃ c, total ≤ c * c := ⟨total, Nat.le_mul_self total⟩
  obtain ⟨c, hc⟩ : ∃ c, Nat.find hroom = c + 1 := by
    refine Nat.exists_eq_succ_of_ne_zero fun h0 => ?_
    have := Nat.find_spec hroom
    rw [h0] at this
    omega
  have hhigh : total ≤ (c + 1) * (c + 1) := hc ▸ Nat.find_spec hroom
  have hleast : ∀ b, total ≤ b * b → c + 1 ≤ b := fun b hb => hc ▸ Nat.find_min' hroom hb
  have hlow : c * c < total := by
    by_contra hge
    have := hleast c (Nat.le_of_not_lt hge)
    omega
  refine ⟨c + 1, ?_, hhigh, hleast⟩
  rw [columns, ceiling_sqrt hmax hlow hhigh]
  omega

end

/-! ## Places -/

theorem onGrid_natCast (width i : Nat) : onGrid width i = cell (i % width) (i / width) := by
  rw [onGrid, cell, Int.ofNat_fdiv, Int.ofNat_fmod]

theorem cell_inj {column row column' row' : Nat} :
    cell column row = cell column' row' ↔ column = column' ∧ row = row' := by
  simp only [cell, Position.mk.injEq, Number.int.injEq, columnWidth, rowHeight, left, top]
  omega

theorem cell_before {column row column' row' : Nat}
    (h : row < row' ∨ row = row' ∧ column < column') :
    (cell column row).Before (cell column' row') := by
  rcases h with hrow | ⟨rfl, hcolumn⟩
  · refine .inl (Number.int_lt_int.2 ?_)
    simp only [rowHeight]
    omega
  · refine .inr ⟨rfl, Number.int_lt_int.2 ?_⟩
    simp only [columnWidth]
    omega

theorem exists_columns_eq (total : Nat) : ∃ width : Nat, columns total = width ∧ 0 < width := by
  have hone : 1 ≤ columns total := le_max_left _ _
  obtain ⟨width, hwidth⟩ := Int.eq_ofNat_of_zero_le (show 0 ≤ columns total by omega)
  exact ⟨width, hwidth, by omega⟩

/-- No two nodes are put in one place. -/
theorem grid_inj {total i j : Nat} (h : grid i total = grid j total) : i = j := by
  obtain ⟨width, hwidth, -⟩ := exists_columns_eq total
  rw [grid, grid, hwidth, onGrid_natCast, onGrid_natCast, cell_inj] at h
  rw [← Nat.div_add_mod i width, ← Nat.div_add_mod j width, h.1, h.2]

/-- The next node stands to the right or in a lower row. -/
theorem before_of_lt {total i j : Nat} (h : i < j) : (grid i total).Before (grid j total) := by
  obtain ⟨width, hwidth, -⟩ := exists_columns_eq total
  rw [grid, grid, hwidth, onGrid_natCast, onGrid_natCast]
  apply cell_before
  rcases Nat.lt_or_eq_of_le (Nat.div_le_div_right (c := width) h.le) with hrow | hrow
  · exact .inl hrow
  · refine .inr ⟨hrow, ?_⟩
    have hi := Nat.div_add_mod i width
    have hj := Nat.div_add_mod j width
    rw [hrow] at hi
    omega

theorem gridAt_natCast {total : Nat} (hmax : total ≤ 2 ^ 52) (i : Nat) :
    gridAt i total = .ok (grid i total) := by
  have hfinite : (ofInt total).isFinite = true := isFinite_of_toRat? (toRat?_ofInt_natCast hmax)
  rw [gridAt, hfinite]
  simp

theorem rowByRow {total width : Nat} (hmax : total ≤ 2 ^ 52) (hwidth : columns total = width)
    (hleast : IsLeast {c : Nat | total ≤ c * c} width) : RowByRow total width where
  least := hleast
  answers := gridAt_natCast hmax
  cells i hi := by
    have hroom : total ≤ width * width := hleast.1
    have hpos : 0 < width := Nat.pos_of_ne_zero fun h0 => by
      rw [h0] at hroom
      omega
    refine ⟨i % width, i / width, Nat.mod_lt i hpos, ?_, (Nat.div_add_mod' i width).symm, ?_⟩
    · exact Nat.div_lt_of_lt_mul (hi.trans_le hroom)
    · rw [grid, hwidth, onGrid_natCast]
  distinct _ _ _ _ := grid_inj
  ordered _ _ hij _ := before_of_lt hij

/-! ## Arranged nodes -/

section
variable (nodes : List Node)

theorem getElem?_arrange (i : Nat) : (arrange nodes)[i]? =
    nodes[i]?.map fun n => { n with position := grid i nodes.length } := by
  rw [arrange, List.getElem?_map, List.getElem?_zipIdx, Option.map_map, Nat.zero_add]
  rfl

theorem length_arrange : (arrange nodes).length = nodes.length := by
  simp [arrange]

theorem map_position_arrange : (arrange nodes).map Node.position =
    (List.range nodes.length).map fun i : Nat => grid i nodes.length := by
  rw [List.range_eq_range', ← List.zipIdx_map_snd 0 nodes, List.map_map, arrange, List.map_map]
  rfl

theorem arranged_arrange : Arranged nodes (arrange nodes) where
  same := by
    rw [forall₂_iff_getElem?]
    intro i
    rw [getElem?_arrange]
    cases nodes[i]? with
    | none => exact .none
    | some n => exact .some rfl
  placed i n hn := by
    rw [getElem?_arrange] at hn
    obtain ⟨n, -, rfl⟩ := Option.map_eq_some_iff.1 hn
    rfl
  distinct := by
    rw [map_position_arrange]
    exact List.nodup_range.map fun _ _ => grid_inj

theorem arrange_arrange : arrange (arrange nodes) = arrange nodes := by
  refine List.ext_getElem? fun i => ?_
  rw [getElem?_arrange, getElem?_arrange, length_arrange, Option.map_map]
  rfl

end

/-- Up to `2 ^ 52` nodes fill the smallest square grid that has room for them, row by row. Nodes of
any number are arranged on a grid in their order, each in a place of its own, with nothing changed
but their positions, and arranging them once more changes nothing. -/
theorem grid_rowByRow :
    (∀ total, 1 ≤ total → total ≤ 2 ^ 52 →
      ∃ width : Nat, columns total = width ∧ RowByRow total width) ∧
    ∀ nodes, Arranged nodes (arrange nodes) ∧ arrange (arrange nodes) = arrange nodes := by
  refine ⟨fun total hpos hmax => ?_, fun nodes => ⟨arranged_arrange nodes, arrange_arrange nodes⟩⟩
  obtain ⟨width, hwidth, hleast⟩ := columns_eq hpos hmax
  exact ⟨width, hwidth, rowByRow hmax hwidth hleast⟩

/-- One node more than `2 ^ 26 - 1` columns have room for. That is the last square below the bound, and
the root is hardly more than one unit above its side. -/
theorem grid_rowByRow_bound :
    1 ≤ (2 ^ 26 - 1) ^ 2 + 1 ∧ (2 ^ 26 - 1) ^ 2 + 1 ≤ 2 ^ 52 ∧
      columns ((2 ^ 26 - 1) ^ 2 + 1) = (2 ^ 26 : Nat) ∧
      RowByRow ((2 ^ 26 - 1) ^ 2 + 1) (2 ^ 26) := by
  have hpos : 1 ≤ (2 ^ 26 - 1) ^ 2 + 1 := by decide
  have hmax : (2 ^ 26 - 1) ^ 2 + 1 ≤ 2 ^ 52 := by decide
  have hcolumns : columns ((2 ^ 26 - 1) ^ 2 + 1) = (2 ^ 26 : Nat) := by decide +kernel
  obtain ⟨width, hwidth, hgrid⟩ := grid_rowByRow.1 _ hpos hmax
  obtain rfl : width = 2 ^ 26 := Int.ofNat_inj.1 (hwidth.symm.trans hcolumns)
  exact ⟨hpos, hmax, hcolumns, hgrid⟩

end Layout

end StepGraph
