import StepGraph.Graph.Basic
import StepGraph.Workflow.Error

/-!
# Layout

Where a node without a stored position goes, as a function of its index and the number of nodes:
on a vertical line, or row by row on a grid about as wide as it is high. The width of the grid is
the rounded-up square root of the number, taken as a double.
-/

set_option autoImplicit false

namespace StepGraph.Layout

def center : Int := 400

def top : Int := 100

def rowHeight : Int := 120

def left : Int := 100

def columnWidth : Int := 250

def vertical (index : Int) : Position :=
  ⟨.int center, .int (top + index * rowHeight)⟩

/-- The least whole number that is not below a double, zero if there is none. -/
def ceiling (d : Double) : Int :=
  match d.toRat? with
  | some q => q.ceil
  | none => 0

/-- The number of columns for `total` nodes, at least one. -/
def columns (total : Nat) : Int :=
  max 1 (ceiling (Double.ofInt total).sqrt)

def onGrid (columns index : Int) : Position :=
  ⟨.int (left + index.fmod columns * columnWidth), .int (top + index.fdiv columns * rowHeight)⟩

def grid (index : Int) (total : Nat) : Position :=
  onGrid (columns total) index

/-- The grid position for any whole numbers. A negative number of nodes has no square root, and one
beyond the doubles no answer. -/
def gridAt (index total : Int) : Result Position :=
  if !(Double.ofInt total).isFinite then breakOff .tooLarge
  else if total < 0 then breakOff .negativeRoot
  else .ok (grid index total.toNat)

/-- The ways to place nodes. -/
inductive Kind
  | vertical
  | grid
  deriving DecidableEq

def place : Kind → Nat → Nat → Position
  | .vertical, index, _ => Layout.vertical index
  | .grid, index, total => Layout.grid index total

/-- The nodes moved to a grid. -/
def arrange (nodes : List Node) : List Node :=
  nodes.zipIdx.map fun node => { node.1 with position := grid (node.2 : Nat) nodes.length }

end StepGraph.Layout
