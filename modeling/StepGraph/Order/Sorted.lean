/-!
# Sorting by insertion

`Order.sortBy` is a stable sort by a strict order that is given as a test.
-/

set_option autoImplicit false

namespace StepGraph.Order

variable {α : Type}

/-- Inserts before the first item that must come later. -/
def insertSorted (precedes : α → α → Bool) (x : α) : List α → List α
  | [] => [x]
  | y :: rest => if precedes x y then x :: y :: rest else y :: insertSorted precedes x rest

/-- Items of which neither precedes the other keep their order. -/
def sortBy (precedes : α → α → Bool) (items : List α) : List α :=
  items.foldl (fun sorted x => insertSorted precedes x sorted) []

end StepGraph.Order
