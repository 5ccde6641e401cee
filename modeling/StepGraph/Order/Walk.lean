/-!
# Dependency order

`Order.sort` lists items so that each comes after everything it depends on, by a depth-first walk
from each item in turn. Items without an order between them keep the order in which they were
given. An item that is being visited is `open`, and the open items are those on the stack; meeting
one of them again closes a cycle. The walk keeps, for each item on the stack, the dependencies that
are still to be looked at.
-/

set_option autoImplicit false

namespace StepGraph.Order

variable {ι : Type} [DecidableEq ι]

/-- How far the visit of an item has come. -/
inductive Visit
  | open
  | done
  deriving DecidableEq, Repr

/-- Why items have no order. -/
inductive Obstacle (ι : Type)
  /-- `item` depends on something that is not among the items. -/
  | unknown (item dependency : ι)
  /-- Each entry depends on the next one, and the last is the first. -/
  | cycle (path : List ι)
  deriving DecidableEq

structure Walk (ι : Type) where
  /-- The last mark set for an item counts. -/
  marks : List (ι × Visit)
  /-- Open items, the innermost first, with the dependencies to look at. -/
  stack : List (ι × List ι)
  /-- Finished items, the last one first. -/
  emitted : List ι

namespace Walk

def start : Walk ι :=
  ⟨[], [], []⟩

def mark? (w : Walk ι) (item : ι) : Option Visit :=
  w.marks.lookup item

/-- Open items from the outermost to the innermost. -/
def path (w : Walk ι) : List ι :=
  (w.stack.map Prod.fst).reverse

def enter (dependencies : ι → List ι) (item : ι) (w : Walk ι) : Walk ι :=
  { w with
    marks := (item, .open) :: w.marks
    stack := (item, dependencies item) :: w.stack }

/-- The part of the path from `item` on, closed by `item`. -/
def cycleAt (w : Walk ι) (item : ι) : List ι :=
  w.path.dropWhile (· != item) ++ [item]

/-- Looks at one dependency of the innermost open item, or finishes it if none is left. -/
def step (items : List ι) (dependencies : ι → List ι) (w : Walk ι) :
    Except (Obstacle ι) (Walk ι) :=
  match w.stack with
  | [] => .ok w
  | (item, []) :: rest =>
    .ok ⟨(item, .done) :: w.marks, rest, item :: w.emitted⟩
  | (item, dependency :: pending) :: rest =>
    let w := { w with stack := (item, pending) :: rest }
    if items.contains dependency then
      match w.mark? dependency with
      | some .done => .ok w
      | some .open => .error (.cycle (w.cycleAt dependency))
      | none => .ok (w.enter dependencies dependency)
    else .error (.unknown item dependency)

/-- Steps until the stack is empty. -/
def run (items : List ι) (dependencies : ι → List ι) : Nat → Walk ι → Except (Obstacle ι) (Walk ι)
  | 0, w => .ok w
  | steps + 1, w =>
    if w.stack.isEmpty then .ok w
    else (w.step items dependencies).bind (run items dependencies steps)

/-- Visits an item that has not been finished. -/
def visit (items : List ι) (dependencies : ι → List ι) (steps : Nat) (w : Walk ι) (item : ι) :
    Except (Obstacle ι) (Walk ι) :=
  if w.mark? item = some .done then .ok w
  else run items dependencies steps (w.enter dependencies item)

end Walk

/-- Each item is entered once, and each of its dependencies looked at once. -/
def stepBound (items : List ι) (dependencies : ι → List ι) : Nat :=
  items.foldr (fun item bound => (dependencies item).length + 1 + bound) 0

/-- The distinct items in dependency order. -/
def sort (items : List ι) (dependencies : ι → List ι) : Except (Obstacle ι) (List ι) := do
  let w ← items.foldlM (Walk.visit items dependencies (stepBound items dependencies)) Walk.start
  return w.emitted.reverse

end StepGraph.Order
