/-!
# Repeated items

`Order.repeats` lists the items that occur more than once, each once, in the order in which their
second occurrences come. `Order.distinct` keeps the first occurrence of each item.
-/

set_option autoImplicit false

namespace StepGraph.Order

variable {ι : Type} [DecidableEq ι]

/-- Items of the list that repeat an earlier one, those in `seen` counting as earlier; `found` holds
the ones found so far. -/
def repeatsFrom (seen found : List ι) : List ι → List ι
  | [] => found
  | x :: rest =>
    if seen.contains x then
      repeatsFrom seen (if found.contains x then found else found ++ [x]) rest
    else repeatsFrom (x :: seen) found rest

def repeats (items : List ι) : List ι :=
  repeatsFrom [] [] items

/-- The items in the order of their first occurrences. -/
def distinctFrom (seen : List ι) : List ι → List ι
  | [] => []
  | x :: rest =>
    if seen.contains x then distinctFrom seen rest else x :: distinctFrom (x :: seen) rest

def distinct (items : List ι) : List ι :=
  distinctFrom [] items

end StepGraph.Order
