import StepGraph.Yaml.Error
import StepGraph.Yaml.Tag

/-!
# Nodes

The nodes of a document after its aliases have been replaced: scalars with their text, sequences
and mappings, each with its tag and its place in the text.
-/

set_option autoImplicit false

namespace StepGraph.Yaml

inductive Node
  | scalar (tag : Tag) (text : String) (place : Mark)
  | sequence (tag : Tag) (items : List Node) (place : Mark)
  | mapping (tag : Tag) (entries : List (Node × Node)) (place : Mark)

namespace Node

def tag : Node → Tag
  | .scalar tag _ _ => tag
  | .sequence tag _ _ => tag
  | .mapping tag _ _ => tag

def place : Node → Mark
  | .scalar _ _ place => place
  | .sequence _ _ place => place
  | .mapping _ _ place => place

def form : Node → NodeForm
  | .scalar .. => .scalar
  | .sequence .. => .sequence
  | .mapping .. => .mapping

def withTag (tag : Tag) : Node → Node
  | .scalar _ text place => .scalar tag text place
  | .sequence _ items place => .sequence tag items place
  | .mapping _ entries place => .mapping tag entries place

mutual

/-- How many collections are nested in each other at the deepest place. -/
def height : Node → Nat
  | .scalar .. => 0
  | .sequence _ items _ => heightItems items + 1
  | .mapping _ entries _ => heightEntries entries + 1

def heightItems : List Node → Nat
  | [] => 0
  | n :: rest => max n.height (heightItems rest)

def heightEntries : List (Node × Node) → Nat
  | [] => 0
  | (k, v) :: rest => max (max k.height v.height) (heightEntries rest)

end

end Node

end StepGraph.Yaml
