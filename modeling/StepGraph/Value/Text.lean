import StepGraph.Fault
import StepGraph.Num.Decimal
import StepGraph.Text.Quoted
import StepGraph.Value.Basic

/-!
# Values in messages

`Value.spelled` is how a message shows a value: texts quoted, lists in brackets, mappings in braces.
`Value.label` is the same except that a text stands for itself; paths name keys in this way. A value
that holds a whole number with too many digits cannot be written, in a message or elsewhere:
`Value.assertWritable` comes first.
-/

set_option autoImplicit false

namespace StepGraph

namespace Scalar

def spelled : Scalar → String
  | .null => "None"
  | .bool true => "True"
  | .bool false => "False"
  | .num n => n.spelled .report
  | .str s => Text.quoted s

def label : Scalar → String
  | .str s => s
  | s => s.spelled

def isWritable : Scalar → Bool
  | .num n => n.isWritable
  | _ => true

end Scalar

namespace Value

mutual

def spelled : Value → String
  | .scalar s => s.spelled
  | .list items => "[" ++ ", ".intercalate (spelledItems items) ++ "]"
  | .map entries => "\x7b" ++ ", ".intercalate (spelledEntries entries) ++ "\x7d"

def spelledItems : List Value → List String
  | [] => []
  | v :: rest => v.spelled :: spelledItems rest

def spelledEntries : List (Scalar × Value) → List String
  | [] => []
  | (k, v) :: rest => (k.spelled ++ ": " ++ v.spelled) :: spelledEntries rest

end

def label : Value → String
  | .scalar s => s.label
  | v => v.spelled

mutual

/-- Whether all numbers in a value can be written. -/
def isWritable : Value → Bool
  | .scalar s => s.isWritable
  | .list items => areWritable items
  | .map entries => entriesWritable entries

def areWritable : List Value → Bool
  | [] => true
  | v :: rest => v.isWritable && areWritable rest

def entriesWritable : List (Scalar × Value) → Bool
  | [] => true
  | (k, v) :: rest => k.isWritable && v.isWritable && entriesWritable rest

end

/-- Breaks off at a value that cannot be written. -/
def assertWritable {ε : Type} (v : Value) : Attempt ε Unit :=
  if v.isWritable then .ok () else breakOff .notANumber

end Value

end StepGraph
