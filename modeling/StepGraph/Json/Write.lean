import StepGraph.Text.Digit
import StepGraph.Value.Text

/-!
# Writing JSON

`Json.write` writes a value over several lines, two spaces to a level, in ASCII: any other
character is written by its code units. Keys that are no texts are written as texts, and the numbers
that JSON lacks as `NaN` and `Infinity`. A whole number with too many digits cannot be written.
-/

set_option autoImplicit false

namespace StepGraph.Json

open Text

/-- Doubles are written positionally from `1e-4` up to `1e16`. -/
def floatStyle : FloatStyle :=
  ⟨-4, 16, false, "NaN", "Infinity"⟩

def unitEscape (n : Nat) : List Char :=
  '\\' :: 'u' :: hex 4 n

def writeChar (c : Char) : List Char :=
  if c = '"' ∨ c = '\\' then ['\\', c]
  else if c = '\n' then ['\\', 'n']
  else if c = '\r' then ['\\', 'r']
  else if c = '\t' then ['\\', 't']
  else if c = '\x0c' then ['\\', 'f']
  else if c = '\x08' then ['\\', 'b']
  else if 0x20 ≤ c.toNat ∧ c.toNat < 0x7F then [c]
  else if c.toNat < 0x10000 then unitEscape c.toNat
  else
    let n := c.toNat - 0x10000
    unitEscape (0xD800 + n / 0x400) ++ unitEscape (0xDC00 + n % 0x400)

def writeString (s : String) : String :=
  String.ofList ('"' :: s.toList.flatMap writeChar ++ ['"'])

/-- A scalar that is no text. -/
def word : Scalar → String
  | .null => "null"
  | .bool true => "true"
  | .bool false => "false"
  | .num n => n.spelled floatStyle
  | .str s => s

def writeScalar : Scalar → String
  | .str s => writeString s
  | s => word s

def writeKey (k : Scalar) : String :=
  writeString (word k)

/-- A line break and the indentation of a level. -/
def newLine (level : Nat) : String :=
  String.ofList ('\n' :: List.replicate (2 * level) ' ')

/-- Items between brackets, each on a line of its own. -/
def bracketed (opening closing : String) (level : Nat) (items : List String) : String :=
  match items with
  | [] => opening ++ closing
  | _ =>
    opening ++ newLine (level + 1) ++ ("," ++ newLine (level + 1)).intercalate items
      ++ newLine level ++ closing

mutual

def writeAt (level : Nat) : Value → String
  | .scalar s => writeScalar s
  | .list items => bracketed "[" "]" level (writeItems (level + 1) items)
  | .map entries => bracketed "\x7b" "\x7d" level (writeEntries (level + 1) entries)

def writeItems (level : Nat) : List Value → List String
  | [] => []
  | v :: rest => writeAt level v :: writeItems level rest

def writeEntries (level : Nat) : List (Scalar × Value) → List String
  | [] => []
  | (k, v) :: rest => (writeKey k ++ ": " ++ writeAt level v) :: writeEntries level rest

end

def write {ε : Type} (v : Value) : Attempt ε String := do
  v.assertWritable
  return writeAt 0 v

end StepGraph.Json
