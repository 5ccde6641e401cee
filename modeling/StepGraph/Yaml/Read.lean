import StepGraph.Yaml.Event.OfTokens
import StepGraph.Yaml.Node.Compose
import StepGraph.Yaml.Node.ToValue
import StepGraph.Yaml.Token.Scan

/-!
# Reading YAML

`Yaml.read` is the value of the one document in a text, null if there is none: the text is checked
for characters that it may not hold, cut into tokens, read as events, composed to a node, and the
node turned into a value.
-/

set_option autoImplicit false

namespace StepGraph.Yaml

/-- The characters that a text may hold. -/
def isAllowed (c : Char) : Bool :=
  let n := c.toNat
  c == '\t' || c == '\n' || c == '\r' || (0x20 ≤ n && n ≤ 0x7E) || n == 0x85
    || (0xA0 ≤ n && n ≤ 0xD7FF) || (0xE000 ≤ n && n ≤ 0xFFFD) || 0x10000 ≤ n

def checkCharacters (text : List Char) : Attempt Error Unit :=
  match text.findIdx? (!isAllowed ·) with
  | some i => report (.character (text.getD i endChar) i)
  | none => .ok ()

/-- The nodes of a text. -/
def compose (text : List Char) : Attempt Error (Option Node) := do
  checkCharacters text
  Node.compose (Event.ofTokens (Token.scan text))

def read (text : List Char) : Attempt Error Value := do
  match ← compose text with
  | some node => node.toValue
  | none => return .null

end StepGraph.Yaml
