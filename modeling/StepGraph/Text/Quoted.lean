import StepGraph.Text.Digit
import StepGraph.Text.Printable

/-!
# Quoted text in messages

A text is shown between single quotes, or between double quotes when it holds a single quote and
no double one. The quote in use, the backslash, line feeds, carriage returns and tabs are escaped
with a backslash, and every other character that is not printable by its number.
-/

set_option autoImplicit false

namespace StepGraph.Text

/-- The quotes that need the fewest escapes, single ones if there is a choice. -/
def quoteFor (cs : List Char) : Char :=
  if cs.contains '\'' && !cs.contains '"' then '"' else '\''

/-- A character that is not printable, by its number in two, four or eight digits. -/
def numbered (c : Char) : List Char :=
  if c.toNat < 0x100 then '\\' :: 'x' :: hex 2 c.toNat
  else if c.toNat < 0x10000 then '\\' :: 'u' :: hex 4 c.toNat
  else '\\' :: 'U' :: hex 8 c.toNat

def quotedChar (quote c : Char) : List Char :=
  if c = quote ∨ c = '\\' then ['\\', c]
  else if c = '\n' then ['\\', 'n']
  else if c = '\r' then ['\\', 'r']
  else if c = '\t' then ['\\', 't']
  else if isPrintable c then [c]
  else numbered c

def quotedChars (cs : List Char) : List Char :=
  let quote := quoteFor cs
  quote :: cs.flatMap (quotedChar quote) ++ [quote]

def quoted (s : String) : String :=
  String.ofList (quotedChars s.toList)

end StepGraph.Text
