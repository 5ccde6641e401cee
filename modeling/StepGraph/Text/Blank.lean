/-!
# Blanks, lines and parts

The blanks around a numeral are Unicode's white space. Files are read with their line ends unified:
a carriage return, alone or before a line feed, ends a line as a line feed does. A separator cuts a
text into parts, which may be empty.
-/

set_option autoImplicit false

namespace StepGraph.Text

def isBlank (c : Char) : Bool :=
  let n := c.toNat
  (0x09 ≤ n && n ≤ 0x0D) || n == 0x20 || n == 0x85 || n == 0xA0 || n == 0x1680
    || (0x2000 ≤ n && n ≤ 0x200A) || n == 0x2028 || n == 0x2029 || n == 0x202F || n == 0x205F
    || n == 0x3000

/-- The text without the blanks at both ends. -/
def trimBlanks (cs : List Char) : List Char :=
  ((cs.dropWhile isBlank).reverse.dropWhile isBlank).reverse

/-- Line ends unified to line feeds. -/
def unifyLineEnds : List Char → List Char
  | '\r' :: '\n' :: rest => '\n' :: unifyLineEnds rest
  | '\r' :: rest => '\n' :: unifyLineEnds rest
  | c :: rest => c :: unifyLineEnds rest
  | [] => []

/-- The parts of a text around a separator. -/
def splitAround (separator : Char) (cs : List Char) : List (List Char) :=
  cs.foldr
    (fun c parts =>
      if c == separator then [] :: parts
      else
        match parts with
        | first :: rest => (c :: first) :: rest
        | [] => [[c]])
    [[]]

/-- An ASCII letter in lower case; other characters stay. -/
def lowerAscii (cs : List Char) : List Char :=
  cs.map Char.toLower

end StepGraph.Text
