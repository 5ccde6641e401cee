/-!
# Reading positions

A `Cursor` is a place in a text: the rest of the text, and how many characters, lines and columns
lie before it. It knows the size of the text, so `Cursor.steps`, which bounds every walk from here
on, need not measure the rest (`steps_eq`). Lines end at a line feed, a carriage return, both
together, the next-line character and the two separators of Unicode. The end of the text reads as
the character NUL, which no text that is read contains.
-/

set_option autoImplicit false

namespace StepGraph.Yaml

/-- The character that the end of the text reads as. -/
def endChar : Char := '\x00'

def isBreak (c : Char) : Bool :=
  c == '\n' || c == '\r' || c == '\x85' || c == '\u2028' || c == '\u2029'

/-- A line break or the end. -/
def endsLine (c : Char) : Bool :=
  c == endChar || isBreak c

/-- A space, a line break or the end. -/
def endsWord (c : Char) : Bool :=
  c == ' ' || endsLine c

/-- A blank, a line break or the end. -/
def isGap (c : Char) : Bool :=
  c == '\t' || endsWord c

/-- A letter, a digit, a hyphen or an underscore, all of ASCII. -/
def isNameChar (c : Char) : Bool :=
  c.isAlphanum || c == '-' || c == '_'

/-- The characters of a tag, percent signs included. -/
def isUriChar (c : Char) : Bool :=
  c.isAlphanum || "-;/?:@&=+$,_.!~*'()[]%".toList.contains c

/-- A place in a text, counted from zero. -/
structure Mark where
  index : Nat
  line : Nat
  column : Nat
  deriving DecidableEq, Repr, Inhabited

structure Cursor where
  rest : List Char
  index : Nat
  line : Nat
  column : Nat
  /-- The number of characters of the whole text. -/
  size : Nat
  index_add_length : index + rest.length = size

namespace Cursor

def ofText (text : List Char) : Cursor :=
  ⟨text, 0, 0, 0, text.length, Nat.zero_add _⟩

def mark (c : Cursor) : Mark :=
  ⟨c.index, c.line, c.column⟩

/-- The character `n` places ahead. -/
def peek (c : Cursor) (n : Nat) : Char :=
  c.rest.getD n endChar

def head (c : Cursor) : Char :=
  c.rest.headD endChar

/-- Past one character. A byte order mark has no width. -/
def advance (c : Cursor) : Cursor :=
  match h : c.rest with
  | [] => c
  | ch :: rest =>
    have passed : c.index + 1 + rest.length = c.size := by
      have := c.index_add_length
      rw [h, List.length_cons] at this
      omega
    if isBreak ch && !(ch == '\r' && rest.head? == some '\n') then
      ⟨rest, c.index + 1, c.line + 1, 0, c.size, passed⟩
    else if ch == '\uFEFF' then ⟨rest, c.index + 1, c.line, c.column, c.size, passed⟩
    else ⟨rest, c.index + 1, c.line, c.column + 1, c.size, passed⟩

def advanceBy : Nat → Cursor → Cursor
  | 0, c => c
  | n + 1, c => advanceBy n c.advance

/-- The characters up to the first one that does not satisfy `p`, and the place after them. -/
def span (p : Char → Bool) (c : Cursor) : List Char × Cursor :=
  let run := c.rest.takeWhile p
  (run, c.advanceBy run.length)

def skipSpaces (c : Cursor) : Cursor :=
  (c.span (· == ' ')).2

/-- Up to the end of the line. -/
def skipLine (c : Cursor) : Cursor :=
  (c.span fun ch => !endsLine ch).2

/-- Past a comment, if one starts here. -/
def skipComment (c : Cursor) : Cursor :=
  if c.head == '#' then c.skipLine else c

/-- What a line break here is read as, and the place after it: the break characters of ASCII and
the next-line character as a line feed, the separators as themselves. -/
def lineBreak? (c : Cursor) : Option (Char × Cursor) :=
  match c.rest with
  | '\r' :: '\n' :: _ => some ('\n', c.advanceBy 2)
  | ch :: _ =>
    if ch == '\u2028' || ch == '\u2029' then some (ch, c.advance)
    else if isBreak ch then some ('\n', c.advance)
    else none
  | [] => none

/-- Whether `---` or `...` and a gap stand here. -/
def atDocumentMarker (c : Cursor) : Bool :=
  (c.rest.take 3 == ['-', '-', '-'] || c.rest.take 3 == ['.', '.', '.']) && isGap (c.peek 3)

/-- How many steps suffice when each one consumes a character. -/
def steps (c : Cursor) : Nat :=
  c.size - c.index + 1

theorem steps_eq (c : Cursor) : c.steps = c.rest.length + 1 := by
  have := c.index_add_length
  unfold steps
  omega

end Cursor

/-! ## Showing a place -/

/-- At most this many characters are shown on either side of a place; of a longer run, five fewer
and an ellipsis. -/
def snippetReach : Nat := 37

def ellipsis : List Char :=
  " ... ".toList

/-- The line around a place, cut where it is long, and a caret under the place. -/
def Mark.snippet (text : List Char) (m : Mark) : List Char :=
  let before := (text.take m.index).reverse.takeWhile fun c => !endsLine c
  let after := (text.drop m.index).takeWhile fun c => !endsLine c
  let cutBefore := snippetReach ≤ before.length
  let cutAfter := snippetReach ≤ after.length
  let left := if cutBefore then ellipsis ++ (before.take (snippetReach - 5)).reverse
    else before.reverse
  let right := if cutAfter then after.take (snippetReach - 5) ++ ellipsis else after
  let indent := List.replicate 4 ' '
  indent ++ left ++ right ++ '\n' :: indent ++ List.replicate left.length ' ' ++ ['^']

/-- Where a place is, counted from one, and its snippet. -/
def Mark.describe (text : List Char) (m : Mark) : String :=
  "  in \"<unicode string>\", line " ++ toString (m.line + 1) ++ ", column "
    ++ toString (m.column + 1) ++ ":\n" ++ String.ofList (m.snippet text)

end StepGraph.Yaml
