import StepGraph.Yaml.Error

/-!
# Reading piece by piece

A `Lexer α` reads an `α` at a cursor and leaves the cursor behind it, or fails.
-/

set_option autoImplicit false

namespace StepGraph.Yaml

abbrev Lexer := StateT Cursor (Except (Failure Error))

namespace Lexer

def mark : Lexer Mark :=
  return (← get).mark

/-- The character here. -/
def head : Lexer Char :=
  return (← get).head

def advance : Lexer Unit :=
  modify Cursor.advance

/-- Reads the run of characters that satisfy `p`. -/
def span (p : Char → Bool) : Lexer (List Char) :=
  modifyGet (Cursor.span p)

def skipSpaces : Lexer Unit :=
  modify Cursor.skipSpaces

/-- Reads a line break, if there is one. -/
def lineBreak? : Lexer (Option Char) :=
  modifyGet fun c =>
    match c.lineBreak? with
    | some (ch, c') => (some ch, c')
    | none => (none, c)

/-- Fails at the cursor. -/
def failHere {α : Type} (activity : Activity) (start : Mark) (problem : Problem) : Lexer α := do
  fail activity start problem (← mark)

/-- Requires `p` of the character here, which is not read. -/
def expect (p : Char → Bool) (activity : Activity) (start : Mark) (problem : Char → Problem) :
    Lexer Unit := do
  let c ← head
  if p c then return () else failHere activity start (problem c)

/-- Requires `p` of the character here and reads it. -/
def eat (p : Char → Bool) (activity : Activity) (start : Mark) (problem : Char → Problem) :
    Lexer Unit := do
  expect p activity start problem
  advance

/-- Reads the rest of a line that may hold nothing but spaces and a comment. -/
def endOfLine (activity : Activity) (start : Mark) : Lexer Unit := do
  skipSpaces
  modify Cursor.skipComment
  expect endsLine activity start .expectedCommentOrBreak
  let _ ← lineBreak?
  return ()

end Lexer

end StepGraph.Yaml
