/-!
# Patterns

Regular patterns over characters. `Pattern.accepts` decides whether a whole text has a pattern, by
taking the pattern's derivative for one character after another; `Pattern.both` and
`Pattern.either` keep the derivatives small.
-/

set_option autoImplicit false

namespace StepGraph.Text

inductive Pattern
  | never
  | nothing
  | one (p : Char → Bool)
  | both (first second : Pattern)
  | either (left right : Pattern)
  | many (p : Pattern)

namespace Pattern

def optional (p : Pattern) : Pattern :=
  .either .nothing p

/-- One or more. -/
def some (p : Pattern) : Pattern :=
  .both p (.many p)

def char (c : Char) : Pattern :=
  .one (· == c)

def anyOf (s : String) : Pattern :=
  .one s.toList.contains

def word (s : String) : Pattern :=
  s.toList.foldr (fun c p => .both (.char c) p) .nothing

/-- One after the other. -/
def all (ps : List Pattern) : Pattern :=
  ps.foldr .both .nothing

def choice (ps : List Pattern) : Pattern :=
  ps.foldr .either .never

def words (ss : List String) : Pattern :=
  choice (ss.map word)

def acceptsNothing : Pattern → Bool
  | .never => false
  | .nothing => true
  | .one _ => false
  | .both p q => p.acceptsNothing && q.acceptsNothing
  | .either p q => p.acceptsNothing || q.acceptsNothing
  | .many _ => true

def joined : Pattern → Pattern → Pattern
  | .never, _ => .never
  | .nothing, q => q
  | p, q => .both p q

def united : Pattern → Pattern → Pattern
  | .never, q => q
  | p, .never => p
  | p, q => .either p q

/-- What must follow `c` in a text that has the pattern. -/
def after (c : Char) : Pattern → Pattern
  | .never => .never
  | .nothing => .never
  | .one p => if p c then .nothing else .never
  | .both p q =>
    if p.acceptsNothing then united (joined (p.after c) q) (q.after c) else joined (p.after c) q
  | .either p q => united (p.after c) (q.after c)
  | .many p => joined (p.after c) (.many p)

def accepts : Pattern → List Char → Bool
  | p, [] => p.acceptsNothing
  | p, c :: cs => (p.after c).accepts cs

end Pattern

end StepGraph.Text
