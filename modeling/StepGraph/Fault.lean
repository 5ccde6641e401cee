/-!
# Failures

An operation fails in one of two ways. It reports an error of its own kind, with a message for the
author of the document; or it meets a value it has no answer for, a `Fault`, and breaks off
without a message. `Failure ε` is either, for the errors `ε` of the operation.
-/

set_option autoImplicit false

namespace StepGraph

/-- What an operation was given and cannot deal with. -/
inductive Fault
  /-- A text that should be a number and is none, or a whole number with too many digits to be read
  or written in decimal. -/
  | notANumber
  /-- A numeral with nothing in it. -/
  | emptyNumeral
  /-- A word that is none of those a switch has. -/
  | unknownWord
  /-- The number of a character beyond the last one. -/
  | noSuchCharacter
  /-- A list or a mapping where a plain key is looked up. -/
  | compositeKey
  /-- Something that has no items where items are walked through. -/
  | noItems
  /-- A number beyond those that its place can hold: the largest double, or 31 bits. -/
  | tooLarge
  /-- The square root of a negative number. -/
  | negativeRoot
  /-- Octets that are not UTF-8 text. -/
  | notUtf8
  /-- A value of the wrong type where only one type makes sense. -/
  | wrongType
  deriving DecidableEq, Repr

inductive Failure (ε : Type)
  | error (e : ε)
  | fault (f : Fault)
  deriving DecidableEq

/-- The same failure with its error seen as one of a wider kind. -/
def Failure.widen {ε ε' : Type} (f : ε → ε') : Failure ε → Failure ε'
  | .error e => .error (f e)
  | .fault x => .fault x

/-- A result that can fail in either way. -/
abbrev Attempt (ε α : Type) := Except (Failure ε) α

def Attempt.widen {ε ε' α : Type} (f : ε → ε') (x : Attempt ε α) : Attempt ε' α :=
  x.mapError (Failure.widen f)

/-- Whether an attempt succeeded. An error that it reports is an answer, a fault is not. -/
def Attempt.succeeded {ε ε' α : Type} : Attempt ε α → Attempt ε' Bool
  | .ok _ => .ok true
  | .error (.error _) => .ok false
  | .error (.fault f) => .error (.fault f)

/-- Reports an error. -/
def report {ε α : Type} (e : ε) : Attempt ε α :=
  .error (.error e)

/-- Breaks off. -/
def breakOff {ε α : Type} (f : Fault) : Attempt ε α :=
  .error (.fault f)

end StepGraph
