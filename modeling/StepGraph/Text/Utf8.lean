import StepGraph.Text.Digit

/-!
# Strict UTF-8

`Utf8.decode` reads octets as text and refuses everything that is not the shortest encoding of a
character: stray and missing continuation octets, overlong forms, surrogates and values beyond the
last character. A refusal names the octets at fault, from the first octet of the broken character
up to the last one that could still belong to it.
-/

set_option autoImplicit false

namespace StepGraph.Text.Utf8

inductive Flaw
  | badStart
  | badContinuation
  | cutShort
  deriving DecidableEq, Repr

/-- Octets `first` up to and without `last` are no character. -/
structure Fault where
  flaw : Flaw
  first : Nat
  last : Nat
  octet : Nat
  deriving DecidableEq, Repr

/-- For the first octet of a character of several octets: how many follow, the bounds of the next
one, and the leading bits of the value. -/
def lead? (b : Nat) : Option (Nat × Nat × Nat × Nat) :=
  if 0xC2 ≤ b ∧ b ≤ 0xDF then some (1, 0x80, 0xBF, b - 0xC0)
  else if b = 0xE0 then some (2, 0xA0, 0xBF, 0)
  else if b = 0xED then some (2, 0x80, 0x9F, 0xD)
  else if 0xE1 ≤ b ∧ b ≤ 0xEF then some (2, 0x80, 0xBF, b - 0xE0)
  else if b = 0xF0 then some (3, 0x90, 0xBF, 0)
  else if 0xF1 ≤ b ∧ b ≤ 0xF3 then some (3, 0x80, 0xBF, b - 0xF0)
  else if b = 0xF4 then some (3, 0x80, 0x8F, 4)
  else none

/-- A character whose last octets are still to come. -/
structure Pending where
  first : Nat
  octet : Nat
  owed : Nat
  low : Nat
  high : Nat
  value : Nat

/-- Reads octets from position `at` on, inside the character `pending` if there is one. -/
def decodeFrom : Nat → Option Pending → List Nat → Except Fault (List Char)
  | _, none, [] => .ok []
  | at_, some p, [] => .error ⟨.cutShort, p.first, at_, p.octet⟩
  | at_, none, b :: rest =>
    if b < 0x80 then (Char.ofNat b :: ·) <$> decodeFrom (at_ + 1) none rest
    else
      match lead? b with
      | none => .error ⟨.badStart, at_, at_ + 1, b⟩
      | some (owed, low, high, value) =>
        decodeFrom (at_ + 1) (some ⟨at_, b, owed, low, high, value⟩) rest
  | at_, some p, b :: rest =>
    if p.low ≤ b ∧ b ≤ p.high then
      let value := 64 * p.value + (b - 0x80)
      if p.owed = 1 then (Char.ofNat value :: ·) <$> decodeFrom (at_ + 1) none rest
      else decodeFrom (at_ + 1) (some ⟨p.first, p.octet, p.owed - 1, 0x80, 0xBF, value⟩) rest
    else .error ⟨.badContinuation, p.first, at_, p.octet⟩

def decode (octets : List Nat) : Except Fault (List Char) :=
  decodeFrom 0 none octets

def Flaw.reason : Flaw → String
  | .badStart => "invalid start byte"
  | .badContinuation => "invalid continuation byte"
  | .cutShort => "unexpected end of data"

/-- The message names one octet by its value and several by their positions. -/
def Fault.message (f : Fault) : String :=
  let place :=
    if f.last = f.first + 1 then
      "byte 0x" ++ String.ofList (hex 2 f.octet) ++ " in position " ++ toString f.first
    else "bytes in position " ++ toString f.first ++ "-" ++ toString (f.last - 1)
  "'utf-8' codec can't decode " ++ place ++ ": " ++ f.flaw.reason

end StepGraph.Text.Utf8
