import StepGraph.Fault

/-!
# Attempts that answer

An attempt answers if it gives a result or reports an error (`Attempt.Answers`); it does not if it
breaks off. A sequence of attempts answers if each of them does (`Answers.bind`), gives a result
if each of them does (`bind_eq_ok`), and reports what the first that fails does (`bind_eq_report`).
-/

set_option autoImplicit false

namespace StepGraph.Attempt

variable {ε ε' α β : Type} {x : Attempt ε α} {f : α → Attempt ε β}

theorem bind_eq_ok {y : β} : x >>= f = .ok y ↔ ∃ a, x = .ok a ∧ f a = .ok y := by
  cases x with
  | ok a => exact ⟨fun h => ⟨a, rfl, h⟩, fun ⟨_, ha, h⟩ => by cases ha; exact h⟩
  | error e => exact ⟨fun h => (by cases h), fun ⟨_, ha, _⟩ => (by cases ha)⟩

theorem bind_eq_report {e : ε} :
    x >>= f = report e ↔ x = report e ∨ ∃ a, x = .ok a ∧ f a = report e := by
  constructor
  · intro h
    cases x with
    | ok a => exact .inr ⟨a, rfl, h⟩
    | error failure =>
      cases h
      exact .inl rfl
  · rintro (rfl | ⟨a, rfl, h⟩)
    · rfl
    · exact h

theorem widen_eq_ok {g : ε → ε'} {a : α} : x.widen g = .ok a ↔ x = .ok a := by
  cases x with
  | ok b => exact ⟨fun h => (by cases h; rfl), fun h => (by cases h; rfl)⟩
  | error e => exact ⟨fun h => (by cases h), fun h => (by cases h)⟩

theorem error_eq_report {failure : Failure ε} {e : ε} :
    (.error failure : Attempt ε α) = report e ↔ failure = .error e :=
  ⟨fun h => (by cases h; rfl), fun h => (by rw [h]; rfl)⟩

/-- Gives a result or reports an error. -/
def Answers (x : Attempt ε α) : Prop :=
  (∃ a, x = .ok a) ∨ ∃ e, x = report e

theorem answers_ok (a : α) : Answers (.ok a : Attempt ε α) :=
  .inl ⟨a, rfl⟩

theorem answers_report (e : ε) : Answers (report e : Attempt ε α) :=
  .inr ⟨e, rfl⟩

theorem Answers.bind (hx : x.Answers) (hf : ∀ a, x = .ok a → (f a).Answers) :
    (x >>= f).Answers := by
  rcases hx with ⟨a, rfl⟩ | ⟨e, rfl⟩
  · exact hf a rfl
  · exact answers_report e

/-- Whether an attempt succeeded is known if it answers. -/
theorem Answers.succeeded (hx : x.Answers) : ∃ b, (x.succeeded : Attempt ε' Bool) = .ok b := by
  rcases hx with ⟨a, rfl⟩ | ⟨e, rfl⟩
  · exact ⟨true, rfl⟩
  · exact ⟨false, rfl⟩

end StepGraph.Attempt
