import StepGraph.Document.Read
import StepGraph.Proofs.Legacy.Answers
import StepGraph.Proofs.Legacy.Checked

/-!
# When a document has an answer

What comes after the loading of a document breaks off for few reasons only (`Tractable`). A value of
the current format cannot be checked if a coordinate is beyond the doubles, or if a number that a
message has to show is too long to be written. One of the legacy format cannot be converted if a
block has a list or a mapping as its type or a stage such a number in its name, and its conversion
cannot be checked if a key is one.

* `read_answers`, `refusal?_answers`, `isValid_answers`: a document that is loaded or refused and is
  free of these is read or refused, whatever else is in it and whatever source it is attached to.
-/

set_option autoImplicit false

namespace StepGraph

namespace Document

open Legacy (Source)

/-- The value in a document asks for nothing that has no answer: in the current format it can be
checked, in the legacy one its stages can be converted and the keys named. -/
def Tractable (raw : Value) (source : Source) : Prop :=
  if Legacy.isCurrent raw || !Legacy.isLegacy raw then Schema.Checkable raw
  else (∀ stage ∈ Schema.itemsOf (Schema.get raw "stages"), Legacy.Convertible stage) ∧
    Legacy.Nameable (Schema.itemsOf (Schema.get raw "stages")) source

section
variable {raw : Value} {source : Source} (h : Tractable raw source)
include h

theorem adapt_answers : (Legacy.adapt raw source).Answers := by
  unfold Tractable at h
  unfold Legacy.adapt
  split
  · exact Attempt.answers_ok _
  · rename_i hlegacy
    rw [if_neg hlegacy] at h
    exact (Legacy.convert_answers source h.1).bind fun _ _ => Attempt.answers_ok _

theorem checkable_of_adapt {v : Value} {wasLegacy : Bool}
    (ha : Legacy.adapt raw source = .ok (v, wasLegacy)) : Schema.Checkable v := by
  unfold Tractable at h
  unfold Legacy.adapt at ha
  split at ha
  · rename_i hcurrent
    rw [if_pos hcurrent] at h
    cases ha
    exact h
  · rename_i hlegacy
    rw [if_neg hlegacy] at h
    obtain ⟨converted, hconverted, ha⟩ := Attempt.bind_eq_ok.1 ha
    cases ha
    obtain ⟨parts, hparts, rfl⟩ := Legacy.convert_ok hconverted
    exact (Legacy.checkable_converted_iff hparts).2 h.2

end

section
variable {text : List Char} {source : Source} (hload : (load text).Answers)
  (h : ∀ raw, load text = .ok raw → Tractable raw source)
include hload h

theorem read_answers : (read text source).Answers := by
  apply hload.bind
  intro raw hraw
  apply (adapt_answers (h raw hraw)).bind
  rintro ⟨v, wasLegacy⟩ hadapt
  have hv := checkable_of_adapt (h raw hraw) hadapt
  exact (Workflow.ofValue_answers hv).bind fun _ _ => Attempt.answers_ok _

theorem readChecked_answers : (readChecked text source).Answers := by
  apply (read_answers hload h).bind
  intro reading _
  exact (Step.assertDependencies_answers _).bind fun _ _ => Attempt.answers_ok reading

/-- Whether a document is refused, and with which error, has an answer. -/
theorem refusal?_answers : ∃ e, refusal? text source = .ok e := by
  unfold refusal?
  rcases readChecked_answers hload h with ⟨reading, hok⟩ | ⟨e, he⟩
  · rw [hok]
    exact ⟨none, rfl⟩
  · rw [he]
    exact ⟨some e, rfl⟩

end

theorem isValid_answers {text : List Char} (hload : (load text).Answers)
    (h : ∀ raw, load text = .ok raw → Tractable raw .none) : ∃ valid, isValid text = .ok valid :=
  (read_answers hload h).succeeded

/-- A text as the type of a block is looked up, a list is not. -/
example :
    (Legacy.convert [.record [("blocks", .list [.record [("type", .str "")]])]] .none).succeeded
        = (.ok true : Result Bool) ∧
      (Legacy.convert [.record [("blocks", .list [.record [("type", .list [])]])]] .none).succeeded
        = (breakOff .compositeKey : Result Bool) := by
  decide

end Document

end StepGraph
