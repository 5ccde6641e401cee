import StepGraph.Document.Read
import StepGraph.Proofs.Fault

/-!
# In which format a document is

A document is asked for its format in two ways: `Document.read` says whether it converted it, and
`Document.isLegacy` looks at the loaded value only. The first takes a document of both formats as a
current one, the second as a legacy one, and they agree on every other document that is read
(`isLegacy_eq_wasLegacy_iff`).
-/

set_option autoImplicit false

namespace StepGraph

theorem Legacy.adapt_snd {raw v : Value} {source : Source} {wasLegacy : Bool}
    (h : adapt raw source = .ok (v, wasLegacy)) : wasLegacy = (isLegacy raw && !isCurrent raw) := by
  unfold adapt at h
  split at h
  · rename_i hkept
    cases h
    revert hkept
    cases isLegacy raw <;> cases isCurrent raw <;> decide
  · rename_i hconverted
    obtain ⟨_, -, h⟩ := Attempt.bind_eq_ok.1 h
    cases h
    revert hconverted
    cases isLegacy raw <;> cases isCurrent raw <;> decide

namespace Document

open Legacy (Source)

variable {text : List Char} {source source' : Source} {reading reading' : Reading}

/-- A document is converted if it is in the legacy format and not in the current one. -/
theorem wasLegacy_of_read (h : read text source = .ok reading) :
    ∃ raw, load text = .ok raw ∧
      reading.wasLegacy = (Legacy.isLegacy raw && !Legacy.isCurrent raw) := by
  obtain ⟨raw, hload, h⟩ := Attempt.bind_eq_ok.1 h
  obtain ⟨⟨adapted, wasLegacy⟩, hadapt, h⟩ := Attempt.bind_eq_ok.1 h
  obtain ⟨workflow, -, h⟩ := Attempt.bind_eq_ok.1 h
  cases h
  exact ⟨raw, hload, Legacy.adapt_snd hadapt⟩

theorem isLegacy_of_load {raw : Value} (h : load text = .ok raw) :
    isLegacy text = .ok (Legacy.isLegacy raw) := by
  rw [isLegacy, h]

/-- The source that a document is attached to does not decide its format. -/
theorem wasLegacy_congr (h : read text source = .ok reading)
    (h' : read text source' = .ok reading') : reading.wasLegacy = reading'.wasLegacy := by
  obtain ⟨raw, hload, hlegacy⟩ := wasLegacy_of_read h
  obtain ⟨raw', hload', hlegacy'⟩ := wasLegacy_of_read h'
  obtain rfl := Except.ok.inj (hload.symm.trans hload')
  rw [hlegacy, hlegacy']

/-- What is converted is called legacy. -/
theorem isLegacy_of_wasLegacy (h : read text source = .ok reading)
    (hlegacy : reading.wasLegacy = true) : isLegacy text = .ok true := by
  obtain ⟨raw, hload, heq⟩ := wasLegacy_of_read h
  rw [hlegacy, eq_comm, Bool.and_eq_true] at heq
  rw [isLegacy_of_load hload, heq.1]

/-- The two answers differ on the documents of both formats and on no others. -/
theorem isLegacy_eq_wasLegacy_iff {raw : Value} (h : read text source = .ok reading)
    (hload : load text = .ok raw) :
    isLegacy text = .ok reading.wasLegacy ↔
      ¬(Legacy.isCurrent raw = true ∧ Legacy.isLegacy raw = true) := by
  obtain ⟨raw', hload', hlegacy⟩ := wasLegacy_of_read h
  obtain rfl := Except.ok.inj (hload.symm.trans hload')
  rw [isLegacy_of_load hload, hlegacy]
  cases Legacy.isCurrent raw <;> cases Legacy.isLegacy raw <;> simp

/-- There are such documents: `stages` is an additional key of a valid workflow. -/
example :
    let raw := Value.record [("version", .str "1"),
      ("trigger", .record [("type", .str "form"), ("config", .map [])]),
      ("steps", .list []), ("stages", .list [])]
    Legacy.isCurrent raw = true ∧ Legacy.isLegacy raw = true ∧
      ∃ workflow, Workflow.ofValue raw = .ok workflow :=
  ⟨rfl, rfl, _, rfl⟩

end Document

end StepGraph
