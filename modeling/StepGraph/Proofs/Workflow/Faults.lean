import StepGraph.Proofs.Fault
import StepGraph.Proofs.Value.Record
import StepGraph.Proofs.Workflow.Schema
import StepGraph.Workflow.Validate

/-!
# How far the checks of the format come

The checks come to the end of a value exactly if they can write what their messages show and test
the coordinates (`Checkable`, `faults_eq_nil`). Only then are there issues to speak of
(`issuesOf_eq_ok`).
-/

set_option autoImplicit false

namespace StepGraph

theorem Scalar.isWritable_of_isString {s : Scalar} (h : s.isString = true) :
    s.isWritable = true := by
  cases s with
  | str => rfl
  | _ => cases h

namespace Schema

/-- All keys can be named in the path of an issue. -/
def KeysWritable (v : Value) : Prop :=
  ∀ entry ∈ entriesOf v, entry.1.isWritable = true

instance (v : Value) : Decidable (KeysWritable v) :=
  inferInstanceAs (Decidable (∀ _ ∈ _, _))

/-- No whole number beyond the doubles. -/
def Testable (v : Value) : Prop :=
  ∀ n, v = .num n → n.isHuge = false

/-- The kind of a trigger can be written, and the keys of its settings. -/
structure TriggerCheckable (trigger : Value) : Prop where
  kind : (get trigger "type").isWritable = true
  keys : KeysWritable (get trigger "config")

structure StepCheckable (step : Value) : Prop where
  keys : KeysWritable (get step "config")
  x : Testable (get (get step "position") "x")
  y : Testable (get (get step "position") "y")

/-- What the checks have to show can be written, and the coordinates can be tested. -/
structure Checkable (raw : Value) : Prop where
  trigger : TriggerCheckable (get raw "trigger")
  steps : ∀ step ∈ itemsOf (get raw "steps"), StepCheckable step

/-! ## No faults -/

section
variable {v : Value}

theorem textFaults_eq_nil : textFaults v = [] ↔ v.isWritable = true := by
  unfold textFaults
  split <;> simp_all

theorem coordinateFaults_eq_nil : coordinateFaults v = [] ↔ Testable v := by
  unfold coordinateFaults Testable
  split
  · rename_i n
    cases hn : n.isHuge with
    | false => simp [hn]
    | true => simp [hn]
  · rename_i hno
    exact ⟨fun _ n hn => absurd hn (hno n), fun _ => rfl⟩

/-- Only keys that are no texts are named, and texts can always be written. -/
theorem settingsFaults_eq_nil : settingsFaults v = [] ↔ KeysWritable v := by
  unfold settingsFaults KeysWritable
  simp only [List.flatMap_eq_nil_iff, List.mem_filter, textFaults_eq_nil, Value.isWritable]
  refine ⟨fun h entry he => ?_, fun h entry he => h entry he.1⟩
  by_cases hs : entry.1.isString = true
  · exact Scalar.isWritable_of_isString hs
  · exact h entry ⟨he, by simpa using hs⟩

theorem stepFaults_eq_nil : stepFaults v = [] ↔ StepCheckable v := by
  unfold stepFaults positionFaults
  simp only [List.append_eq_nil_iff, settingsFaults_eq_nil, coordinateFaults_eq_nil]
  exact ⟨fun ⟨hk, hx, hy⟩ => ⟨hk, hx, hy⟩, fun h => ⟨h.keys, h.x, h.y⟩⟩

theorem faults_eq_nil : faults v = [] ↔ Checkable v := by
  unfold faults triggerFaults
  simp only [List.append_eq_nil_iff, List.flatMap_eq_nil_iff, textFaults_eq_nil,
    settingsFaults_eq_nil, stepFaults_eq_nil]
  exact ⟨fun ⟨⟨ht, hk⟩, hs⟩ => ⟨⟨ht, hk⟩, hs⟩,
    fun h => ⟨⟨h.trigger.kind, h.trigger.keys⟩, h.steps⟩⟩

theorem eq_notANumber_of_mem_textFaults {fault : Fault} (h : fault ∈ textFaults v) :
    fault = .notANumber := by
  unfold textFaults at h
  split at h
  · cases h
  · exact List.mem_singleton.1 h

theorem eq_notANumber_of_mem_settingsFaults {fault : Fault} (h : fault ∈ settingsFaults v) :
    fault = .notANumber := by
  obtain ⟨_, -, h⟩ := List.mem_flatMap.1 h
  exact eq_notANumber_of_mem_textFaults h

/-- Besides coordinates that cannot be tested there are only numbers that cannot be written. -/
theorem eq_notANumber_of_mem_faults {fault : Fault}
    (hplaces : ∀ step ∈ itemsOf (get v "steps"),
      Testable (get (get step "position") "x") ∧ Testable (get (get step "position") "y"))
    (h : fault ∈ faults v) : fault = .notANumber := by
  rcases List.mem_append.1 h with h | h
  · rcases List.mem_append.1 h with h | h
    · exact eq_notANumber_of_mem_textFaults h
    · exact eq_notANumber_of_mem_settingsFaults h
  · obtain ⟨step, hstep, h⟩ := List.mem_flatMap.1 h
    obtain ⟨hx, hy⟩ := hplaces step hstep
    rw [stepFaults, positionFaults, coordinateFaults_eq_nil.2 hx, coordinateFaults_eq_nil.2 hy,
      List.append_nil, List.append_nil] at h
    exact eq_notANumber_of_mem_settingsFaults h

end

/-! ## Values that can be checked -/

theorem keysWritable_of_isString {v : Value}
    (h : ∀ entry ∈ entriesOf v, entry.1.isString = true) : KeysWritable v :=
  fun entry he => Scalar.isWritable_of_isString (h entry he)

theorem keysWritable_record (fields : Fields) : KeysWritable (.record fields) :=
  keysWritable_of_isString fun _ => Value.isString_of_mem_entries

theorem testable_null : Testable .null :=
  fun _ h => (by cases h)

theorem testable_num {n : Number} : Testable (.num n) ↔ n.isHuge = false :=
  ⟨fun h => h n rfl, fun h m hm => by cases hm; exact h⟩

end Schema

namespace Workflow

theorem issuesOf_eq_ok {raw : Value} {found : List Issue} :
    issuesOf raw = .ok found ↔ Schema.Checkable raw ∧ found = Schema.issues raw := by
  rw [← Schema.faults_eq_nil]
  unfold issuesOf
  split
  · rename_i h
    simp [h, eq_comm]
  · rename_i h
    simp [h, breakOff]

/-- Where all coordinates can be tested, the checks break off at a number that cannot be written. -/
theorem issuesOf_eq_notANumber {raw : Value} (h : ¬ Schema.Checkable raw)
    (hplaces : ∀ step ∈ Schema.itemsOf (Schema.get raw "steps"),
      Schema.Testable (Schema.get (Schema.get step "position") "x") ∧
        Schema.Testable (Schema.get (Schema.get step "position") "y")) :
    issuesOf raw = breakOff .notANumber := by
  rw [← Schema.faults_eq_nil] at h
  obtain ⟨fault, faults, hfaults⟩ := List.exists_cons_of_ne_nil h
  have hfault : fault ∈ Schema.faults raw := by rw [hfaults]; exact List.mem_cons_self
  obtain rfl := Schema.eq_notANumber_of_mem_faults hplaces hfault
  rw [issuesOf, hfaults]

theorem ofValue_eq_ok {raw : Value} {w : Workflow} :
    ofValue raw = .ok w ↔
      Schema.Checkable raw ∧ Schema.issues raw = [] ∧ w = Schema.read raw := by
  unfold ofValue
  rw [Attempt.bind_eq_ok]
  simp only [issuesOf_eq_ok]
  constructor
  · rintro ⟨found, ⟨hc, rfl⟩, h⟩
    split at h
    · rename_i hi
      exact ⟨hc, List.isEmpty_iff.1 hi, (Except.ok.inj h).symm⟩
    · cases h
  · rintro ⟨hc, hi, rfl⟩
    exact ⟨_, ⟨hc, rfl⟩, by rw [if_pos (List.isEmpty_iff.2 hi)]; rfl⟩

/-- A value that can be checked is read or refused. -/
theorem ofValue_answers {v : Value} (h : Schema.Checkable v) : (ofValue v).Answers := by
  have hissues := issuesOf_eq_ok.2 ⟨h, rfl⟩
  rw [ofValue, hissues]
  apply (Attempt.answers_ok (Schema.issues v)).bind
  intro issues _
  split
  · exact Attempt.answers_ok _
  · exact Attempt.answers_report _

end Workflow

end StepGraph
