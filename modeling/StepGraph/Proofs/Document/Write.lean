import StepGraph.Document.RoundTrip
import StepGraph.Proofs.Graph.Shown
import StepGraph.Proofs.Graph.ToWorkflow
import StepGraph.Proofs.Workflow.Canonical

/-!
# Writing what was read

The stored form of a valid workflow passes the check before writing (`recheck_toValue`), so writing
fails only where values are nested too deeply or a number is too long (`write_of_valid`). What is
read from a document or from a graph is valid.

* `ofValue_canonical`: reading a value and storing it again gives its canonical form, which is read
  as the same workflow; and a workflow that was read is never refused by the check before writing.
-/

set_option autoImplicit false

namespace StepGraph.Document

variable {w : Workflow}

theorem recheck_toValue (h : w.Valid) : recheck w.toValue = .ok w := by
  rw [recheck, Workflow.issuesOf_toValue h]
  exact congrArg Except.ok (Schema.read_toValue w)

/-- Writing gives a text, unless values are nested too deeply in the stored form or it has a number
that is too long. -/
def Writable (w : Workflow) : Prop :=
  ∀ config, (∃ text, write config w = .ok text) ∨
    (Yaml.maxNesting ≤ w.toValue.depth ∧ write config w = report (.unwritable .tooDeep)) ∨
    (w.toValue.isWritable = false ∧ write config w = breakOff .notANumber)

theorem write_of_valid (h : w.Valid) : Writable w := by
  intro config
  have hopen : Yaml.openDocument (layout config) = .ok (Yaml.knownHandles, Yaml.Pen.start) := rfl
  rw [write, writeValue, recheck_toValue h]
  change (∃ text, Yaml.write (layout config) w.toValue = .ok text) ∨
    (_ ∧ Yaml.write (layout config) w.toValue = _) ∨
    (_ ∧ Yaml.write (layout config) w.toValue = _)
  unfold Yaml.write Value.assertWritable
  cases hw : w.toValue.isWritable with
  | false => exact .inr (.inr ⟨rfl, rfl⟩)
  | true =>
    rw [if_pos rfl]
    by_cases hdeep : Yaml.maxNesting ≤ w.toValue.depth
    · rw [if_pos hdeep]
      exact .inr (.inl ⟨hdeep, rfl⟩)
    · rw [if_neg hdeep, hopen]
      exact .inl ⟨_, rfl⟩

/-- A value that is read is stored as its canonical form, which is read as the same workflow again;
and what was read from a document or a graph is never refused by the check before writing. -/
theorem ofValue_canonical :
    (∀ raw w, Workflow.ofValue raw = .ok w →
      w.toValue = Schema.canonical raw ∧ Workflow.ofValue w.toValue = .ok w) ∧
    (∀ v, Schema.canonical (Schema.canonical v) = Schema.canonical v) ∧
    (∀ text source reading, read text source = .ok reading → Writable reading.workflow) ∧
    ∀ config raw w, Graph.toWorkflow config raw = .ok w → Writable w := by
  refine ⟨fun raw w h => ?_, Schema.canonical_canonical, fun text source reading h =>
    write_of_valid (valid_of_read h), fun config raw w h =>
    write_of_valid (Graph.valid_of_toWorkflow h)⟩
  have hvalid := Workflow.valid_of_ofValue h
  obtain ⟨-, hissues, rfl⟩ := Workflow.ofValue_eq_ok.1 h
  exact ⟨Schema.toValue_read hissues, Workflow.ofValue_toValue hvalid⟩

/-- A value with fields that the format does not know, fields that are null, and fields out of
order; the settings hold numbers of both kinds and a key that is no text. -/
def annotated : Value :=
  .record [
    ("owner", .str "me"),
    ("steps", .list [.record [
      ("type", .str "log"), ("depends_on", .null), ("id", .str "a"), ("name", .str "A"),
      ("position", .record [("z", .int 0), ("y", .float (.ofInt 2)), ("x", .int 1)]),
      ("config", .record [("one", .float (.ofInt 1)), ("inner", .map [(.int 1, .null)])]),
      ("note", .null)]]),
    ("metadata", .record [("author", .str "me"), ("tags", .list []), ("description", .null)]),
    ("trigger", .record [("enabled", .bool true), ("config", .record []), ("type", .str "form")]),
    ("version", .str "1")]

/-- The same without these, in order. -/
def annotatedStored : Value :=
  .record [
    ("version", .str "1"),
    ("trigger", .record [("type", .str "form"), ("config", .record [])]),
    ("steps", .list [.record [
      ("id", .str "a"), ("name", .str "A"), ("type", .str "log"),
      ("config", .record [("one", .float (.ofInt 1)), ("inner", .map [(.int 1, .null)])]),
      ("position", .record [("x", .int 1), ("y", .float (.ofInt 2))])]]),
    ("metadata", .record [("tags", .list [])])]

/-- A document without steps, with a field that the format does not know. -/
def outlined : String :=
  "owner: me\nsteps: []\ntrigger: \x7bconfig: \x7b\x7d, type: form\x7d\nversion: n"

theorem ofValue_canonical_annotated :
    (∃ w, Workflow.ofValue annotated = .ok w ∧ w.toValue = annotatedStored ∧
      Workflow.ofValue annotatedStored = .ok w) ∧
    (∃ reading, read outlined.toList .none = .ok reading ∧ Writable reading.workflow) ∧
    Graph.toWorkflow { Config.standard with roundPositions := false } Graph.deploy
      = .ok Graph.deployed ∧ Writable Graph.deployed := by
  obtain ⟨hstores, -, hdocument, hgraph⟩ := ofValue_canonical
  have hraw : Workflow.ofValue annotated = .ok (Schema.read annotated) := by rfl
  have hstored : Schema.canonical annotated = annotatedStored := by rfl
  have hread : ∃ reading, read outlined.toList .none = .ok reading := by
    have h : ((read outlined.toList .none).toOption.map (·.workflow.stepIds)) = some [] := by
      decide +kernel
    cases hr : read outlined.toList .none with
    | error e => rw [hr] at h; cases h
    | ok reading => exact ⟨reading, rfl⟩
  have hsaved : Graph.toWorkflow { Config.standard with roundPositions := false } Graph.deploy
      = .ok Graph.deployed := by rfl
  refine ⟨?_, ?_, hsaved, hgraph _ _ _ hsaved⟩
  · obtain ⟨hcanonical, hagain⟩ := hstores _ _ hraw
    rw [hcanonical, hstored] at hagain
    exact ⟨_, hraw, hcanonical.trans hstored, hagain⟩
  · obtain ⟨reading, hr⟩ := hread
    exact ⟨reading, hr, hdocument _ _ _ hr⟩

end StepGraph.Document
