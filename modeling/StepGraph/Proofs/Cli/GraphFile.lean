import StepGraph.Cli.Run
import StepGraph.Proofs.Document.RoundTrip
import StepGraph.Proofs.Json.Value

/-!
# What a graph file keeps

A graph file holds the nodes, the edges, the trigger and the metadata of a document as one value
(`graphValue`). The value is read again from what is written of it (`read_write_graphValue`), and it
leads back to all that is saved with a graph but the version of the workflow
(`graphOfFields_graphValue`). So a workflow saved from it has the version that the configuration
names, whatever the version of the document was (`version_of_graphValue`).

* `hasErrors_throughFile_iff`: where the text that is written at the end reads back as what was
  saved, another version and a NaN are all that a document loses on the way through a graph file.
-/

set_option autoImplicit false

namespace StepGraph

/-! ## The value of a graph -/

/-- The settings can be read again from JSON. -/
structure Workflow.Storable (w : Workflow) : Prop where
  trigger : Json.Storable (.record w.trigger.config)
  step : ∀ s ∈ w.steps, Json.Storable (.record s.config)

namespace Cli

theorem storable_texts (items : List String) : Json.Storable (Value.texts items) := by
  simp [Value.texts]

theorem storable_metadata (m : Metadata) : Json.Storable m.toValue := by
  obtain ⟨description, tags⟩ := m
  cases description <;> cases tags <;>
    simp [Metadata.toValue, Value.optionalField, storable_texts]

theorem storable_trigger {t : Trigger} (h : Json.Storable (.record t.config)) :
    Json.Storable t.toValue := by
  simpa [Trigger.toValue] using h

theorem storable_edge (e : Edge) : Json.Storable e.toValue := by
  simp [Edge.toValue]

theorem storable_node {n : Node} (hconfig : Json.Storable (.record n.config))
    (hposition : n.position.IsFinite) : Json.Storable n.toValue := by
  have hx : (Scalar.num n.position.x).isWritable = true :=
    Number.isWritable_of_isFinite hposition.1
  have hy : (Scalar.num n.position.y).isWritable = true :=
    Number.isWritable_of_isFinite hposition.2
  simpa [Node.toValue, Position.toValue, hx, hy] using hconfig

theorem storable_graphValue {w : Workflow} (hw : w.Valid) (hids : w.stepIds.Nodup)
    (hsize : w.steps.length < 2 ^ 63) (hs : w.Storable) (wasLegacy : Bool) :
    Json.Storable (graphValue ⟨w.toGraph .vertical, w, wasLegacy⟩) := by
  have hnodes : ∀ n ∈ (w.toGraph .vertical).nodes, Json.Storable n.toValue := by
    rw [Graph.nodes_toGraph hids]
    intro n hn
    obtain ⟨s, hmem, rfl⟩ := List.mem_map.1 hn
    exact storable_node (hs.step s hmem) (Graph.isFinite_nodePosition hw hsize hmem)
  have htrigger : Json.Storable (w.toGraph .vertical).trigger.toValue :=
    storable_trigger hs.trigger
  cases hmetadata : w.metadata with
  | none =>
    simpa [graphValue, hmetadata, Value.optionalField, storable_edge, htrigger] using hnodes
  | some m =>
    simpa [graphValue, hmetadata, Value.optionalField, storable_edge, htrigger,
      storable_metadata] using hnodes

theorem distinctKeys_edge (e : Edge) : e.toValue.DistinctKeys := by
  simp [Edge.toValue]

theorem distinctKeys_node {n : Node} (hconfig : (Value.record n.config).DistinctKeys) :
    n.toValue.DistinctKeys := by
  simpa [Node.toValue, Position.toValue] using hconfig

theorem distinctKeys_graphValue {w : Workflow} (hids : w.stepIds.Nodup) (hk : w.DistinctKeys)
    (wasLegacy : Bool) : (graphValue ⟨w.toGraph .vertical, w, wasLegacy⟩).DistinctKeys := by
  have hnodes : ∀ n ∈ (w.toGraph .vertical).nodes, n.toValue.DistinctKeys := by
    rw [Graph.nodes_toGraph hids]
    intro n hn
    obtain ⟨s, hmem, rfl⟩ := List.mem_map.1 hn
    exact distinctKeys_node (hk.step s hmem)
  have htrigger : (w.toGraph .vertical).trigger.toValue.DistinctKeys :=
    Workflow.distinctKeys_trigger hk.trigger
  cases hm : w.metadata with
  | none =>
    simpa [graphValue, hm, Value.optionalField, distinctKeys_edge, htrigger] using hnodes
  | some m =>
    have hmetadata : m.toValue.DistinctKeys := by
      simpa [Workflow.metadataValue, hm] using Workflow.distinctKeys_metadataValue w
    simpa [graphValue, hm, Value.optionalField, distinctKeys_edge, htrigger, hmetadata] using hnodes

/-! ## The graph of a file -/

theorem graphOfFields_graphValue (o : Opened) :
    ∃ fields, graphValue o = .map fields ∧
      graphOfFields fields = { o.toRaw with version := .null } := by
  refine ⟨_, rfl, ?_⟩
  obtain ⟨graph, workflow⟩ := o
  obtain ⟨version, trigger, steps, metadata⟩ := workflow
  cases metadata <;> rfl

theorem version_of_graphValue {config : Config} {o : Opened} {fields : Entries} {w : Workflow}
    (hv : graphValue o = .map fields)
    (hw : Graph.toWorkflow config (graphOfFields fields) = .ok w) :
    w.version = config.defaultVersion := by
  obtain ⟨_, hfields, hgraph⟩ := graphOfFields_graphValue o
  cases hv.symm.trans hfields
  obtain ⟨-, -, -, ordered, -, -, -, -, hstored⟩ := Graph.toWorkflow_eq_ok.1 hw
  obtain ⟨-, -, rfl⟩ := Workflow.ofValue_eq_ok.1 hstored
  have hversion : (graphOfFields fields).version.isGiven = false := by rw [hgraph]; rfl
  rw [Schema.read, Graph.rawWorkflow, hversion, Schema.get_record]
  rfl

/-! ## Through a graph file -/

section
variable {config : Config} {opened : Opened} {source : Option String} {text : List Char}

/-- The value of an opened document is written, and read again from what is written of it. -/
theorem read_write_graphValue (h : Document.toGraph text ⟨source, none⟩ = .ok opened)
    (hsize : opened.workflow.steps.length < 2 ^ 63) (hs : opened.workflow.Storable) :
    ∃ file, (Json.write (graphValue opened) : Result String) = .ok file ∧
      ∀ rest : List Char, (∀ c ∈ rest, c = '\n') →
        Json.read (file.toList ++ rest) = .ok (graphValue opened) := by
  obtain ⟨⟨w, wasLegacy⟩, hr, rfl⟩ := Document.toGraph_eq_ok.1 h
  obtain ⟨hread, hdeps⟩ := Document.readChecked_eq_ok.1 hr
  have hids := (Step.assertDependencies_eq_ok.1 hdeps).1
  have hvalid := Document.valid_of_read hread
  have hkeys := Document.distinctKeys_read (fun _ hp => by cases hp) hread
  have hstorable := storable_graphValue hvalid hids hsize hs wasLegacy
  exact ⟨_, Json.write_of_isWritable hstorable.isWritable, fun rest hrest =>
    Json.read_write hstorable (distinctKeys_graphValue hids hkeys wasLegacy) hrest⟩

theorem runToGraph_eq (h : Document.toGraph text ⟨source, none⟩ = .ok opened) {file : String}
    (hfile : (Json.write (graphValue opened) : Result String) = .ok file)
    (output : Option String) : runToGraph source output text = .ok (.ofText file output) :=
  Attempt.bind_eq_ok.2 ⟨opened, h, Attempt.bind_eq_ok.2 ⟨file, hfile, rfl⟩⟩

/-- What is read in a graph file is saved without a version. -/
theorem runToYaml_eq {env : Config.Environment} (hconfig : Config.ofEnvironment env = .ok config)
    (hread : Json.read text = .ok (graphValue opened)) {saved : Workflow} {written : String}
    (hsaved :
      Graph.toWorkflow config (opened.graph.toRaw opened.workflow.metadata "") = .ok saved)
    (hwritten : Document.write config saved = .ok written) (file : String)
    (output : Option String) : runToYaml env file output text = .ok (.ofText written output) := by
  obtain ⟨fields, hfields, hgraph⟩ := graphOfFields_graphValue opened
  have hsave : (graphOfFields fields).save config = .ok written := by
    rw [hgraph]
    exact Attempt.bind_eq_ok.2 ⟨saved, hsaved, hwritten⟩
  rw [runToYaml, hread, hfields]
  exact Attempt.bind_eq_ok.2 ⟨config, hconfig, Attempt.bind_eq_ok.2 ⟨written, hsave, rfl⟩⟩

/-- A document that goes through a graph file keeps its meaning exactly if its version is the one
that the configuration names and nothing in its settings is NaN; provided that its settings can be
read again from JSON, and that the text that is written at the end reads back as what was saved. -/
theorem hasErrors_throughFile_iff {env : Config.Environment}
    (hconfig : Config.ofEnvironment env = .ok config)
    (h : Document.toGraph text ⟨source, none⟩ = .ok opened)
    (hsize : opened.workflow.steps.length < 2 ^ 63) (hs : opened.workflow.Storable) :
    ∃ file saved, (∀ output, runToGraph source output text = .ok (.ofText file output)) ∧
      Graph.toWorkflow config (opened.graph.toRaw opened.workflow.metadata "") = .ok saved ∧
      (Document.ReadsBack config saved → ∀ path output (rest : List Char), (∀ c ∈ rest, c = '\n') →
        ∃ written reading found,
          runToYaml env path output (file.toList ++ rest) = .ok (.ofText written output) ∧
          Document.read written.toList .none = .ok reading ∧
          (opened.workflow.compare config.tolerance reading.workflow : Result _) = .ok found ∧
          (hasErrors found = false ↔
            config.defaultVersion = opened.workflow.version ∧ opened.workflow.NoNaN)) := by
  obtain ⟨saved, hsaved, hids, hcompare, hagrees⟩ :=
    @Document.exists_saved config opened _ _ (fun _ hp => by cases hp) h hsize ""
  obtain ⟨file, hfile, hread⟩ := read_write_graphValue h hsize hs
  refine ⟨file, saved, runToGraph_eq h hfile, hsaved, fun hback path output rest hrest => ?_⟩
  obtain ⟨written, wasLegacy, hwritten, hagain⟩ := hback
  refine ⟨written, _, _, runToYaml_eq hconfig (hread rest hrest) hsaved hwritten path output,
    hagain, hcompare, ?_⟩
  rw [Workflow.hasErrors_differences_iff hids, hagrees, if_pos rfl]

end

end Cli

end StepGraph
