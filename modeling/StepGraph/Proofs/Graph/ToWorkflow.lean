import StepGraph.Proofs.Graph.Sources
import StepGraph.Proofs.Related
import StepGraph.Proofs.Workflow.Dependency
import StepGraph.Proofs.Workflow.Order
import StepGraph.Proofs.Workflow.Stored

/-!
# What a graph becomes

`Graph.toWorkflow` is taken apart into its stages (`toWorkflow_eq_ok`): each step is that of a node
(`node_of_mem`), the steps are put in order, and the check of the format leaves them alone
(`orderByDependencies_of_toWorkflow`).

* `toWorkflow_sound`: whatever an editor handed over, a workflow that comes out represents the
  nodes and edges (`Workflow.Represents`), with ids that are distinct and of the right characters,
  and dependencies that come first.
-/

set_option autoImplicit false

namespace StepGraph

/-- One step for each node, in dependency order, as the format wants them. -/
structure Workflow.Represents (w : Workflow) (nodes : List Node) (edges : List Edge) : Prop where
  nodup_stepIds : w.stepIds.Nodup
  nodup_nodes : (nodes.map Node.id).Nodup
  perm : w.stepIds.Perm (nodes.map Node.id)
  id : ∀ s ∈ w.steps, s.id ≠ "" ∧ ∀ c ∈ s.id.toList, c.isAlphanum ∨ c = '_' ∨ c = '-'
  node : ∀ s ∈ w.steps, ∀ n ∈ nodes, n.id = s.id →
    s.type = n.type ∧ s.config = n.config ∧ s.name = if n.label = "" then n.id else n.label
  dependsOn : ∀ s ∈ w.steps, s.dependsOn = Graph.distinctSources edges s.id
  earlier : ∀ before s after, w.steps = before ++ s :: after →
    ∀ d ∈ s.dependsOn.getD [], ∃ t ∈ before, t.id = d
  issues : Workflow.issuesOf w.toValue = .ok []

/-- The step of a node, stored at a position. -/
def Node.toStep (edges : List Edge) (p : Position) (n : Node) : Step :=
  ⟨n.id, if n.label = "" then n.id else n.label, n.type, n.config,
    Graph.distinctSources edges n.id, some p⟩

namespace Graph

/-! ## The steps of nodes -/

section
variable {config : Config} {found : List (String × List String)} {sources : Option (List String)}
  {n : Node} {s : Step} {nodes : List Node} {steps : List Step}

theorem stepOfNode_eq_ok : stepOfNode config sources n = .ok s ↔
    ∃ p, storedPosition config.roundPositions n.position = .ok p ∧
      s = ⟨n.id, if n.label = "" then n.id else n.label, n.type, n.config,
        sources.filter (!·.isEmpty), some p⟩ := by
  rw [stepOfNode, Attempt.bind_eq_ok]
  refine exists_congr fun p => and_congr_right fun _ => ?_
  exact ⟨fun h => (by cases h; rfl), fun h => (by rw [h]; rfl)⟩

theorem stepsOfNodes_eq_ok : stepsOfNodes config found nodes = .ok steps ↔
    List.Forall₂ (fun n s => stepOfNode config (found.lookup n.id) n = .ok s) nodes steps := by
  induction nodes generalizing steps with
  | nil =>
    rw [stepsOfNodes, List.forall₂_nil_left_iff]
    exact ⟨fun h => (by cases h; rfl), fun h => (by rw [h])⟩
  | cons n nodes ih =>
    simp only [stepsOfNodes, Attempt.bind_eq_ok, ih, List.forall₂_cons_left_iff]
    constructor
    · rintro ⟨s, hs, rest, hrest, h⟩
      exact ⟨s, rest, hs, hrest, by cases h; rfl⟩
    · rintro ⟨s, rest, hs, hrest, rfl⟩
      exact ⟨s, hs, rest, hrest, rfl⟩

theorem map_id_of_stepsOfNodes (h : stepsOfNodes config found nodes = .ok steps) :
    steps.map Step.id = nodes.map Node.id := by
  rw [stepsOfNodes_eq_ok] at h
  induction h with
  | nil => rfl
  | cons hs _ ih =>
    obtain ⟨p, -, rfl⟩ := stepOfNode_eq_ok.1 hs
    rw [List.map_cons, List.map_cons, ih]

theorem mem_of_stepsOfNodes (h : stepsOfNodes config found nodes = .ok steps) (hs : s ∈ steps) :
    ∃ n ∈ nodes, stepOfNode config (found.lookup n.id) n = .ok s :=
  exists_mem_of_forall₂ (stepsOfNodes_eq_ok.1 h) hs

theorem id_of_stepOfNode (h : stepOfNode config sources n = .ok s) : s.id = n.id := by
  obtain ⟨p, -, rfl⟩ := stepOfNode_eq_ok.1 h
  rfl

/-- The step of a node that has an id. -/
theorem stepOfNode_sourceMap_eq_ok {edges : List Edge} (hid : n.id ≠ "") :
    stepOfNode config ((sourceMap edges).lookup n.id) n = .ok s ↔
      ∃ p, storedPosition config.roundPositions n.position = .ok p ∧ s = n.toStep edges p := by
  rw [stepOfNode_eq_ok, filter_lookup_sourceMap hid]
  rfl

theorem node_of_mem {edges : List Edge}
    (h : stepsOfNodes config (sourceMap edges) nodes = .ok steps) (hs : s ∈ steps)
    (hid : s.id ≠ "") :
    ∃ n ∈ nodes, ∃ p, storedPosition config.roundPositions n.position = .ok p ∧
      s = n.toStep edges p := by
  obtain ⟨n, hn, hsn⟩ := mem_of_stepsOfNodes h hs
  rw [id_of_stepOfNode hsn] at hid
  exact ⟨n, hn, (stepOfNode_sourceMap_eq_ok hid).1 hsn⟩

end

/-! ## The raw form -/

section
variable (config : Config) (raw : RawGraph) (steps : List Step)

/-- The entries of the raw form. -/
def rawFields : Fields :=
  [("version", if raw.version.isGiven then raw.version else .str config.defaultVersion),
      ("trigger", raw.trigger), ("steps", .list (steps.map Step.toValue))]
    ++ match raw.metadata with
      | .null => []
      | metadata => [("metadata", metadata)]

theorem rawWorkflow_eq : rawWorkflow config raw steps = .map (rawFields config raw steps).entries :=
  rfl

theorem lookup_rawFields :
    (rawFields config raw steps).lookup "version"
        = some (if raw.version.isGiven then raw.version else .str config.defaultVersion) ∧
      (rawFields config raw steps).lookup "steps" = some (.list (steps.map Step.toValue)) := by
  simp [rawFields, lookup_cons_if]

/-- The steps are one entry of several. -/
theorem lookup_rawFields_of_ne (others : List Step) {name : String} (h : name ≠ "steps") :
    (rawFields config raw others).lookup name = (rawFields config raw steps).lookup name := by
  simp only [rawFields, List.cons_append, List.nil_append, lookup_cons_if, if_neg h]

theorem get_steps_rawWorkflow :
    Schema.get (rawWorkflow config raw steps) "steps" = .list (steps.map Step.toValue) := by
  rw [rawWorkflow_eq, Schema.get_entries, (lookup_rawFields config raw steps).2]
  rfl

/-- The raw form can be checked if the trigger and the steps can. -/
theorem checkable_rawWorkflow_iff : Schema.Checkable (rawWorkflow config raw steps) ↔
    Schema.TriggerCheckable raw.trigger ∧ ∀ s ∈ steps, Schema.StepCheckable s.toValue := by
  have hsteps := get_steps_rawWorkflow config raw steps
  have htrigger : Schema.get (rawWorkflow config raw steps) "trigger" = raw.trigger := by
    rw [rawWorkflow_eq, Schema.get_entries]
    simp [rawFields, lookup_cons_if]
  constructor
  · rintro ⟨ht, hs⟩
    rw [htrigger] at ht
    rw [hsteps] at hs
    exact ⟨ht, fun s hmem => hs _ (List.mem_map_of_mem hmem)⟩
  · rintro ⟨ht, hs⟩
    refine ⟨htrigger ▸ ht, ?_⟩
    rw [hsteps]
    intro item hitem
    obtain ⟨s, hmem, rfl⟩ := List.mem_map.1 hitem
    exact hs s hmem

end

/-! ## The stages -/

section
variable {config : Config} {raw : RawGraph} {w : Workflow}

theorem toWorkflow_eq_ok : toWorkflow config raw = .ok w ↔
    ∃ nodes edges steps ordered, read raw.nodes raw.edges = .ok (nodes, edges) ∧
      stepsOfNodes config (sourceMap edges) nodes = .ok steps ∧ (steps.map Step.id).Nodup ∧
      Step.orderByDependencies steps = .ok ordered ∧
      Workflow.ofValue (rawWorkflow config raw ordered) = .ok w := by
  simp only [toWorkflow, Attempt.bind_eq_ok, ← Step.assertDistinctIds_eq_ok]
  constructor
  · rintro ⟨⟨nodes, edges⟩, hread, steps, hsteps, ⟨⟩, hids, ordered, hordered, hw⟩
    exact ⟨nodes, edges, steps, ordered, hread, hsteps, hids, hordered, hw⟩
  · rintro ⟨nodes, edges, steps, ordered, hread, hsteps, hids, hordered, hw⟩
    exact ⟨(nodes, edges), hread, steps, hsteps, (), hids, ordered, hordered, hw⟩

theorem valid_of_toWorkflow (h : toWorkflow config raw = .ok w) : w.Valid := by
  obtain ⟨nodes, edges, steps, ordered, -, -, -, -, hw⟩ := toWorkflow_eq_ok.1 h
  exact Workflow.valid_of_ofValue hw

/-- The check of the format leaves the steps alone. -/
theorem steps_read_rawWorkflow (ordered : List Step) :
    (Schema.read (rawWorkflow config raw ordered)).steps = ordered := by
  rw [Schema.read, get_steps_rawWorkflow]
  exact Schema.map_readStep ordered

/-- The steps of a workflow that comes out are those of the nodes in dependency order. -/
theorem orderByDependencies_of_toWorkflow (h : toWorkflow config raw = .ok w) :
    ∃ nodes edges steps, read raw.nodes raw.edges = .ok (nodes, edges) ∧
      stepsOfNodes config (sourceMap edges) nodes = .ok steps ∧ (steps.map Step.id).Nodup ∧
      Step.orderByDependencies steps = .ok w.steps ∧
      Workflow.ofValue (rawWorkflow config raw w.steps) = .ok w := by
  obtain ⟨nodes, edges, steps, ordered, hread, hsteps, hids, hordered, hw⟩ := toWorkflow_eq_ok.1 h
  have hw' : w.steps = ordered := by
    rw [(Workflow.ofValue_eq_ok.1 hw).2.2]
    exact steps_read_rawWorkflow ordered
  rw [← hw'] at hordered hw
  exact ⟨nodes, edges, steps, hread, hsteps, hids, hordered, hw⟩

/-- A workflow that comes out represents the nodes and edges that were read. -/
theorem toWorkflow_sound (h : toWorkflow config raw = .ok w) :
    ∃ nodes edges, read raw.nodes raw.edges = .ok (nodes, edges) ∧ w.Represents nodes edges := by
  obtain ⟨nodes, edges, steps, hread, hsteps, hids, hordered, hw⟩ :=
    orderByDependencies_of_toWorkflow h
  have hvalid := Workflow.valid_of_ofValue hw
  have hmap := map_id_of_stepsOfNodes hsteps
  have hnd : w.stepIds.Nodup := (Step.map_id_of_order hordered).1
  have hnode : ∀ s ∈ w.steps, ∃ n ∈ nodes, ∃ p,
      storedPosition config.roundPositions n.position = .ok p ∧ s = n.toStep edges p := by
    intro s hs
    exact node_of_mem hsteps (Step.mem_of_order hordered hs) (hvalid s hs).id_ne
  refine ⟨nodes, edges, hread, hnd, hmap ▸ hids, ?_, fun s hs => ?_, fun s hs n hn hid => ?_,
    fun s hs => ?_, fun before s after hsplit d hd => ?_, Workflow.issuesOf_toValue hvalid⟩
  · rw [← hmap]
    exact (Step.perm_of_order hids hordered).map Step.id
  · exact Schema.isStepId_iff.1 (hvalid s hs).id
  · obtain ⟨m, hm, p, -, rfl⟩ := hnode s hs
    obtain rfl := List.inj_on_of_nodup_map (hmap ▸ hids) hn hm hid
    exact ⟨rfl, rfl, rfl⟩
  · obtain ⟨n, -, p, -, rfl⟩ := hnode s hs
    rfl
  · exact Step.earlier_of_orderByDependencies hids hordered hsplit hd

end

/-- Two nodes in the wrong order, an edge that is drawn twice and one that starts nowhere. -/
def deploy : RawGraph where
  nodes := .list [
    Node.toValue ⟨"deploy", "shell", ⟨.int 0, .float (.ofRatio false 5 2)⟩, "Deploy", []⟩,
    Node.toValue ⟨"build", "shell", ⟨.int 0, .int 0⟩, "", []⟩]
  edges := .list [
    (Edge.between "build" "deploy").toValue,
    (Edge.between "build" "deploy").toValue,
    (Edge.between "" "build").toValue]
  trigger := (⟨.webhook, []⟩ : Trigger).toValue
  metadata := .null
  version := .null

def deployed : Workflow where
  version := "1.0"
  trigger := ⟨.webhook, []⟩
  steps := [
    ⟨"build", "build", "shell", [], none, some ⟨.int 0, .int 0⟩⟩,
    ⟨"deploy", "Deploy", "shell", [], some ["build"],
      some ⟨.int 0, .float (.ofRatio false 5 2)⟩⟩]
  metadata := none

theorem toWorkflow_sound_deploy :
    toWorkflow { Config.standard with roundPositions := false } deploy = .ok deployed ∧
      ∃ nodes edges, read deploy.nodes deploy.edges = .ok (nodes, edges) ∧
        deployed.Represents nodes edges :=
  have h : toWorkflow { Config.standard with roundPositions := false } deploy = .ok deployed := by
    rfl
  ⟨h, toWorkflow_sound h⟩

end Graph

end StepGraph
