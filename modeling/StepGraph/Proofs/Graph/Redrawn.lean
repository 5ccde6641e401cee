import StepGraph.Proofs.Graph.Permuted
import StepGraph.Proofs.Graph.Position

/-!
# A graph drawn in another way

In an editor nodes are moved, renamed and configured, and edges have ids and types that a workflow
does not keep. None of this reaches what the steps depend on: the sources of a target are a matter
of what the edges join (`sourceMap_of_ends`), and the checks and the order look at ids and
dependencies only (`Step.assertDependencies_of_forall₂`, `Step.order_of_forall₂`).

* `toWorkflow_eq_report`: an error of ids or dependencies is that of the checks on the steps.
* `toWorkflow_redrawn`: a graph that is drawn in another way fails these checks in the same way, and
  saved it has the same steps in the same order, each different only in what its node shows.
-/

set_option autoImplicit false

namespace StepGraph

/-- The error is about ids or dependencies, and not about a format. -/
inductive Error.OfWiring : Error → Prop
  | duplicateIds (ids : List String) : OfWiring (.duplicateIds ids)
  | unknownDependency (step dependency : String) : OfWiring (.unknownDependency step dependency)
  | cycle (path : List String) : OfWiring (.cycle path)

/-- Nodes with the same ids in the same places, and edges that join the same ones. -/
structure Graph.Redrawn (nodes nodes' : List Node) (edges edges' : List Edge) : Prop where
  ids : nodes'.map Node.id = nodes.map Node.id
  ends : edges'.map (fun e => (e.source, e.target)) = edges.map fun e => (e.source, e.target)

/-- The steps of two nodes, which differ in no more than the nodes do. -/
structure Step.DifferAs (n n' : Node) (s s' : Step) : Prop where
  id : s'.id = s.id
  dependsOn : s'.dependsOn = s.dependsOn
  name : n'.label = n.label → s'.name = s.name
  type : n'.type = n.type → s'.type = s.type
  config : n'.config = n.config → s'.config = s.config
  position : n'.position = n.position → s'.position = s.position

/-- The steps of a node and of the node in its place. -/
def Step.Redrawn (nodes nodes' : List Node) (s s' : Step) : Prop :=
  ∃ n n', (n, n') ∈ nodes.zip nodes' ∧ n.id = s.id ∧ n'.id = s.id ∧ Step.DifferAs n n' s s'

/-- The same workflow but for what the nodes show. -/
structure Workflow.Redrawn (nodes nodes' : List Node) (w w' : Workflow) : Prop where
  version : w'.version = w.version
  trigger : w'.trigger = w.trigger
  metadata : w'.metadata = w.metadata
  stepIds : w'.stepIds = w.stepIds
  dependsOn : w'.steps.map Step.dependsOn = w.steps.map Step.dependsOn
  steps : List.Forall₂ (Step.Redrawn nodes nodes') w.steps w'.steps

/-! ## Steps -/

namespace Step

variable {nodes nodes' : List Node} {s s' : Step}

theorem Redrawn.id (h : Redrawn nodes nodes' s s') : s'.id = s.id := by
  obtain ⟨n, n', -, -, -, h⟩ := h
  exact h.id

theorem Redrawn.dependsOn (h : Redrawn nodes nodes' s s') : s'.dependsOn = s.dependsOn := by
  obtain ⟨n, n', -, -, -, h⟩ := h
  exact h.dependsOn

theorem Redrawn.cons {n n' : Node} (h : Redrawn nodes nodes' s s') :
    Redrawn (n :: nodes) (n' :: nodes') s s' := by
  obtain ⟨m, m', hm, h⟩ := h
  exact ⟨m, m', List.mem_cons_of_mem _ hm, h⟩

end Step

namespace Graph

section
variable {config : Config}

/-- Nodes under one id, given the same sources, become steps that differ as they do. -/
theorem differAs_of_stepOfNode {sources : Option (List String)} {n n' : Node} {s s' : Step}
    (hid : n'.id = n.id) (h : stepOfNode config sources n = .ok s)
    (h' : stepOfNode config sources n' = .ok s') : Step.DifferAs n n' s s' := by
  obtain ⟨p, hp, rfl⟩ := stepOfNode_eq_ok.1 h
  obtain ⟨p', hp', rfl⟩ := stepOfNode_eq_ok.1 h'
  refine ⟨hid, rfl, fun hlabel => ?_, id, id, fun hposition => ?_⟩
  · simp only [hlabel, hid]
  · rw [hposition, hp] at hp'
    cases hp'
    rfl

theorem stepOfNode_ok (config : Config) (sources : Option (List String)) {n : Node}
    (h : n.position.IsFinite) : ∃ s, stepOfNode config sources n = .ok s := by
  obtain ⟨p, hp, -⟩ := storedPosition_ok config.roundPositions h
  exact ⟨_, stepOfNode_eq_ok.2 ⟨p, hp, rfl⟩⟩

theorem stepsOfNodes_redrawn (config : Config) (found : List (String × List String))
    {nodes nodes' : List Node} (hids : nodes'.map Node.id = nodes.map Node.id)
    (hfinite : ∀ n ∈ nodes, n.position.IsFinite)
    (hfinite' : ∀ n ∈ nodes', n.position.IsFinite) :
    ∃ steps steps', stepsOfNodes config found nodes = .ok steps ∧
      stepsOfNodes config found nodes' = .ok steps' ∧
      List.Forall₂ (Step.Redrawn nodes nodes') steps steps' := by
  simp only [stepsOfNodes_eq_ok]
  induction nodes generalizing nodes' with
  | nil =>
    obtain rfl := List.map_eq_nil_iff.1 hids
    exact ⟨[], [], .nil, .nil, .nil⟩
  | cons n nodes ih =>
    obtain ⟨n', nodes', rfl, hid, hids⟩ := List.map_eq_cons_iff.1 hids
    obtain ⟨hn, hfinite⟩ := List.forall_mem_cons.1 hfinite
    obtain ⟨hn', hfinite'⟩ := List.forall_mem_cons.1 hfinite'
    obtain ⟨s, hs⟩ := stepOfNode_ok config (found.lookup n.id) hn
    obtain ⟨s', hs'⟩ := stepOfNode_ok config (found.lookup n.id) hn'
    obtain ⟨steps, steps', hsteps, hsteps', hsame⟩ := ih hids hfinite hfinite'
    have hfirst : Step.Redrawn (n :: nodes) (n' :: nodes') s s' := by
      refine ⟨n, n', List.mem_cons_self, (id_of_stepOfNode hs).symm, ?_,
        differAs_of_stepOfNode hid hs hs'⟩
      rw [hid, id_of_stepOfNode hs]
    refine ⟨s :: steps, s' :: steps', .cons hs hsteps, .cons ?_ hsteps',
      .cons hfirst (hsame.imp fun _ _ h => h.cons)⟩
    rwa [hid]

end

/-! ## Failures -/

section
variable {config : Config} {raw : RawGraph} {nodes : List Node} {edges : List Edge}
  {steps : List Step} {e : Error}

theorem ofValue_ne_report (he : e.OfWiring) (v : Value) : Workflow.ofValue v ≠ report e := by
  intro h
  rcases Attempt.bind_eq_report.1 h with h | ⟨issues, -, h⟩
  · unfold Workflow.issuesOf at h
    split at h
    · cases h
    · cases h
  · split at h
    · cases h
    · cases h
      cases he

/-- An error of ids or dependencies comes from the checks on the steps, before the format is looked
at. -/
theorem toWorkflow_eq_report (he : e.OfWiring)
    (hread : read raw.nodes raw.edges = .ok (nodes, edges))
    (hsteps : stepsOfNodes config (sourceMap edges) nodes = .ok steps) :
    toWorkflow config raw = report e ↔ Step.assertDependencies steps = report e := by
  have hrun : toWorkflow config raw = (do
      Step.assertDistinctIds steps
      let ordered ← Step.orderByDependencies steps
      Workflow.ofValue (rawWorkflow config raw ordered)) := by
    rw [toWorkflow, hread]
    change (stepsOfNodes config (sourceMap edges) nodes >>= _) = _
    rw [hsteps]
    rfl
  rw [hrun, Step.assertDependencies]
  cases Step.assertDistinctIds steps with
  | error f => exact Attempt.error_eq_report.trans Attempt.error_eq_report.symm
  | ok _ =>
    cases Step.orderByDependencies steps with
    | error f => exact Attempt.error_eq_report.trans Attempt.error_eq_report.symm
    | ok ordered => exact iff_of_false (ofValue_ne_report he _) fun h => (by cases h)

end

/-! ## Graphs -/

section
variable {config : Config} {raw : RawGraph} {nodeItems nodeItems' edgeItems edgeItems' : List Value}
  {nodes nodes' : List Node} {edges edges' : List Edge} {w w' : Workflow}

theorem redrawn_of_forall₂ {nodes nodes' : List Node}
    (hsame : List.Forall₂ (Step.Redrawn nodes nodes') w.steps w'.steps)
    (hw : Workflow.ofValue (rawWorkflow config raw w.steps) = .ok w)
    (hw' : Workflow.ofValue (rawWorkflow config raw w'.steps) = .ok w') :
    w.Redrawn nodes nodes' w' := by
  have h := ofValue_rawWorkflow hw (Workflow.valid_of_ofValue hw')
  rw [hw'] at h
  have heq : w' = { w with steps := w'.steps } := Except.ok.inj h
  refine ⟨by rw [heq], by rw [heq], by rw [heq], ?_, ?_, hsame⟩
  · exact Step.map_id_of_forall₂ (fun _ _ h => h.id) hsame
  · have hdeps := List.rel_map (P := Eq) (fun s s' (h : Step.Redrawn nodes nodes' s s') =>
      h.dependsOn.symm) hsame
    exact (List.forall₂_eq_eq_eq ▸ hdeps).symm

/-- Moving, renaming and configuring nodes and naming edges changes nothing about the order of the
steps and what they depend on: the graph fails with the same error of ids or dependencies, and
saved it differs only in what its nodes show. -/
theorem toWorkflow_redrawn
    (hread : read (.list nodeItems) (.list edgeItems) = .ok (nodes, edges))
    (hread' : read (.list nodeItems') (.list edgeItems') = .ok (nodes', edges'))
    (hdrawn : Redrawn nodes nodes' edges edges')
    (hfinite : ∀ n ∈ nodes, n.position.IsFinite) (hfinite' : ∀ n ∈ nodes', n.position.IsFinite) :
    (∀ e : Error, e.OfWiring → (toWorkflow config (raw.listing nodeItems edgeItems) = report e ↔
      toWorkflow config (raw.listing nodeItems' edgeItems') = report e)) ∧
    ∀ w w', toWorkflow config (raw.listing nodeItems edgeItems) = .ok w →
      toWorkflow config (raw.listing nodeItems' edgeItems') = .ok w' →
      w.Redrawn nodes nodes' w' := by
  have hid : ∀ s s', Step.Redrawn nodes nodes' s s' → s'.id = s.id := fun _ _ h => h.id
  have hdeps : ∀ s s', Step.Redrawn nodes nodes' s s' → s'.dependsOn = s.dependsOn :=
    fun _ _ h => h.dependsOn
  obtain ⟨steps, steps', hsteps, hsteps', hsame⟩ :=
    stepsOfNodes_redrawn config (sourceMap edges) hdrawn.ids hfinite hfinite'
  rw [← sourceMap_of_ends hdrawn.ends] at hsteps'
  refine ⟨fun e he => ?_, fun w w' hw hw' => ?_⟩
  · rw [toWorkflow_eq_report he hread hsteps, toWorkflow_eq_report he hread' hsteps',
      Step.assertDependencies_of_forall₂ hid hdeps hsame]
  · obtain ⟨_, _, _, hread₁, hsteps₁, -, hordered, hw⟩ := orderByDependencies_of_toWorkflow hw
    obtain ⟨_, _, _, hread₂, hsteps₂, -, hordered', hw'⟩ := orderByDependencies_of_toWorkflow hw'
    cases hread.symm.trans hread₁
    cases hread'.symm.trans hread₂
    cases hsteps.symm.trans hsteps₁
    cases hsteps'.symm.trans hsteps₂
    rw [Step.orderByDependencies, Step.dependencyMap_of_forall₂ hid hdeps hsame] at hordered'
    obtain ⟨ordered', hordered₂, hfound⟩ := Step.order_of_forall₂ hid hsame hordered
    cases hordered'.symm.trans hordered₂
    exact redrawn_of_forall₂ hfound hw hw'

end

/-- A graph of given nodes and edges. -/
def drawing (nodes : List Node) (edges : List Edge) : RawGraph :=
  deploy.listing (nodes.map Node.toValue) (edges.map Edge.toValue)

/-- Two branches that are joined. -/
def plainNodes : List Node :=
  ["join", "left", "right"].map fun id => ⟨id, "log", ⟨.zero, .zero⟩, "", []⟩

def plainEdges : List Edge := [Edge.between "left" "join", Edge.between "right" "join"]

/-- The same nodes moved, with other labels, types and settings. -/
def movedNodes : List Node := [
  ⟨"join", "delay", ⟨.int 40, .int (-8)⟩, "Join", [("seconds", .int 5)]⟩,
  ⟨"left", "log", ⟨.zero, .zero⟩, "", []⟩,
  ⟨"right", "log", ⟨.int 40, .zero⟩, "Other", []⟩]

/-- The same edges under other ids and with another type. -/
def namedEdges : List Edge := [⟨"a", "left", "join", "step"⟩, ⟨"b", "right", "join", "step"⟩]

theorem toWorkflow_redrawn_branches : ∃ w w',
    toWorkflow .standard (drawing plainNodes plainEdges) = .ok w ∧
      toWorkflow .standard (drawing movedNodes namedEdges) = .ok w' ∧
      w'.steps.map (fun s => (s.id, s.name, s.dependsOn))
        = [("left", "left", none), ("right", "Other", none),
          ("join", "Join", some ["left", "right"])] ∧
      w.Redrawn plainNodes movedNodes w' := by
  have hdrawn : Redrawn plainNodes movedNodes plainEdges namedEdges := ⟨rfl, rfl⟩
  have hfinite : ∀ n ∈ plainNodes, n.position.IsFinite := by decide +kernel
  have hfinite' : ∀ n ∈ movedNodes, n.position.IsFinite := by decide +kernel
  have hsaved : (toWorkflow .standard (drawing plainNodes plainEdges)).toOption.isSome = true := by
    decide +kernel
  have hsteps : ((toWorkflow .standard (drawing movedNodes namedEdges)).toOption.map
      fun w => w.steps.map fun s => (s.id, s.name, s.dependsOn))
      = some [("left", "left", none), ("right", "Other", none),
        ("join", "Join", some ["left", "right"])] := by
    decide +kernel
  have h := @toWorkflow_redrawn .standard deploy _ _ _ _ _ _ _ _
    (read_toValue plainNodes plainEdges) (read_toValue movedNodes namedEdges) hdrawn
    hfinite hfinite'
  cases hw : toWorkflow .standard (drawing plainNodes plainEdges) with
  | error e => rw [hw] at hsaved; cases hsaved
  | ok w =>
    cases hw' : toWorkflow .standard (drawing movedNodes namedEdges) with
    | error e => rw [hw'] at hsteps; cases hsteps
    | ok w' =>
      rw [hw'] at hsteps
      exact ⟨w, w', rfl, rfl, Option.some.inj hsteps, h.2 w w' hw hw'⟩

end Graph

end StepGraph
