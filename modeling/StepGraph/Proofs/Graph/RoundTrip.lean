import StepGraph.Document.RoundTrip
import StepGraph.Proofs.Graph.Position
import StepGraph.Proofs.Graph.Read
import StepGraph.Proofs.Graph.ToWorkflow

/-!
# A workflow that goes through a graph

The edges of a graph keep the distinct dependencies of each step (`distinctSources_toGraph`), its
nodes keep the rest (`nodes_toGraph`, `stepsOfNodes_toGraph`), and no check stands in the way of a
workflow that was read and whose dependencies are sound.

* `toWorkflow_toGraph`: what comes back is the workflow with its steps in dependency order, each
  with its distinct dependencies and a stored position (`Step.restored`).
-/

set_option autoImplicit false

namespace StepGraph

open StepGraph.Order

/-! ## Wiring -/

theorem sourcesOf_edges (s : Step) (hs : ∀ d ∈ s.dependsOn.getD [], d ≠ "") (target : String) :
    Graph.sourcesOf s.edges target =
      if s.id = target then distinct (s.dependsOn.getD []) else [] := by
  have hsource : ∀ d ∈ distinct (s.dependsOn.getD []), d ≠ "" := fun d hd =>
    hs d (mem_distinct.1 hd)
  rw [Step.edges]
  generalize distinct (s.dependsOn.getD []) = ids at *
  induction ids with
  | nil => simp [Graph.sourcesOf]
  | cons d ids ih =>
    rw [List.map_cons, ← List.singleton_append, Graph.sourcesOf_append, Graph.sourcesOf_singleton,
      ih fun d hd => hsource d (List.mem_cons_of_mem _ hd)]
    by_cases h : s.id = target
    · simp [Edge.between, h, hsource d List.mem_cons_self]
    · simp [Edge.between, h]

theorem sourcesOf_flatMap_of_notMem {steps : List Step} {target : String}
    (hs : ∀ s ∈ steps, ∀ d ∈ s.dependsOn.getD [], d ≠ "") (h : target ∉ steps.map Step.id) :
    Graph.sourcesOf (steps.flatMap Step.edges) target = [] := by
  induction steps with
  | nil => rfl
  | cons s steps ih =>
    rw [List.map_cons, List.mem_cons, not_or] at h
    rw [List.flatMap_cons, Graph.sourcesOf_append,
      sourcesOf_edges s (hs s List.mem_cons_self), if_neg (Ne.symm h.1),
      ih (fun t ht => hs t (List.mem_cons_of_mem s ht)) h.2]
    rfl

/-- The edges to a step start at what it depends on. -/
theorem sourcesOf_flatMap_of_mem {steps : List Step} {s : Step}
    (hd : ∀ s ∈ steps, ∀ d ∈ s.dependsOn.getD [], d ≠ "") (hnd : (steps.map Step.id).Nodup)
    (hs : s ∈ steps) :
    Graph.sourcesOf (steps.flatMap Step.edges) s.id = distinct (s.dependsOn.getD []) := by
  induction steps with
  | nil => cases hs
  | cons t steps ih =>
    rw [List.map_cons, List.nodup_cons] at hnd
    have hd' : ∀ s ∈ steps, ∀ d ∈ s.dependsOn.getD [], d ≠ "" := fun s hs =>
      hd s (List.mem_cons_of_mem t hs)
    rw [List.flatMap_cons, Graph.sourcesOf_append, sourcesOf_edges t (hd t List.mem_cons_self)]
    rcases List.mem_cons.1 hs with rfl | hs
    · rw [if_pos rfl, sourcesOf_flatMap_of_notMem hd' hnd.1, List.append_nil]
    · have hne : t.id ≠ s.id := fun h => hnd.1 (h ▸ List.mem_map_of_mem hs)
      rw [if_neg hne, ih hd' hnd.2 hs]
      rfl

/-! ## The steps that come back -/

/-- The step with its distinct dependencies, if there are any, and a position. -/
def Step.restored (p : Position) (s : Step) : Step :=
  { s with
    dependsOn := (s.dependsOn.map distinct).filter (!·.isEmpty)
    position := some p }

theorem filter_map_distinct (x : Option (List String)) :
    (x.map distinct).filter (!·.isEmpty) =
      if distinct (x.getD []) = [] then none else some (distinct (x.getD [])) := by
  cases x with
  | none => rfl
  | some ids => cases h : distinct ids <;> simp [Option.filter, h]

theorem Step.getD_restored (p : Position) (s : Step) :
    (s.restored p).dependsOn.getD [] = distinct (s.dependsOn.getD []) := by
  rw [restored, filter_map_distinct]
  split
  · rename_i h
    rw [h]; rfl
  · rfl

theorem Step.Valid.restored {s : Step} {p : Position} (hs : s.Valid) (hp : p.IsFinite) :
    (s.restored p).Valid := by
  refine ⟨hs.id, hs.name, hs.type, fun ids hids d hd => ?_, fun q hq => ?_⟩
  · obtain ⟨h, -⟩ := Option.filter_eq_some_iff.1 hids
    obtain ⟨old, hold, rfl⟩ := Option.map_eq_some_iff.1 h
    exact hs.dependsOn old hold d (mem_distinct.1 hd)
  · cases hq
    exact hp

theorem Step.orderByDependencies_restored {steps ordered : List Step} (position : Step → Position)
    (hnd : (steps.map Step.id).Nodup) (h : orderByDependencies steps = .ok ordered) :
    orderByDependencies (steps.map fun s => s.restored (position s))
      = .ok (ordered.map fun s => s.restored (position s)) := by
  have hid : (steps.map fun s => s.restored (position s)).map Step.id = steps.map Step.id := by
    rw [List.map_map]; rfl
  have hdeps : dependenciesIn (dependencyMap (steps.map fun s => s.restored (position s)))
      = fun id => distinct (dependenciesIn (dependencyMap steps) id) := by
    funext id
    by_cases hmem : id ∈ steps.map Step.id
    · obtain ⟨s, hs, rfl⟩ := List.mem_map.1 hmem
      have hs' := List.mem_map_of_mem (f := fun s => s.restored (position s)) hs
      rw [dependenciesIn_of_mem hnd hs, ← Step.getD_restored (position s)]
      exact dependenciesIn_of_mem (hid ▸ hnd) hs'
    · rw [dependenciesIn_of_notMem hmem, dependenciesIn_of_notMem (hid ▸ hmem)]
      rfl
  rw [orderByDependencies, hdeps, order_distinct]
  exact order_map (fun _ => rfl) h

theorem Graph.distinctSources_toGraph {w : Workflow} {layout : Layout.Kind} {s : Step}
    (hw : w.Valid) (hnd : w.stepIds.Nodup) (hs : s ∈ w.steps) :
    distinctSources (w.toGraph layout).edges s.id
      = (s.dependsOn.map distinct).filter (!·.isEmpty) := by
  have hd : ∀ s ∈ w.steps, ∀ d ∈ s.dependsOn.getD [], d ≠ "" := fun s hs _ hd =>
    (hw s hs).ne_of_mem hd
  rw [distinctSources, Workflow.toGraph, sourcesOf_flatMap_of_mem hd hnd hs,
    distinct_of_nodup (nodup_distinct _), filter_map_distinct]

/-! ## There and back -/

namespace Graph

section
variable {config : Config} {w : Workflow}

/-- Where the node of a step is: at its own position, or on the line at the index of the step. -/
def nodePosition (w : Workflow) (s : Step) : Position :=
  s.position.getD (Layout.vertical (w.stepIds.idxOf s.id))

theorem isFinite_nodePosition {s : Step} (hw : w.Valid) (hsize : w.steps.length < 2 ^ 63)
    (hs : s ∈ w.steps) : (nodePosition w s).IsFinite := by
  rw [nodePosition]
  cases hp : s.position with
  | some p => exact (hw s hs).position p hp
  | none =>
    have hlt : w.stepIds.idxOf s.id < w.stepIds.length :=
      List.idxOf_lt_length_of_mem (List.mem_map_of_mem hs)
    rw [Workflow.stepIds, List.length_map] at hlt
    exact Layout.isFinite_vertical (hlt.trans hsize)

theorem nodes_toGraph (hnd : w.stepIds.Nodup) : (w.toGraph .vertical).nodes
    = w.steps.map fun s => ⟨s.id, s.type, nodePosition w s, s.name, s.config⟩ := by
  refine List.ext_getElem (by simp [Workflow.toGraph]) fun i hi _ => ?_
  have hi : i < w.stepIds.length := by simpa [Workflow.toGraph, Workflow.stepIds] using hi
  have hidx := hnd.idxOf_getElem i hi
  simp only [Workflow.stepIds, List.getElem_map] at hidx
  simp only [Workflow.toGraph, List.getElem_map, List.getElem_zipIdx, Nat.zero_add, Step.toNode,
    nodePosition, Layout.place, Workflow.stepIds, hidx]

theorem stepsOfNodes_toGraph {position : Step → Position} (hw : w.Valid) (hnd : w.stepIds.Nodup)
    (hpos : ∀ s ∈ w.steps,
      storedPosition config.roundPositions (nodePosition w s) = .ok (position s)) :
    stepsOfNodes config (sourceMap (w.toGraph .vertical).edges) (w.toGraph .vertical).nodes
      = .ok (w.steps.map fun s => s.restored (position s)) := by
  rw [nodes_toGraph hnd, stepsOfNodes_eq_ok, List.forall₂_map_left_iff,
    List.forall₂_map_right_iff, List.forall₂_same]
  intro s hs
  obtain ⟨hid, -⟩ := Schema.isStepId_iff.1 (hw s hs).id
  rw [stepOfNode_eq_ok]
  refine ⟨position s, hpos s hs, ?_⟩
  rw [filter_lookup_sourceMap hid, distinctSources_toGraph hw hnd hs, if_neg (hw s hs).name]
  rfl

theorem rawWorkflow_toRaw (config : Config) (g : Graph) (metadata : Option Metadata)
    (version : String) (steps : List Step) :
    rawWorkflow config (g.toRaw metadata version) steps = Workflow.toValue
      ⟨if version = "" then config.defaultVersion else version, g.trigger, steps, metadata⟩ := by
  have hversion : (if Value.isGiven (.str version) then Value.str version
      else .str config.defaultVersion)
        = .str (if version = "" then config.defaultVersion else version) := by
    by_cases h : version = "" <;> simp [Value.isGiven, h]
  rw [rawWorkflow, toRaw, hversion, Workflow.toValue]
  cases metadata <;> rfl

/-- A valid workflow whose steps have an order goes through a graph, the steps being stored at
`position`. -/
theorem toWorkflow_toRaw {ordered : List Step} {position : Step → Position} (hw : w.Valid)
    (hnd : w.stepIds.Nodup) (hordered : Step.orderByDependencies w.steps = .ok ordered)
    (hpos : ∀ s ∈ w.steps,
      storedPosition config.roundPositions (nodePosition w s) = .ok (position s))
    (hfin : ∀ s ∈ w.steps, (position s).IsFinite) :
    toWorkflow config ((w.toGraph .vertical).toRaw w.metadata w.version) = .ok { w with
      version := if w.version = "" then config.defaultVersion else w.version
      steps := ordered.map fun s => s.restored (position s) } := by
  refine toWorkflow_eq_ok.2 ⟨_, _, _, _, read_toValue _ _, stepsOfNodes_toGraph hw hnd hpos, ?_,
    Step.orderByDependencies_restored position hnd hordered, ?_⟩
  · rw [List.map_map]
    exact hnd
  · rw [rawWorkflow_toRaw]
    refine Workflow.ofValue_toValue fun s hs => ?_
    obtain ⟨t, ht, rfl⟩ := List.mem_map.1 hs
    have ht := Step.mem_of_order hordered ht
    exact (hw t ht).restored (hfin t ht)

/-- Each step has a position at which its node is stored. No list has `2 ^ 63` items, so none of them
is placed beyond the doubles. -/
theorem exists_storedPosition (config : Config) (hw : w.Valid) (hsize : w.steps.length < 2 ^ 63) :
    ∃ position : Step → Position,
      (∀ s ∈ w.steps,
        storedPosition config.roundPositions (nodePosition w s) = .ok (position s)) ∧
      ∀ s ∈ w.steps, (position s).IsFinite := by
  have : Nonempty Position := ⟨⟨.zero, .zero⟩⟩
  choose! position hpos hfin using fun s (hs : s ∈ w.steps) =>
    storedPosition_ok config.roundPositions (isFinite_nodePosition hw hsize hs)
  exact ⟨position, hpos, hfin⟩

/-- A workflow goes through a graph unchanged but for the order of the steps, repeated dependencies,
the positions and a missing version. -/
theorem toWorkflow_toGraph {raw : Value} (hraw : Workflow.ofValue raw = .ok w)
    (hdeps : Step.assertDependencies w.steps = .ok ()) (hsize : w.steps.length < 2 ^ 63) :
    ∃ ordered, Step.orderByDependencies w.steps = .ok ordered ∧ ∃ position : Step → Position,
      (∀ s ∈ w.steps,
        storedPosition config.roundPositions (nodePosition w s) = .ok (position s)) ∧
      toWorkflow config ((w.toGraph .vertical).toRaw w.metadata w.version) = .ok { w with
        version := if w.version = "" then config.defaultVersion else w.version
        steps := ordered.map fun s => s.restored (position s) } := by
  have hw := Workflow.valid_of_ofValue hraw
  obtain ⟨hnd, ordered, hordered⟩ := Step.assertDependencies_eq_ok.1 hdeps
  obtain ⟨position, hpos, hfin⟩ := exists_storedPosition config hw hsize
  exact ⟨ordered, hordered, position, hpos, toWorkflow_toRaw hw hnd hordered hpos hfin⟩

end

/-- A workflow as its author wrote it: no version, the steps in the wrong order, a dependency that
is listed twice and one empty list of them. -/
def authored : Workflow where
  version := ""
  trigger := ⟨.schedule, [("every", .str "day")]⟩
  steps := [
    ⟨"deploy", "Deploy", "shell", [], some ["build", "build"], none⟩,
    ⟨"build", "Build", "shell", [], some [], some ⟨.int 7, .float (.ofRatio false 5 2)⟩⟩]
  metadata := some ⟨none, some ["nightly"]⟩

theorem toWorkflow_toGraph_authored :
    Workflow.ofValue authored.toValue = .ok authored ∧
      Step.assertDependencies authored.steps = .ok () ∧ authored.steps.length < 2 ^ 63 ∧
      ∃ ordered, Step.orderByDependencies authored.steps = .ok ordered ∧
        ∃ position : Step → Position,
          (∀ s ∈ authored.steps,
            storedPosition Config.standard.roundPositions (nodePosition authored s)
              = .ok (position s)) ∧
          toWorkflow Config.standard
              ((authored.toGraph .vertical).toRaw authored.metadata authored.version)
            = .ok { authored with
              version := "1.0"
              steps := ordered.map fun s => s.restored (position s) } :=
  have hraw : Workflow.ofValue authored.toValue = .ok authored := by rfl
  have hdeps : Step.assertDependencies authored.steps = .ok () := by rfl
  ⟨hraw, hdeps, by decide, toWorkflow_toGraph hraw hdeps (by decide)⟩

end Graph

end StepGraph
