import StepGraph.Document.RoundTrip
import StepGraph.Proofs.Workflow.Order
import StepGraph.Proofs.Workflow.Dependency
import StepGraph.Proofs.Workflow.Stored

/-!
# What an editor shows of a document

A document that opens has a workflow whose steps depend on each other soundly
(`Document.readChecked_eq_ok`), and `Graph.Shows` says what its graph then is. Edges get their ids
by gluing the ids of two steps; the glue holds a character that no step id has, so two edges with
one id join the same steps (`edgeId_inj`).

* `toGraph_shows`: the graph of an opened document shows its workflow.
-/

set_option autoImplicit false

namespace StepGraph

open StepGraph.Order

/-- One node for each step, one edge for each pair of a dependency and the step that needs it, and
no way along the edges back to where one started. -/
structure Graph.Shows (g : Graph) (w : Workflow) : Prop where
  nodes : List.Forall₂ (fun (s : Step) (n : Node) =>
    n.id = s.id ∧ n.type = s.type ∧ n.label = s.name ∧ n.config = s.config) w.steps g.nodes
  nodup_nodes : (g.nodes.map Node.id).Nodup
  edges : ∀ d t, (d, t) ∈ g.edges.map (fun e => (e.source, e.target)) ↔
    ∃ s ∈ w.steps, s.id = t ∧ d ∈ s.dependsOn.getD []
  nodup_edges : (g.edges.map fun e => (e.source, e.target)).Nodup
  ends : ∀ e ∈ g.edges, e.source ∈ g.nodes.map Node.id ∧ e.target ∈ g.nodes.map Node.id
  nodup_edgeIds : (g.edges.map Edge.id).Nodup
  acyclic : ∀ id, ¬ Relation.TransGen
    (fun a b => ∃ e ∈ g.edges, e.source = a ∧ e.target = b) id id

/-! ## Ids of edges -/

theorem notMem_of_isStepId {id : String} (h : Schema.isStepId id = true) : '>' ∉ id.toList := by
  intro hc
  obtain ⟨-, hall⟩ := Schema.isStepId_iff.1 h
  rcases hall '>' hc with h | h | h <;> exact absurd h (by decide)

/-- What stands before the first sign of a glued id is the source and a hyphen. -/
theorem takeWhile_edgeId {source : String} (h : '>' ∉ source.toList) (target : String) :
    (edgeId source target).toList.takeWhile (· != '>') = source.toList ++ ['-'] := by
  have hall : ∀ c ∈ source.toList ++ ['-'], (c != '>') = true := by
    intro c hc
    rcases List.mem_append.1 hc with hc | hc
    · have hne : c ≠ '>' := fun he => h (he ▸ hc)
      simpa using hne
    · obtain rfl := List.mem_singleton.1 hc
      decide
  have hsplit : (edgeId source target).toList = (source.toList ++ ['-']) ++ '>' :: target.toList := by
    simp [edgeId]
  rw [hsplit, List.takeWhile_append_of_pos hall, List.takeWhile_cons_of_neg (by decide),
    List.append_nil]

theorem edgeId_inj {a b c d : String} (ha : '>' ∉ a.toList) (hc : '>' ∉ c.toList)
    (h : edgeId a b = edgeId c d) : a = c ∧ b = d := by
  have hsource : a.toList = c.toList := by
    have ht := takeWhile_edgeId ha b
    rw [h, takeWhile_edgeId hc d] at ht
    exact (List.append_cancel_right ht).symm
  obtain rfl := String.toList_inj.1 hsource
  refine ⟨rfl, String.toList_inj.1 ?_⟩
  have ht := congrArg String.toList h
  simpa [edgeId] using ht

/-! ## Sound dependencies -/

section
variable {steps : List Step} (h : Step.assertDependencies steps = .ok ())
include h

/-- Where sound dependencies put the steps: each dependency is the id of a step, at a smaller
place. -/
theorem Step.exists_rank : ∃ rank : String → Nat, ∀ s ∈ steps, ∀ d ∈ s.dependsOn.getD [],
    d ∈ steps.map Step.id ∧ rank d < rank s.id := by
  obtain ⟨hnd, ordered, hordered⟩ := assertDependencies_eq_ok.1 h
  obtain ⟨hids, hmem, hfirst⟩ := map_id_of_order hordered
  refine ⟨(ordered.map Step.id).idxOf, fun s hs d hd => ?_⟩
  rw [← dependenciesIn_of_mem hnd hs] at hd
  have hs' : s.id ∈ ordered.map Step.id := (hmem s.id).2 (List.mem_map_of_mem hs)
  have hlt := hfirst.idxOf_lt hids hs' hd
  refine ⟨(hmem d).1 (List.idxOf_lt_length_iff.1 ?_), hlt⟩
  exact hlt.trans (List.idxOf_lt_length_of_mem hs')

end

/-! ## The graph of a workflow -/

section
variable {steps : List Step}

theorem Step.mem_edges {s : Step} {e : Edge} :
    e ∈ s.edges ↔ ∃ d ∈ s.dependsOn.getD [], e = .between d s.id := by
  simp only [edges, List.mem_map, mem_distinct, eq_comm]

theorem mem_flatMap_edges {e : Edge} : e ∈ steps.flatMap Step.edges ↔
    ∃ s ∈ steps, ∃ d ∈ s.dependsOn.getD [], e = .between d s.id := by
  simp only [List.mem_flatMap, Step.mem_edges]

/-- The edges of steps with distinct ids join distinct pairs: those of one step have distinct
sources, and those of two steps distinct targets. -/
theorem nodup_ends (hnd : (steps.map Step.id).Nodup) :
    ((steps.flatMap Step.edges).map fun e => (e.source, e.target)).Nodup := by
  induction steps with
  | nil => exact List.nodup_nil
  | cons s steps ih =>
    rw [List.map_cons, List.nodup_cons] at hnd
    rw [List.flatMap_cons, List.map_append, List.nodup_append]
    refine ⟨?_, ih hnd.2, ?_⟩
    · rw [Step.edges, List.map_map]
      exact (nodup_distinct _).map fun a b hab => congrArg Prod.fst hab
    · intro p hp q hq hpq
      obtain ⟨e, he, rfl⟩ := List.mem_map.1 hp
      obtain ⟨d, -, rfl⟩ := Step.mem_edges.1 he
      obtain ⟨f, hf, rfl⟩ := List.mem_map.1 hq
      obtain ⟨t, ht, d', -, rfl⟩ := mem_flatMap_edges.1 hf
      have hid : s.id = t.id := congrArg Prod.snd hpq
      exact hnd.1 (hid ▸ List.mem_map_of_mem ht)

theorem map_id_toGraph (w : Workflow) (layout : Layout.Kind) :
    (w.toGraph layout).nodes.map Node.id = w.stepIds := by
  have h : ∀ (steps : List Step) (k total : Nat),
      (((steps.zipIdx k).map fun s => s.1.toNode layout s.2 total).map Node.id)
        = steps.map Step.id := by
    intro steps k total
    induction steps generalizing k with
    | nil => rfl
    | cons s steps ih => rw [List.zipIdx_cons, List.map_cons, List.map_cons, ih, List.map_cons]; rfl
  exact h w.steps 0 _

theorem forall₂_toGraph (w : Workflow) (layout : Layout.Kind) :
    List.Forall₂ (fun (s : Step) (n : Node) =>
      n.id = s.id ∧ n.type = s.type ∧ n.label = s.name ∧ n.config = s.config)
      w.steps (w.toGraph layout).nodes := by
  have h : ∀ (steps : List Step) (k total : Nat), List.Forall₂ (fun (s : Step) (n : Node) =>
      n.id = s.id ∧ n.type = s.type ∧ n.label = s.name ∧ n.config = s.config)
      steps ((steps.zipIdx k).map fun s => s.1.toNode layout s.2 total) := by
    intro steps k total
    induction steps generalizing k with
    | nil => exact .nil
    | cons s steps ih => exact .cons ⟨rfl, rfl, rfl, rfl⟩ (ih (k + 1))
  exact h w.steps 0 _

end

/-- The graph of a valid workflow with sound dependencies shows it. -/
theorem Workflow.shows_toGraph {w : Workflow} (layout : Layout.Kind) (hw : w.Valid)
    (h : Step.assertDependencies w.steps = .ok ()) : (w.toGraph layout).Shows w := by
  have hnd : w.stepIds.Nodup := (Step.assertDependencies_eq_ok.1 h).1
  obtain ⟨rank, hrank⟩ := Step.exists_rank h
  have hmem : ∀ e ∈ (w.toGraph layout).edges, ∃ s ∈ w.steps, ∃ d ∈ s.dependsOn.getD [],
      e = .between d s.id := fun e he => mem_flatMap_edges.1 he
  have hids : ∀ id ∈ w.stepIds, '>' ∉ id.toList := by
    intro id hid
    obtain ⟨s, hs, rfl⟩ := List.mem_map.1 hid
    exact notMem_of_isStepId (hw s hs).id
  have hpairs := nodup_ends hnd
  refine ⟨forall₂_toGraph w layout, by rwa [map_id_toGraph], fun d t => ?_, hpairs,
    fun e he => ?_, ?_, fun id hcycle => ?_⟩
  · rw [List.mem_map]
    constructor
    · rintro ⟨e, he, hp⟩
      obtain ⟨s, hs, d', hd, rfl⟩ := hmem e he
      cases hp
      exact ⟨s, hs, rfl, hd⟩
    · rintro ⟨s, hs, rfl, hd⟩
      exact ⟨.between d s.id, mem_flatMap_edges.2 ⟨s, hs, d, hd, rfl⟩, rfl⟩
  · obtain ⟨s, hs, d, hd, rfl⟩ := hmem e he
    rw [map_id_toGraph]
    exact ⟨(hrank s hs d hd).1, List.mem_map_of_mem hs⟩
  · -- one id, one pair of ends: the source of an edge is the id of a step
    refine (List.nodup_map_iff_inj_on hpairs.of_map).2 fun e he f hf hef => ?_
    obtain ⟨s, hs, d, hd, rfl⟩ := hmem e he
    obtain ⟨t, ht, d', hd', rfl⟩ := hmem f hf
    obtain ⟨rfl, hid⟩ :=
      edgeId_inj (hids d (hrank s hs d hd).1) (hids d' (hrank t ht d' hd').1) hef
    rw [hid]
  · have hup : ∀ {a b}, Relation.TransGen
        (fun a b => ∃ e ∈ (w.toGraph layout).edges, e.source = a ∧ e.target = b) a b →
        rank a < rank b := by
      intro a b hab
      induction hab with
      | single he =>
        obtain ⟨e, he, rfl, rfl⟩ := he
        obtain ⟨s, hs, d, hd, rfl⟩ := hmem e he
        exact (hrank s hs d hd).2
      | tail _ he ih =>
        obtain ⟨e, he, rfl, rfl⟩ := he
        obtain ⟨s, hs, d, hd, rfl⟩ := hmem e he
        exact ih.trans (hrank s hs d hd).2
    exact Nat.lt_irrefl _ (hup hcycle)

/-! ## Documents -/

namespace Document

variable {text : List Char} {source : Legacy.Source}

theorem readChecked_eq_ok {reading : Reading} : readChecked text source = .ok reading ↔
    read text source = .ok reading ∧
      Step.assertDependencies reading.workflow.steps = .ok () := by
  simp only [readChecked, Attempt.bind_eq_ok]
  constructor
  · rintro ⟨r, hr, ⟨⟩, hdeps, h⟩
    cases h
    exact ⟨hr, hdeps⟩
  · rintro ⟨hr, hdeps⟩
    exact ⟨reading, hr, (), hdeps, rfl⟩

theorem valid_of_read {reading : Reading} (h : read text source = .ok reading) :
    reading.workflow.Valid := by
  simp only [read, Attempt.bind_eq_ok] at h
  obtain ⟨raw, -, ⟨adapted, legacy⟩, -, w, hw, h⟩ := h
  cases h
  exact Workflow.valid_of_ofValue hw

theorem toGraph_eq_ok {opened : Opened} : toGraph text source = .ok opened ↔
    ∃ reading, readChecked text source = .ok reading ∧
      opened = ⟨reading.workflow.toGraph .vertical, reading.workflow, reading.wasLegacy⟩ := by
  simp only [toGraph, Attempt.bind_eq_ok]
  exact exists_congr fun r => and_congr_right fun _ =>
    ⟨fun h => (by cases h; rfl), fun h => (by rw [h]; rfl)⟩

theorem shows_of_readChecked {reading : Reading} (layout : Layout.Kind)
    (h : readChecked text source = .ok reading) :
    (reading.workflow.toGraph layout).Shows reading.workflow := by
  obtain ⟨hread, hdeps⟩ := readChecked_eq_ok.1 h
  exact Workflow.shows_toGraph layout (valid_of_read hread) hdeps

/-- The graph of an opened document shows the workflow in it. -/
theorem toGraph_shows {opened : Opened} (h : toGraph text source = .ok opened) :
    opened.graph.Shows opened.workflow := by
  obtain ⟨reading, hread, rfl⟩ := toGraph_eq_ok.1 h
  exact shows_of_readChecked .vertical hread

/-- Two steps in a text; the second depends on the first and says so twice. -/
def nightly : String :=
  "version: n\ntrigger: \x7btype: form, config: \x7b\x7d\x7d\nsteps:\n"
    ++ "- \x7bid: a-, name: A, type: t, config: \x7b\x7d\x7d\n"
    ++ "- \x7bid: b, name: B, type: t, config: \x7b\x7d, depends_on: [a-, a-]\x7d"

theorem toGraph_shows_nightly :
    ∃ opened, toGraph nightly.toList .none = .ok opened ∧
      opened.graph.edges = [.between "a-" "b"] ∧ opened.graph.Shows opened.workflow := by
  have h : ((toGraph nightly.toList .none).toOption.map fun o => o.graph.edges)
      = some [.between "a-" "b"] := by decide +kernel
  cases ht : toGraph nightly.toList .none with
  | error e => rw [ht] at h; cases h
  | ok opened =>
    rw [ht] at h
    exact ⟨opened, rfl, Option.some.inj h, toGraph_shows ht⟩

end Document

end StepGraph
