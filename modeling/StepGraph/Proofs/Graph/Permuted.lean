import Mathlib.Data.List.Perm.Basic
import StepGraph.Proofs.Graph.Read
import StepGraph.Proofs.Graph.ToWorkflow

/-!
# A graph listed in another order

An editor may list the nodes and the edges of a graph in any order. Reading looks at one item after
the other and its success does not depend on their places (`pathFree_node`, `read_of_perm`), a step
gets the same dependencies in another order (`sameUpToOrder_toStep`), whether steps have an order is
a matter of who depends on whom (`Order.exists_sort_of_mem_iff`), and the format does not care for
the order of steps (`ofValue_rawWorkflow`).

* `toWorkflow_perm`: a graph is saved however it is listed or not at all, and what is saved is the
  same up to the order of the steps and of the dependencies of each.
-/

set_option autoImplicit false

namespace StepGraph

open StepGraph.Order

/-- The same step, its dependencies possibly in another order. -/
structure Step.SameUpToOrder (s t : Step) : Prop where
  id : t.id = s.id
  name : t.name = s.name
  type : t.type = s.type
  config : t.config = s.config
  position : t.position = s.position
  dependsOn : Option.Rel List.Perm s.dependsOn t.dependsOn

/-- The same steps, in another order and each with its dependencies in another order. -/
def Step.SameSteps (steps steps' : List Step) : Prop :=
  ∃ listed, List.Forall₂ Step.SameUpToOrder steps listed ∧ listed.Perm steps'

/-- The same workflow up to the order of its steps and of the dependencies of each. -/
structure Workflow.SameUpToOrder (v w : Workflow) : Prop where
  version : w.version = v.version
  trigger : w.trigger = v.trigger
  metadata : w.metadata = v.metadata
  stepIds : v.stepIds.Perm w.stepIds
  step : ∀ s ∈ v.steps, ∀ t ∈ w.steps, t.id = s.id → s.SameUpToOrder t

/-- The graph with its nodes and edges in given lists. -/
def RawGraph.listing (raw : RawGraph) (nodes edges : List Value) : RawGraph :=
  { raw with nodes := .list nodes, edges := .list edges }

/-! ## The same steps -/

namespace Step

section
variable {s t : Step} (h : s.SameUpToOrder t)
include h

theorem SameUpToOrder.perm : (s.dependsOn.getD []).Perm (t.dependsOn.getD []) := by
  have hrel := h.dependsOn
  generalize s.dependsOn = ids, t.dependsOn = ids' at *
  cases hrel with
  | none => exact .refl []
  | some hperm => exact hperm

theorem SameUpToOrder.valid (hs : s.Valid) : t.Valid := by
  refine ⟨h.id ▸ hs.id, h.name ▸ hs.name, h.type ▸ hs.type, fun ids hids d hd => ?_,
    fun p hp => hs.position p (h.position ▸ hp)⟩
  refine hs.ne_of_mem (h.perm.mem_iff.2 ?_)
  rwa [hids]

end

namespace SameSteps

variable {steps steps' ordered : List Step} (h : SameSteps steps steps')
include h

theorem of_perm (hperm : ordered.Perm steps) : SameSteps ordered steps' := by
  obtain ⟨listed, hsame, hlisted⟩ := h
  obtain ⟨listed', hsame', hlisted'⟩ := List.perm_comp_forall₂ hperm hsame
  exact ⟨listed', hsame', hlisted'.trans hlisted⟩

theorem trans_perm (hperm : steps'.Perm ordered) : SameSteps steps ordered := by
  obtain ⟨listed, hsame, hlisted⟩ := h
  exact ⟨listed, hsame, hlisted.trans hperm⟩

theorem exists_mem {t : Step} (ht : t ∈ steps') : ∃ s ∈ steps, s.SameUpToOrder t := by
  obtain ⟨listed, hsame, hlisted⟩ := h
  exact exists_mem_of_forall₂ hsame (hlisted.mem_iff.2 ht)

theorem perm_id : (steps.map Step.id).Perm (steps'.map Step.id) := by
  obtain ⟨listed, hsame, hlisted⟩ := h
  rw [← map_id_of_forall₂ (fun _ _ hst => hst.id) hsame]
  exact hlisted.map Step.id

theorem of_id (hnd : (steps.map Step.id).Nodup) {s t : Step} (hs : s ∈ steps) (ht : t ∈ steps')
    (hid : t.id = s.id) : s.SameUpToOrder t := by
  obtain ⟨s', hs', hst⟩ := h.exists_mem ht
  rwa [List.inj_on_of_nodup_map hnd hs hs' (hid.symm.trans hst.id)]

/-- If steps have an order, so do they in another one. -/
theorem exists_ordered (hnd : (steps.map Step.id).Nodup)
    (hordered : orderByDependencies steps = .ok ordered) :
    ∃ ordered', orderByDependencies steps' = .ok ordered' := by
  obtain ⟨ids, hids, -⟩ := order_eq_ok hordered
  have hsort : ∃ ids', Order.sort (steps'.map Step.id) (dependenciesIn (dependencyMap steps'))
      = .ok ids' := by
    refine exists_sort_of_mem_iff (fun id => h.perm_id.mem_iff) (fun id hid d => ?_) ⟨ids, hids⟩
    obtain ⟨t, ht, rfl⟩ := List.mem_map.1 (h.perm_id.mem_iff.1 hid)
    obtain ⟨s, hs, hst⟩ := h.exists_mem ht
    have hdeps := dependenciesIn_of_mem hnd hs
    rw [dependenciesIn_of_mem (h.perm_id.nodup_iff.1 hnd) ht, hst.id, hdeps]
    exact hst.perm.mem_iff
  obtain ⟨ids', hids'⟩ := hsort
  refine ⟨firsts steps' ids', ?_⟩
  rw [orderByDependencies, order, hids']
  rfl

end SameSteps

end Step

namespace Graph

/-! ## Reading -/

theorem all_of_perm {α : Type} {check : Path → Value → Checked α} (h : PathFree check) {path : Path}
    {items items' : List Value} {xs : List α} (hperm : items.Perm items')
    (hall : Checked.all check path items = .ok xs) :
    ∃ xs', Checked.all check path items' = .ok xs' ∧ xs.Perm xs' := by
  obtain ⟨xs', hall', hxs⟩ := List.perm_comp_forall₂ hperm.symm ((all_eq_ok h).1 hall)
  exact ⟨xs', (all_eq_ok h).2 hall', hxs.symm⟩

/-- A graph listed in another order is read as one listed in another order. -/
theorem read_of_perm {nodeItems nodeItems' edgeItems edgeItems' : List Value} {nodes : List Node}
    {edges : List Edge} (hn : nodeItems.Perm nodeItems') (he : edgeItems.Perm edgeItems')
    (h : read (.list nodeItems) (.list edgeItems) = .ok (nodes, edges)) :
    ∃ nodes' edges', read (.list nodeItems') (.list edgeItems') = .ok (nodes', edges') ∧
      nodes.Perm nodes' ∧ edges.Perm edges' := by
  obtain ⟨hnodes, hedges⟩ := read_list_eq_ok.1 h
  obtain ⟨nodes', hnodes', hnp⟩ := all_of_perm pathFree_node hn hnodes
  obtain ⟨edges', hedges', hep⟩ := all_of_perm pathFree_edge he hedges
  exact ⟨nodes', edges', read_list_eq_ok.2 ⟨hnodes', hedges'⟩, hnp, hep⟩

/-! ## Steps -/

theorem sourcesOf_of_perm {edges edges' : List Edge} (h : edges.Perm edges') (target : String) :
    (sourcesOf edges target).Perm (sourcesOf edges' target) :=
  (h.filter _).map _

theorem distinctSources_of_perm {edges edges' : List Edge} (h : edges.Perm edges')
    (target : String) :
    Option.Rel List.Perm (distinctSources edges target) (distinctSources edges' target) := by
  have hsources := sourcesOf_of_perm h target
  rw [distinctSources, distinctSources]
  by_cases hnil : sourcesOf edges target = []
  · rw [hnil, List.nil_perm] at hsources
    rw [if_pos hnil, if_pos hsources]
    exact .none
  · have hnil' : sourcesOf edges' target ≠ [] := by
      intro hnil'
      rw [hnil', List.perm_nil] at hsources
      exact hnil hsources
    rw [if_neg hnil, if_neg hnil']
    exact .some (perm_distinct hsources)

theorem sameUpToOrder_toStep {edges edges' : List Edge} (h : edges.Perm edges') (p : Position)
    (n : Node) : (n.toStep edges p).SameUpToOrder (n.toStep edges' p) :=
  ⟨rfl, rfl, rfl, rfl, rfl, distinctSources_of_perm h n.id⟩

/-- Edges in another order give each step its dependencies in another order. -/
theorem stepsOfNodes_of_perm_edges {config : Config} {nodes : List Node} {edges edges' : List Edge}
    {steps : List Step} (he : edges.Perm edges')
    (h : stepsOfNodes config (sourceMap edges) nodes = .ok steps)
    (hid : ∀ s ∈ steps, s.id ≠ "") :
    ∃ steps', stepsOfNodes config (sourceMap edges') nodes = .ok steps' ∧
      List.Forall₂ Step.SameUpToOrder steps steps' := by
  simp only [stepsOfNodes_eq_ok] at h ⊢
  induction h with
  | nil => exact ⟨[], .nil, .nil⟩
  | @cons n s nodes steps hs _ ih =>
    obtain ⟨hsid, hid⟩ := List.forall_mem_cons.1 hid
    rw [id_of_stepOfNode hs] at hsid
    obtain ⟨rest, hrest, hsame⟩ := ih hid
    obtain ⟨p, hp, rfl⟩ := (stepOfNode_sourceMap_eq_ok hsid).1 hs
    have hs' : stepOfNode config ((sourceMap edges').lookup n.id) n = .ok (n.toStep edges' p) :=
      (stepOfNode_sourceMap_eq_ok hsid).2 ⟨p, hp, rfl⟩
    exact ⟨n.toStep edges' p :: rest, .cons hs' hrest, .cons (sameUpToOrder_toStep he p n) hsame⟩

theorem stepsOfNodes_of_perm {config : Config} {nodes nodes' : List Node} {edges edges' : List Edge}
    {steps : List Step} (hn : nodes.Perm nodes') (he : edges.Perm edges')
    (h : stepsOfNodes config (sourceMap edges) nodes = .ok steps)
    (hid : ∀ s ∈ steps, s.id ≠ "") :
    ∃ steps', stepsOfNodes config (sourceMap edges') nodes' = .ok steps' ∧
      Step.SameSteps steps steps' := by
  obtain ⟨moved, hmoved, hperm⟩ := List.perm_comp_forall₂ hn.symm (stepsOfNodes_eq_ok.1 h)
  obtain ⟨steps', hsteps', hsame⟩ := stepsOfNodes_of_perm_edges he (stepsOfNodes_eq_ok.2 hmoved)
    fun s hs => hid s (hperm.mem_iff.1 hs)
  have hall : Step.SameSteps moved steps' := ⟨steps', hsame, .refl steps'⟩
  exact ⟨steps', hsteps', hall.of_perm hperm.symm⟩

/-! ## The format -/

/-- What the raw form has under other names than that of the steps. -/
theorem get?_rawFields (config : Config) (raw : RawGraph) (steps others : List Step) {name : String}
    (h : name ≠ "steps") : (rawFields config raw others).entries.get? name
      = (rawFields config raw steps).entries.get? name := by
  rw [Value.get?_entries, Value.get?_entries, lookup_rawFields_of_ne config raw steps others h]

/-- The format looks at the steps one by one and apart from the rest. -/
theorem ofValue_rawWorkflow {config : Config} {raw : RawGraph} {steps others : List Step}
    {w : Workflow} (h : Workflow.ofValue (rawWorkflow config raw steps) = .ok w)
    (hothers : ∀ s ∈ others, s.Valid) :
    Workflow.ofValue (rawWorkflow config raw others) = .ok { w with steps := others } := by
  obtain ⟨hcheck, hissues, rfl⟩ := Workflow.ofValue_eq_ok.1 h
  obtain ⟨entries, hentries, hversion, htrigger, -, hmetadata⟩ := Schema.issues_eq_nil.1 hissues
  obtain rfl := Value.map.inj hentries
  have hget : ∀ name, name ≠ "steps" → (rawFields config raw others).entries.get? name
      = (rawFields config raw steps).entries.get? name :=
    fun _ => get?_rawFields config raw steps others
  have hfield : Value.field? (rawFields config raw others).entries "metadata"
      = Value.field? (rawFields config raw steps).entries "metadata" := by
    rw [Value.field?, Value.field?, hget "metadata" (by decide)]
  refine Workflow.ofValue_eq_ok.2 ⟨?_, ?_, ?_⟩
  · have htrigger := ((checkable_rawWorkflow_iff config raw steps).1 hcheck).1
    exact (checkable_rawWorkflow_iff config raw others).2
      ⟨htrigger, fun s hs => Schema.stepCheckable_of_valid (hothers s hs)⟩
  · refine Schema.issues_eq_nil.2 ⟨(rawFields config raw others).entries, rfl, ?_, ?_, ?_, ?_⟩
    · rwa [hget "version" (by decide)]
    · rwa [hget "trigger" (by decide)]
    · refine ⟨others.map Step.toValue, ?_, fun item hitem => ?_⟩
      · rw [Value.get?_entries, (lookup_rawFields config raw others).2]
      · obtain ⟨s, hs, rfl⟩ := List.mem_map.1 hitem
        exact ⟨s.fields.entries, rfl, Schema.isStep_fields (hothers s hs)⟩
    · rwa [hfield]
  · have hsteps : (Schema.read (rawWorkflow config raw others)).steps = others :=
      steps_read_rawWorkflow others
    simp only [Schema.read, Schema.get, rawWorkflow_eq, Schema.entriesOf,
      hget "version" (by decide), hget "trigger" (by decide), hfield] at hsteps ⊢
    rw [hsteps]

section
variable {config : Config} {raw : RawGraph} {nodes nodes' edges edges' : List Value}

theorem toWorkflow_of_perm {w : Workflow} (hn : nodes.Perm nodes') (he : edges.Perm edges')
    (h : toWorkflow config (raw.listing nodes edges) = .ok w) :
    ∃ steps, toWorkflow config (raw.listing nodes' edges') = .ok { w with steps := steps } ∧
      w.SameUpToOrder { w with steps := steps } := by
  obtain ⟨readNodes, readEdges, steps, hread, hsteps, hids, hordered, hw⟩ :=
    orderByDependencies_of_toWorkflow h
  have hvalid := Workflow.valid_of_ofValue hw
  have hperm := Step.perm_of_order hids hordered
  obtain ⟨readNodes', readEdges', hread', hnp, hep⟩ := read_of_perm hn he hread
  obtain ⟨steps', hsteps', hsame⟩ := stepsOfNodes_of_perm hnp hep hsteps fun s hs =>
    (hvalid s (hperm.mem_iff.2 hs)).id_ne
  have hids' : (steps'.map Step.id).Nodup := hsame.perm_id.nodup_iff.1 hids
  obtain ⟨ordered', hordered'⟩ := hsame.exists_ordered hids hordered
  have hall : Step.SameSteps w.steps ordered' :=
    (hsame.of_perm hperm).trans_perm (Step.perm_of_order hids' hordered').symm
  have hnd : w.stepIds.Nodup := (Step.map_id_of_order hordered).1
  refine ⟨ordered', toWorkflow_eq_ok.2 ⟨readNodes', readEdges', steps', ordered', hread', hsteps',
    hids', hordered', ofValue_rawWorkflow hw fun t ht => ?_⟩,
    rfl, rfl, rfl, hall.perm_id, fun s hs t ht hid => hall.of_id hnd hs ht hid⟩
  obtain ⟨s, hs, hst⟩ := hall.exists_mem ht
  exact hst.valid (hvalid s hs)

/-- Whether a graph is saved, and what is saved up to order, is independent of the order in which
its nodes and its edges are listed. -/
theorem toWorkflow_perm (hn : nodes.Perm nodes') (he : edges.Perm edges') :
    ((∃ w, toWorkflow config (raw.listing nodes edges) = .ok w) ↔
      ∃ w, toWorkflow config (raw.listing nodes' edges') = .ok w) ∧
    ∀ w w', toWorkflow config (raw.listing nodes edges) = .ok w →
      toWorkflow config (raw.listing nodes' edges') = .ok w' → w.SameUpToOrder w' := by
  refine ⟨⟨?_, ?_⟩, fun w w' hw hw' => ?_⟩
  · rintro ⟨w, hw⟩
    obtain ⟨steps, hw', -⟩ := toWorkflow_of_perm hn he hw
    exact ⟨_, hw'⟩
  · rintro ⟨w, hw⟩
    obtain ⟨steps, hw', -⟩ := toWorkflow_of_perm hn.symm he.symm hw
    exact ⟨_, hw'⟩
  · obtain ⟨steps, hsaved, hsame⟩ := toWorkflow_of_perm hn he hw
    rw [hsaved] at hw'
    cases hw'
    exact hsame

end

/-- Two branches that are joined. -/
def branchNodes : List Value :=
  ["join", "left", "right"].map fun id => Node.toValue ⟨id, "log", ⟨.zero, .zero⟩, "", []⟩

def branchEdges : List Value :=
  [(Edge.between "left" "join").toValue, (Edge.between "right" "join").toValue]

theorem toWorkflow_perm_branches :
    branchNodes.Perm branchNodes.reverse ∧ branchEdges.Perm branchEdges.reverse ∧
      ∃ w w', toWorkflow .standard (deploy.listing branchNodes branchEdges) = .ok w ∧
        toWorkflow .standard (deploy.listing branchNodes.reverse branchEdges.reverse) = .ok w' ∧
        w.steps.map (fun s => (s.id, s.dependsOn))
          = [("left", none), ("right", none), ("join", some ["left", "right"])] ∧
        w'.steps.map (fun s => (s.id, s.dependsOn))
          = [("right", none), ("left", none), ("join", some ["right", "left"])] ∧
        w.SameUpToOrder w' := by
  have hn : branchNodes.Perm branchNodes.reverse := (List.reverse_perm branchNodes).symm
  have he : branchEdges.Perm branchEdges.reverse := (List.reverse_perm branchEdges).symm
  have h : ((toWorkflow .standard (deploy.listing branchNodes branchEdges)).toOption.map
        fun w => w.steps.map fun s => (s.id, s.dependsOn))
      = some [("left", none), ("right", none), ("join", some ["left", "right"])] := by
    decide +kernel
  have h' : ((toWorkflow .standard
        (deploy.listing branchNodes.reverse branchEdges.reverse)).toOption.map
        fun w => w.steps.map fun s => (s.id, s.dependsOn))
      = some [("right", none), ("left", none), ("join", some ["right", "left"])] := by
    decide +kernel
  obtain ⟨hiff, hsame⟩ := @toWorkflow_perm .standard deploy _ _ _ _ hn he
  cases hw : toWorkflow .standard (deploy.listing branchNodes branchEdges) with
  | error e => rw [hw] at h; cases h
  | ok w =>
    obtain ⟨w', hw'⟩ := hiff.1 ⟨w, hw⟩
    rw [hw] at h
    rw [hw'] at h'
    exact ⟨hn, he, w, w', rfl, hw', Option.some.inj h, Option.some.inj h', hsame w w' hw hw'⟩

end Graph

end StepGraph
