import StepGraph.Proofs.Graph.RoundTrip
import StepGraph.Proofs.Graph.Settled

/-!
# A graph that was saved before

Saving a graph chooses an order of the steps, drops what edges repeat, fills in names and the
version, and rounds positions. Each of these leaves alone what it made itself: the order
(`Step.orderByDependencies_again`), the dependencies (`filter_map_distinctSources`), the version
(`version_of_toWorkflow`) and the positions (`storedPosition_again`).

* `toWorkflow_saveAgain`: a workflow that was saved is loaded into an editor and saved again,
  however often, without a change.
-/

set_option autoImplicit false

namespace StepGraph

open StepGraph.Order

/-- Loads a workflow into an editor and saves the graph as it is. -/
def Workflow.saveAgain (config : Config) (w : Workflow) : Result Workflow :=
  Graph.toWorkflow config ((w.toGraph .vertical).toRaw w.metadata w.version)

namespace Graph

/-- The dependencies that edges give a step are distinct already. -/
theorem filter_map_distinctSources (edges : List Edge) (target : String) :
    ((distinctSources edges target).map distinct).filter (!·.isEmpty)
      = distinctSources edges target := by
  rw [distinctSources]
  split
  · rfl
  · rename_i h
    have hne : distinct (sourcesOf edges target) ≠ [] := fun hnil => h (distinct_eq_nil.1 hnil)
    rw [filter_map_distinct, Option.getD_some, distinct_of_nodup (nodup_distinct _), if_neg hne]

theorem restored_toStep (edges : List Edge) (p : Position) (n : Node) :
    (n.toStep edges p).restored p = n.toStep edges p := by
  rw [Step.restored, Node.toStep, filter_map_distinctSources]

section
variable {config : Config} {raw : RawGraph} {w : Workflow}

/-- No version is left to be filled in, unless the one to fill in is empty itself. -/
theorem version_of_toWorkflow (h : toWorkflow config raw = .ok w) :
    (if w.version = "" then config.defaultVersion else w.version) = w.version := by
  obtain ⟨-, -, -, ordered, -, -, -, -, hw⟩ := toWorkflow_eq_ok.1 h
  obtain ⟨-, hissues, rfl⟩ := Workflow.ofValue_eq_ok.1 hw
  obtain ⟨entries, hraw, ⟨version, hversion⟩, -, -, -⟩ := Schema.issues_eq_nil.1 hissues
  have hread : (Schema.read (rawWorkflow config raw ordered)).version = version := by
    rw [Schema.read, hraw, Schema.get_map hversion]
    rfl
  have hgiven : (if raw.version.isGiven then raw.version else .str config.defaultVersion)
      = .str version := by
    have hget : Schema.get (rawWorkflow config raw ordered) "version" = .str version := by
      rw [hraw, Schema.get_map hversion]
    rwa [rawWorkflow_eq, Schema.get_entries, (lookup_rawFields config raw ordered).1] at hget
  rw [hread]
  split
  · rename_i hempty
    subst hempty
    split at hgiven
    · -- an empty version is none
      rename_i hv
      rw [hgiven] at hv
      cases hv
    · simpa using hgiven
  · rfl

/-- Each step that comes out is that of a node, at a position that is rounded already. -/
theorem restored_of_toWorkflow (h : toWorkflow config raw = .ok w) {s : Step} (hs : s ∈ w.steps) :
    ∃ p, s.position = some p ∧ s.restored p = s ∧ p.IsFinite ∧
      storedPosition config.roundPositions p = .ok p := by
  obtain ⟨nodes, edges, steps, -, hsteps, -, hordered, hw⟩ := orderByDependencies_of_toWorkflow h
  have hvalid := Workflow.valid_of_ofValue hw
  obtain ⟨n, -, p, hp, rfl⟩ :=
    node_of_mem hsteps (Step.mem_of_order hordered hs) (hvalid s hs).id_ne
  have hfin : p.IsFinite := (hvalid _ hs).position p rfl
  exact ⟨p, rfl, restored_toStep edges p n, hfin, storedPosition_again hp hfin⟩

theorem saveAgain_of_toWorkflow (h : toWorkflow config raw = .ok w) :
    w.saveAgain config = .ok w := by
  obtain ⟨nodes, edges, steps, -, -, hids, hordered, hw⟩ := orderByDependencies_of_toWorkflow h
  have hvalid := Workflow.valid_of_ofValue hw
  have hnd : w.stepIds.Nodup := (Step.map_id_of_order hordered).1
  have hstep : ∀ s ∈ w.steps, s.restored (nodePosition w s) = s ∧ (nodePosition w s).IsFinite ∧
      storedPosition config.roundPositions (nodePosition w s) = .ok (nodePosition w s) := by
    intro s hs
    obtain ⟨p, hp, hrestored⟩ := restored_of_toWorkflow h hs
    rwa [nodePosition, hp]
  have hsame : (w.steps.map fun s => s.restored (nodePosition w s)) = w.steps :=
    (List.map_congr_left fun s hs => (hstep s hs).1).trans (List.map_id w.steps)
  rw [Workflow.saveAgain, toWorkflow_toRaw hvalid hnd
    (Step.orderByDependencies_again hids hordered) (fun s hs => (hstep s hs).2.2)
    (fun s hs => (hstep s hs).2.1), version_of_toWorkflow h, hsame]

/-- Saving once more changes nothing, and every position is where it would be stored. -/
theorem toWorkflow_saveAgain (h : toWorkflow config raw = .ok w) :
    (∀ s ∈ w.steps, ∃ p, s.position = some p ∧
      storedPosition config.roundPositions p = .ok p) ∧
    w.saveAgain config = .ok w ∧
    ∀ n, (· >>= Workflow.saveAgain config)^[n] (toWorkflow config raw) = .ok w := by
  have hagain := saveAgain_of_toWorkflow h
  refine ⟨fun s hs => ?_, hagain, fun n => ?_⟩
  · obtain ⟨p, hp, -, -, hstored⟩ := restored_of_toWorkflow h hs
    exact ⟨p, hp, hstored⟩
  · rw [h]
    exact Function.iterate_fixed hagain n

end

theorem toWorkflow_saveAgain_deploy :
    ∃ w, toWorkflow .standard deploy = .ok w ∧
      w.steps.map Step.position = [some ⟨.int 0, .int 0⟩, some ⟨.int 0, .int 3⟩] ∧
      (∀ s ∈ w.steps, ∃ p, s.position = some p ∧
        storedPosition Config.standard.roundPositions p = .ok p) ∧
      w.saveAgain .standard = .ok w ∧
      ∀ n, (· >>= Workflow.saveAgain .standard)^[n] (toWorkflow .standard deploy) = .ok w := by
  have h : ((toWorkflow .standard deploy).toOption.map fun w => w.steps.map Step.position)
      = some [some ⟨.int 0, .int 0⟩, some ⟨.int 0, .int 3⟩] := by decide +kernel
  cases hw : toWorkflow .standard deploy with
  | error e => rw [hw] at h; cases h
  | ok w =>
    rw [hw] at h
    refine ⟨w, rfl, Option.some.inj h, ?_⟩
    have hsaved := toWorkflow_saveAgain hw
    rwa [hw] at hsaved

end Graph

end StepGraph
