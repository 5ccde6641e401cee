import StepGraph.Proofs.Document.Comparable
import StepGraph.Proofs.Graph.Compared

/-!
# Documents that are opened and saved unchanged

What is saved of an opened document is its workflow with the steps in dependency order, and with the
version that the configuration names if it had an empty one. A workflow agrees with that exactly if
the version is the same and nothing in its settings is NaN (`Workflow.agrees_restored_iff`).

* `isFaithful_roundTrip_iff`: where the text that is written reads back as what was saved, a round
  trip succeeds, and these two are all that makes it lose the meaning.
-/

set_option autoImplicit false

namespace StepGraph

/-! ## Agreement with what comes back -/

namespace Workflow

variable {v w : Workflow} {ordered : List Step} {position : Step → Position}

theorem Rearranged.refl (hids : w.stepIds.Nodup) : w.Rearranged w where
  version := rfl
  trigger := rfl
  metadata := rfl
  stepIds := .refl _
  step s hs t ht hid := by
    obtain rfl := List.inj_on_of_nodup_map hids ht hs hid
    exact ⟨rfl, rfl, rfl, fun _ => Iff.rfl⟩

theorem rearranged_restored (hids : w.stepIds.Nodup) (hperm : ordered.Perm w.steps) :
    w.Rearranged (w.restored ordered position) where
  version := rfl
  trigger := rfl
  metadata := rfl
  stepIds := by rw [stepIds_restored]; exact hperm.map _
  step s hs t ht hid := by
    obtain ⟨u, hu, rfl⟩ := List.mem_map.1 ht
    obtain rfl := List.inj_on_of_nodup_map hids (hperm.mem_iff.1 hu) hs hid
    refine ⟨rfl, rfl, rfl, fun id => ?_⟩
    rw [Step.dependencyIds, Step.dependencyIds, Step.getD_restored, Order.mem_distinct]

/-- In a workflow that agrees with another one nothing is NaN. -/
theorem Agrees.noNaN (h : v.Agrees w) : v.NoNaN where
  trigger := by
    have htrigger := Value.noNaN_record.1 (Value.noNaN_of_deepEqual h.trigger)
    exact htrigger ("config", .record v.trigger.config) (by simp)
  step s hs := by
    obtain ⟨t, ht, hid⟩ := List.mem_map.1 ((h.stepIds s.id).1 (List.mem_map_of_mem hs))
    exact Value.noNaN_of_deepEqual (h.step s hs t ht hid.symm).config

/-- A workflow agrees with its restored form exactly if it keeps its version and has no NaN. -/
theorem agrees_restored_iff {version : String} (hids : w.stepIds.Nodup) (hkeys : w.DistinctKeys)
    (hperm : ordered.Perm w.steps) :
    w.Agrees { w.restored ordered position with version := version } ↔
      version = w.version ∧ w.NoNaN := by
  constructor
  · intro h
    exact ⟨h.version.symm, h.noNaN⟩
  · rintro ⟨rfl, hnan⟩
    exact (comparable hids hnan hkeys).agrees_self.rearranged (.refl hids)
      (rearranged_restored hids hperm)

end Workflow

/-! ## Round trips -/

namespace Document

variable {config : Config} {text : String} {opened : Opened} {saved : Workflow}

/-- The text of a workflow can be written, and it is read as the workflow again. -/
def ReadsBack (config : Config) (w : Workflow) : Prop :=
  ∃ converted wasLegacy, write config w = .ok converted ∧
    read converted.toList .none = .ok ⟨w, wasLegacy⟩

/-- What becomes of the graph of a document that is saved under some version. -/
theorem exists_saved {text : List Char} {source : Legacy.Source} (hsource : source.DistinctKeys)
    (h : toGraph text source = .ok opened) (hsize : opened.workflow.steps.length < 2 ^ 63)
    (version : String) :
    ∃ saved,
      Graph.toWorkflow config (opened.graph.toRaw opened.workflow.metadata version) = .ok saved ∧
      saved.stepIds.Nodup ∧
      (opened.workflow.compare config.tolerance saved : Result _)
        = .ok (opened.workflow.differences config.tolerance saved) ∧
      (opened.workflow.Agrees saved ↔
        (if version = "" then config.defaultVersion else version) = opened.workflow.version ∧
          opened.workflow.NoNaN) := by
  obtain ⟨⟨w, wasLegacy⟩, hr, rfl⟩ := toGraph_eq_ok.1 h
  obtain ⟨hread, hdeps⟩ := readChecked_eq_ok.1 hr
  dsimp only at hsize hdeps ⊢
  have hvalid : w.Valid := valid_of_read hread
  have hkeys : w.DistinctKeys := distinctKeys_read hsource hread
  obtain ⟨hnd, ordered, hordered⟩ := Step.assertDependencies_eq_ok.1 hdeps
  obtain ⟨position, hpos, hfin⟩ := Graph.exists_storedPosition config hvalid hsize
  have hperm : ordered.Perm w.steps := Step.perm_of_order hnd hordered
  have hsaved := @Graph.toWorkflow_toRaw config { w with version := version } ordered position
    hvalid hnd hordered hpos hfin
  have hcompare := @Workflow.compare_eq w _ Error hvalid.withinDoubles
    (Graph.valid_of_toWorkflow hsaved).withinDoubles config.tolerance
  refine ⟨_, hsaved, ?_, hcompare, Workflow.agrees_restored_iff hnd hkeys hperm⟩
  have hids : (w.restored ordered position).stepIds.Nodup := by
    rw [Workflow.stepIds_restored]
    exact (hperm.map _).nodup_iff.2 hnd
  exact hids

/-- A round trip through a text that reads back says what a comparison with the saved workflow
finds. -/
theorem roundTrip_eq (h : toGraph text.toList .none = .ok opened)
    (hsaved : Graph.toWorkflow config opened.toRaw = .ok saved) (hback : ReadsBack config saved)
    (hcompare : (opened.workflow.compare config.tolerance saved : Result _)
      = .ok (opened.workflow.differences config.tolerance saved)) :
    ∃ converted, roundTrip config text
      = .ok ⟨text, converted, opened.workflow.differences config.tolerance saved⟩ := by
  obtain ⟨converted, wasLegacy, hwritten, hagain⟩ := hback
  refine ⟨converted, Attempt.bind_eq_ok.2 ⟨opened, h, ?_⟩⟩
  refine Attempt.bind_eq_ok.2 ⟨converted, Attempt.bind_eq_ok.2 ⟨saved, hsaved, hwritten⟩, ?_⟩
  refine Attempt.bind_eq_ok.2 ⟨_, Attempt.bind_eq_ok.2 ⟨_, hagain, hcompare⟩, rfl⟩

/-- A document that is opened and saved unchanged keeps its meaning exactly if its version is not
empty, or the configuration's is empty too, and nothing in its settings is NaN; provided that the
text that is written reads back as what was saved. -/
theorem isFaithful_roundTrip_iff (h : toGraph text.toList .none = .ok opened)
    (hsize : opened.workflow.steps.length < 2 ^ 63) :
    ∃ saved, Graph.toWorkflow config opened.toRaw = .ok saved ∧
      (ReadsBack config saved → ∃ report, roundTrip config text = .ok report ∧
        (report.isFaithful = true ↔
          (opened.workflow.version = "" → config.defaultVersion = "") ∧
            opened.workflow.NoNaN)) := by
  obtain ⟨saved, hsaved, hids, hcompare, hagrees⟩ :=
    @exists_saved config opened _ _ (fun _ hp => by cases hp) h hsize opened.workflow.version
  have hversion : (if opened.workflow.version = "" then config.defaultVersion
      else opened.workflow.version) = opened.workflow.version ↔
        (opened.workflow.version = "" → config.defaultVersion = "") := by
    by_cases hempty : opened.workflow.version = "" <;> simp [hempty]
  rw [hversion] at hagrees
  refine ⟨saved, hsaved, fun hback => ?_⟩
  obtain ⟨converted, hround⟩ := roundTrip_eq h hsaved hback hcompare
  refine ⟨_, hround, ?_⟩
  rw [Report.isFaithful, Bool.not_eq_true', Workflow.hasErrors_differences_iff hids, hagrees]

end Document

end StepGraph
