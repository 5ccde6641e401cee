import StepGraph.Proofs.Graph.RoundTrip
import StepGraph.Proofs.Graph.Shown
import StepGraph.Proofs.Workflow.Compare

/-!
# What a comparison says of a workflow that went through a graph

The steps come back with the dependencies that they had, so all that a comparison can find of a step
is its position, and of the workflow the order of its steps (`Workflow.differences_restored`). The
order stays the same exactly if no step stands before one that it depends on
(`Step.orderByDependencies_eq_iff`).

* `differences_toGraph`: a workflow that goes through a graph is found with a changed order exactly
  if a step stood before one that it depends on, with moved positions only where steps had stored
  ones, and with no other difference.
-/

set_option autoImplicit false

namespace StepGraph

open StepGraph.Order

/-! ## The order of the steps -/

namespace Step

variable {steps ordered : List Step}

/-- Of two listed steps the first stands in front of a part of the list with the second. -/
theorem exists_split_of_sublist {s t : Step} (h : [s, t].Sublist steps) :
    ∃ before after, steps = before ++ s :: after ∧ t ∈ after := by
  obtain ⟨front, back, rfl, hs, ht⟩ := List.cons_sublist_iff.1 h
  obtain ⟨before, between, rfl⟩ := List.append_of_mem hs
  exact ⟨before, between ++ back, by simp, List.mem_append_right _ (List.singleton_sublist.1 ht)⟩

/-- Putting steps in order leaves them where they are exactly if none stands before one that it
depends on. -/
theorem orderByDependencies_eq_iff (h : assertDependencies steps = .ok ())
    (hordered : orderByDependencies steps = .ok ordered) :
    ordered = steps ↔ ∀ s t, [s, t].Sublist steps → t.id ∉ s.dependencyIds := by
  have hnd := (assertDependencies_eq_ok.1 h).1
  constructor
  · rintro rfl s t hst hd
    obtain ⟨before, after, rfl, ht⟩ := exists_split_of_sublist hst
    obtain ⟨e, he, hid⟩ := earlier_of_orderByDependencies hnd hordered rfl hd
    -- the dependency would stand on both sides of the step
    rw [List.map_append, List.nodup_append] at hnd
    exact hnd.2.2 e.id (List.mem_map_of_mem he) t.id
      (List.mem_map_of_mem (List.mem_cons_of_mem s ht)) hid
  · intro hlate
    obtain ⟨rank, hrank⟩ := exists_rank h
    have hsame : orderByDependencies steps = .ok steps := by
      refine orderByDependencies_of_earlier hnd fun before s after hsplit d hd => ?_
      have hs : s ∈ steps := by rw [hsplit]; simp
      obtain ⟨hmem, hlt⟩ := hrank s hs d hd
      obtain ⟨t, ht, rfl⟩ := List.mem_map.1 hmem
      rw [hsplit] at ht
      rcases List.mem_append.1 ht with ht | ht
      · exact ⟨t, ht, rfl⟩
      · rcases List.mem_cons.1 ht with rfl | ht
        · exact absurd hlt (lt_irrefl _)
        · have hst : [s, t].Sublist steps := by
            rw [hsplit]
            exact (List.Sublist.cons_cons s (List.singleton_sublist.2 ht)).trans
              (List.sublist_append_right _ _)
          exact absurd hd (hlate s t hst)
    exact Except.ok.inj (hordered.symm.trans hsame)

/-- The order of steps with distinct ids shows in their ids. -/
theorem map_id_eq_iff (hnd : (steps.map Step.id).Nodup)
    (h : orderByDependencies steps = .ok ordered) :
    steps.map Step.id = ordered.map Step.id ↔ ordered = steps := by
  constructor
  · intro hids
    have hfirsts : ∀ s ∈ ordered, steps.find? (·.id == s.id) = some s := fun s hs =>
      find?_of_mem hnd (mem_of_order h hs)
    calc ordered = firsts steps (ordered.map Step.id) := (firsts_map_id hfirsts).symm
      _ = firsts steps (steps.map Step.id) := by rw [hids]
      _ = steps := firsts_map_id fun _ hs => find?_of_mem hnd hs
  · rintro rfl
    rfl

end Step

/-! ## What is left to be found -/

theorem Workflow.Valid.withinDoubles {w : Workflow} (h : w.Valid) : w.WithinDoubles :=
  fun s hs p hp => ⟨Schema.isHuge_of_isFinite ((h s hs).position p hp).1,
    Schema.isHuge_of_isFinite ((h s hs).position p hp).2⟩

theorem mem_differenceIf {differs : Bool} {kind : DifferenceKind} {path : String}
    {expected actual : Value} {d : Difference} :
    d ∈ differenceIf differs kind path expected actual ↔
      differs = true ∧ d = ⟨kind, path, expected, actual⟩ := by
  cases differs <;> simp [differenceIf]

theorem mem_positionDifferences {tolerance : Number} {path : String} {expected : Option Position}
    {q : Position} {d : Difference} :
    d ∈ positionDifferences tolerance path expected (some q) ↔
      ∃ p, expected = some p ∧ p.hasMoved tolerance q = true ∧
        d = ⟨.position, path, p.toValue, q.toValue⟩ := by
  cases expected with
  | none => simp [positionDifferences]
  | some p => simp [positionDifferences, mem_differenceIf, optionalPosition]

/-- A step has kept everything but its position. -/
theorem Step.differences_restored {s : Step} (hn : (Value.record s.config).NoNaN)
    (hk : (Value.record s.config).DistinctKeys) (tolerance : Number) (p : Position) :
    s.differences tolerance (s.restored p)
      = positionDifferences tolerance (s.path ++ ".position") s.position (some p) := by
  have hconfig : (Value.record s.config).deepEqual (.record (s.restored p).config) = true :=
    Value.deepEqual_self hn hk
  have hids : sortedIds s.dependencyIds = sortedIds (s.restored p).dependencyIds := by
    refine sortedIds_eq_iff.2 fun id => ?_
    rw [dependencyIds, dependencyIds, getD_restored, mem_distinct]
  have hname : s.name = (s.restored p).name := rfl
  have htype : s.type = (s.restored p).type := rfl
  simp only [differences, differenceIf, ← hname, ← htype, hconfig, ← hids, bne_self_eq_false,
    Bool.not_true, Bool.false_eq_true, if_false, List.nil_append]
  rfl

namespace Workflow

/-- The workflow with its steps in this order, each with its distinct dependencies and some
position. -/
def restored (w : Workflow) (ordered : List Step) (position : Step → Position) : Workflow :=
  { w with steps := ordered.map fun s => s.restored (position s) }

section
variable {w : Workflow} {ordered : List Step} {position : Step → Position}

theorem stepIds_restored : (w.restored ordered position).stepIds = ordered.map Step.id := by
  rw [stepIds, restored, List.map_map]; rfl

theorem differences_restored (hw : w.Comparable) (hperm : ordered.Perm w.steps)
    (tolerance : Number) :
    w.differences tolerance (w.restored ordered position) =
      w.steps.flatMap (fun s => positionDifferences tolerance (s.path ++ ".position") s.position
        (some (position s)))
      ++ differenceIf (w.stepIds != ordered.map Step.id) .order "steps" (.texts w.stepIds)
        (.texts (ordered.map Step.id)) := by
  have hids : (ordered.map Step.id).Perm w.stepIds := hperm.map _
  have hnd : ((w.restored ordered position).steps.map Step.id).Nodup := by
    rw [← stepIds, stepIds_restored]
    exact hids.nodup_iff.2 hw.stepIds
  have htrigger :
      w.trigger.toValue.deepEqual (w.restored ordered position).trigger.toValue = true :=
    Value.deepEqual_self (noNaN_trigger hw.trigger.1) (distinctKeys_trigger hw.trigger.2)
  have hmetadata : w.metadataValue.deepEqual (w.restored ordered position).metadataValue = true :=
    Value.deepEqual_self (noNaN_metadataValue w) (distinctKeys_metadataValue w)
  have hmem : ∀ id, id ∈ w.stepIds ↔ id ∈ ordered.map Step.id := fun id => hids.mem_iff.symm
  have hexpected : w.stepIds.filter (ordered.map Step.id).contains = w.stepIds :=
    List.filter_eq_self.2 fun id hid => List.contains_iff_mem.2 ((hmem id).1 hid)
  have hactual : (ordered.map Step.id).filter w.stepIds.contains = ordered.map Step.id :=
    List.filter_eq_self.2 fun id hid => List.contains_iff_mem.2 ((hmem id).2 hid)
  have hadded : (w.restored ordered position).steps.filter (!w.stepIds.contains ·.id) = [] := by
    refine List.filter_eq_nil_iff.2 fun s hs => ?_
    have hid : s.id ∈ ordered.map Step.id := stepIds_restored ▸ List.mem_map_of_mem hs
    simpa using (hmem s.id).2 hid
  have hsteps : ∀ s ∈ w.steps, stepDifferences tolerance (w.restored ordered position) s =
      positionDifferences tolerance (s.path ++ ".position") s.position (some (position s)) := by
    intro s hs
    have hback : s.restored (position s) ∈ (w.restored ordered position).steps :=
      List.mem_map_of_mem (f := fun s => s.restored (position s)) (hperm.mem_iff.2 hs)
    have hlast : Step.lastWithId (w.restored ordered position).steps s.id
        = some (s.restored (position s)) := Step.lastWithId_of_mem hnd hback
    rw [stepDifferences, hlast]
    exact Step.differences_restored (hw.step s hs).1 (hw.step s hs).2 tolerance (position s)
  have hversion : w.version = (w.restored ordered position).version := rfl
  simp only [differences, stepIds_restored, hexpected, hactual, hadded, ← hversion, htrigger,
    hmetadata, List.flatMap_congr hsteps, differenceIf, bne_self_eq_false, Bool.not_true,
    Bool.false_eq_true, if_false, List.nil_append, List.map_nil, List.append_nil]

end

end Workflow

namespace Graph

variable {config : Config} {w : Workflow} {raw : Value}

/-- What a comparison finds after a way through a graph. -/
structure OnlyMoved (config : Config) (tolerance : Number) (w : Workflow)
    (differences : List Difference) : Prop where
  kind : ∀ d ∈ differences, d.kind = .order ∨ d.kind = .position
  /-- The order has changed exactly if a step stood before one that it depends on. -/
  order : (∃ d ∈ differences, d.kind = .order) ↔
    ∃ s t, [s, t].Sublist w.steps ∧ t.id ∈ s.dependencyIds
  /-- Only a step with a stored position is found moved, from there to where it was rounded. -/
  position : ∀ d ∈ differences, d.kind = .position →
    ∃ s ∈ w.steps, ∃ p q, s.position = some p ∧
      storedPosition config.roundPositions p = .ok q ∧ p.hasMoved tolerance q = true ∧
      d = ⟨.position, s.path ++ ".position", p.toValue, q.toValue⟩

theorem onlyMoved_restored {ordered : List Step} {position : Step → Position} (hw : w.Comparable)
    (hdeps : Step.assertDependencies w.steps = .ok ())
    (hordered : Step.orderByDependencies w.steps = .ok ordered)
    (hpos : ∀ s ∈ w.steps,
      storedPosition config.roundPositions (nodePosition w s) = .ok (position s))
    (tolerance : Number) :
    OnlyMoved config tolerance w (w.differences tolerance (w.restored ordered position)) := by
  have hmem : ∀ d, d ∈ w.differences tolerance (w.restored ordered position) ↔
      (∃ s ∈ w.steps, ∃ p, s.position = some p ∧ p.hasMoved tolerance (position s) = true ∧
        d = ⟨.position, s.path ++ ".position", p.toValue, (position s).toValue⟩) ∨
      (ordered ≠ w.steps ∧
        d = ⟨.order, "steps", .texts w.stepIds, .texts (ordered.map Step.id)⟩) := by
    intro d
    rw [Workflow.differences_restored hw (Step.perm_of_order hw.stepIds hordered), List.mem_append,
      List.mem_flatMap, mem_differenceIf, bne_iff_ne, Workflow.stepIds, ne_eq,
      Step.map_id_eq_iff hw.stepIds hordered]
    simp only [mem_positionDifferences]
  refine ⟨fun d hd => ?_, ?_, fun d hd hkind => ?_⟩
  · rcases (hmem d).1 hd with ⟨s, -, p, -, -, rfl⟩ | ⟨-, rfl⟩
    · exact .inr rfl
    · exact .inl rfl
  · have hmoved : (∃ d ∈ w.differences tolerance (w.restored ordered position), d.kind = .order) ↔
        ordered ≠ w.steps := by
      constructor
      · rintro ⟨d, hd, hkind⟩
        rcases (hmem d).1 hd with ⟨s, -, p, -, -, rfl⟩ | ⟨hne, -⟩
        · cases hkind
        · exact hne
      · intro hne
        exact ⟨_, (hmem _).2 (.inr ⟨hne, rfl⟩), rfl⟩
    rw [hmoved, ne_eq, Step.orderByDependencies_eq_iff hdeps hordered]
    simp only [not_forall, not_not, exists_prop]
  · rcases (hmem d).1 hd with ⟨s, hs, p, hp, hfar, rfl⟩ | ⟨-, rfl⟩
    · have hstored := hpos s hs
      rw [nodePosition, hp] at hstored
      exact ⟨s, hs, p, position s, hp, hstored, hfar, rfl⟩
    · cases hkind

/-- A workflow with a version that goes through a graph is found in another order exactly if a step
stood before one that it depends on; besides, steps that had a position may be found moved, and
there is no other difference. -/
theorem differences_toGraph (hraw : Workflow.ofValue raw = .ok w)
    (hdeps : Step.assertDependencies w.steps = .ok ()) (hsize : w.steps.length < 2 ^ 63)
    (hversion : w.version ≠ "") (hw : w.Comparable) (tolerance : Number) :
    ∃ back, toWorkflow config ((w.toGraph .vertical).toRaw w.metadata w.version) = .ok back ∧
      (w.compare tolerance back : Result _) = .ok (w.differences tolerance back) ∧
      OnlyMoved config tolerance w (w.differences tolerance back) := by
  have hvalid := Workflow.valid_of_ofValue hraw
  obtain ⟨hnd, ordered, hordered⟩ := Step.assertDependencies_eq_ok.1 hdeps
  obtain ⟨position, hpos, hfin⟩ := exists_storedPosition config hvalid hsize
  have hback := toWorkflow_toRaw hvalid hnd hordered hpos hfin
  rw [if_neg hversion] at hback
  have hcompare := @Workflow.compare_eq w _ Error hvalid.withinDoubles
    (valid_of_toWorkflow hback).withinDoubles tolerance
  exact ⟨_, hback, hcompare, onlyMoved_restored hw hdeps hordered hpos tolerance⟩

/-- A workflow with a step before the one that it needs, and a step between two whole points. -/
def drafted : Workflow where
  version := "2.0"
  trigger := ⟨.schedule, [("every", .str "day")]⟩
  steps := [
    ⟨"deploy", "Deploy", "shell", [], some ["build", "build"], none⟩,
    ⟨"build", "Build", "shell", [("jobs", .int 4)], none,
      some ⟨.int 7, .float (.ofRatio false 5 2)⟩⟩]
  metadata := none

theorem differences_toGraph_drafted :
    Workflow.ofValue drafted.toValue = .ok drafted ∧
      Step.assertDependencies drafted.steps = .ok () ∧ drafted.steps.length < 2 ^ 63 ∧
      drafted.version ≠ "" ∧ drafted.Comparable ∧
      ∃ back, toWorkflow .standard
          ((drafted.toGraph .vertical).toRaw drafted.metadata drafted.version) = .ok back ∧
        (drafted.compare .zero back : Result _) = .ok (drafted.differences .zero back) ∧
        (drafted.differences .zero back).map Difference.kind = [.position, .order] ∧
        OnlyMoved .standard .zero drafted (drafted.differences .zero back) := by
  have hraw : Workflow.ofValue drafted.toValue = .ok drafted := by rfl
  have hdeps : Step.assertDependencies drafted.steps = .ok () := by rfl
  have hversion : drafted.version ≠ "" := by decide
  have hcomparable : drafted.Comparable :=
    ⟨by decide, by simp [drafted, Scalar.isNaN],
      by simp [drafted, Scalar.isNaN, Number.isNaN, or_imp, forall_and]⟩
  have hkinds : ((toWorkflow .standard ((drafted.toGraph .vertical).toRaw drafted.metadata
      drafted.version)).toOption.map fun back =>
        (drafted.differences .zero back).map Difference.kind) = some [.position, .order] := by
    decide +kernel
  obtain ⟨back, hback, hfound, hmoved⟩ := @differences_toGraph .standard drafted drafted.toValue
    hraw hdeps (by decide) hversion hcomparable .zero
  rw [hback] at hkinds
  exact ⟨hraw, hdeps, by decide, hversion, hcomparable, back, hback, hfound,
    Option.some.inj hkinds, hmoved⟩

end Graph

end StepGraph
