import Mathlib.Data.String.Basic
import StepGraph.Proofs.Order.Repeats
import StepGraph.Proofs.Order.Sorted
import StepGraph.Proofs.Value.Equal
import StepGraph.Proofs.Workflow.Order
import StepGraph.Workflow.Compare

/-!
# Workflows that agree

Two workflows agree if they mean the same (`Workflow.Agrees`): what starts them, and what each step
of the one and the step with its id of the other are and need. The comparison of one workflow with
another finds no error exactly if they agree (`hasErrors_differences_iff`), for the passes over the
steps of both miss no id and the sorted dependencies of two steps are equal if they are the same
(`sortedIds_eq_iff`).

* `hasErrors_compare`: that, and what follows from it: agreement is an equivalence on workflows in
  which nothing is NaN, and does not depend on order, repeats, positions and the tolerance. The
  comparison comes to its end where no coordinate is beyond the doubles (`compare_eq`).
-/

set_option autoImplicit false

namespace StepGraph

/-! ## Agreement -/

/-- Two steps are and need the same. -/
structure Step.Agrees (s t : Step) : Prop where
  name : s.name = t.name
  type : s.type = t.type
  config : (Value.record s.config).deepEqual (.record t.config) = true
  dependencies : ∀ id, id ∈ s.dependencyIds ↔ id ∈ t.dependencyIds

/-- Two workflows mean the same. -/
structure Workflow.Agrees (v w : Workflow) : Prop where
  version : v.version = w.version
  trigger : v.trigger.toValue.deepEqual w.trigger.toValue = true
  metadata : v.metadataValue.deepEqual w.metadataValue = true
  stepIds : ∀ id, id ∈ v.stepIds ↔ id ∈ w.stepIds
  step : ∀ s ∈ v.steps, ∀ t ∈ w.steps, s.id = t.id → s.Agrees t

/-- The same step with its dependencies in another order or repeated, and at another position. -/
structure Step.Rearranged (s t : Step) : Prop where
  name : t.name = s.name
  type : t.type = s.type
  config : t.config = s.config
  dependencies : ∀ id, id ∈ t.dependencyIds ↔ id ∈ s.dependencyIds

/-- The same workflow with such steps, in another order. -/
structure Workflow.Rearranged (v w : Workflow) : Prop where
  version : w.version = v.version
  trigger : w.trigger = v.trigger
  metadata : w.metadata = v.metadata
  stepIds : w.stepIds.Perm v.stepIds
  step : ∀ s ∈ v.steps, ∀ t ∈ w.steps, t.id = s.id → s.Rearranged t

/-- A workflow with distinct ids in whose settings nothing is NaN; a key is there once in each
mapping. -/
structure Workflow.Comparable (w : Workflow) : Prop where
  stepIds : w.stepIds.Nodup
  trigger : (Value.record w.trigger.config).NoNaN ∧ (Value.record w.trigger.config).DistinctKeys
  step : ∀ s ∈ w.steps, (Value.record s.config).NoNaN ∧ (Value.record s.config).DistinctKeys

/-- No stored coordinate is a whole number beyond the doubles. -/
def Workflow.WithinDoubles (w : Workflow) : Prop :=
  ∀ s ∈ w.steps, ∀ p ∈ s.position, p.x.isHuge = false ∧ p.y.isHuge = false

instance (w : Workflow) : Decidable w.WithinDoubles :=
  inferInstanceAs (Decidable (∀ _ ∈ _, _))

/-! ## Errors among differences -/

section
variable (ds es : List Difference) (differs : Bool) (kind : DifferenceKind) (path : String)
  (expected actual : Value)

theorem hasErrors_append : hasErrors (ds ++ es) = (hasErrors ds || hasErrors es) :=
  List.any_append

theorem hasErrors_differenceIf :
    hasErrors (differenceIf differs kind path expected actual) = (differs && kind.isError) := by
  cases differs <;> simp [differenceIf, hasErrors]

/-- A position is never an error. -/
theorem hasErrors_positionDifferences (tolerance : Number) (path : String)
    (expected actual : Option Position) :
    hasErrors (positionDifferences tolerance path expected actual) = false := by
  unfold positionDifferences
  split
  · rfl
  · rw [hasErrors_differenceIf]
    exact Bool.and_false _

end

/-! ## Steps -/

theorem sortedIds_eq_iff {ids others : List String} :
    sortedIds ids = sortedIds others ↔ ∀ id, id ∈ ids ↔ id ∈ others := by
  unfold sortedIds
  refine (Order.sortBy_eq_iff fun (x y : String) => decide_eq_true_iff).trans ?_
  rw [List.perm_ext_iff_of_nodup (Order.nodup_distinct ids) (Order.nodup_distinct others)]
  simp only [Order.mem_distinct]

namespace Step

theorem hasErrors_differences_iff {tolerance : Number} {s t : Step} :
    hasErrors (s.differences tolerance t) = false ↔ s.Agrees t := by
  simp only [differences, hasErrors_append, hasErrors_differenceIf, hasErrors_positionDifferences,
    DifferenceKind.isError, Bool.and_true, Bool.or_eq_false_iff, bne_eq_false_iff_eq,
    Bool.not_eq_false', and_true, sortedIds_eq_iff]
  constructor
  · rintro ⟨⟨⟨hname, htype⟩, hconfig⟩, hdeps⟩
    exact ⟨hname, htype, hconfig, hdeps⟩
  · intro h
    exact ⟨⟨⟨h.name, h.type⟩, h.config⟩, h.dependencies⟩

variable {steps : List Step}

theorem lastWithId_eq_none {id : String} : lastWithId steps id = none ↔ id ∉ steps.map Step.id := by
  simp [lastWithId]

/-- Where ids are distinct, the last step with an id is the only one. -/
theorem lastWithId_of_mem (hnd : (steps.map Step.id).Nodup) {s : Step} (hs : s ∈ steps) :
    lastWithId steps s.id = some s := by
  refine find?_of_mem ?_ (List.mem_reverse.2 hs)
  rw [List.map_reverse]
  exact List.nodup_reverse.2 hnd

end Step

/-! ## Workflows -/

namespace Workflow

variable {a b c : Workflow} {tolerance : Number}

/-- A step is without error if the other workflow has a step with its id that agrees with it. -/
theorem hasErrors_stepDifferences (tolerance : Number) (hnd : b.stepIds.Nodup) (s : Step) :
    hasErrors (stepDifferences tolerance b s) = false ↔
      s.id ∈ b.stepIds ∧ ∀ t ∈ b.steps, s.id = t.id → s.Agrees t := by
  unfold stepDifferences
  by_cases hmem : s.id ∈ b.stepIds
  · obtain ⟨t, ht, hid⟩ := List.mem_map.1 hmem
    have hlast : Step.lastWithId b.steps s.id = some t := hid ▸ Step.lastWithId_of_mem hnd ht
    simp only [hlast, Step.hasErrors_differences_iff, hmem, true_and]
    constructor
    · intro h t' ht' hid'
      rwa [List.inj_on_of_nodup_map hnd ht' ht (hid'.symm.trans hid.symm)]
    · intro h
      exact h t ht hid.symm
  · have hlast : Step.lastWithId b.steps s.id = none := Step.lastWithId_eq_none.2 hmem
    simp [hlast, hmem, hasErrors, DifferenceKind.isError]

/-- No error is found exactly if the workflows agree. -/
theorem hasErrors_differences_iff (hb : b.stepIds.Nodup) :
    hasErrors (a.differences tolerance b) = false ↔ a.Agrees b := by
  have hsteps : hasErrors (a.steps.flatMap (stepDifferences tolerance b)) = false ↔
      ∀ s ∈ a.steps, s.id ∈ b.stepIds ∧ ∀ t ∈ b.steps, s.id = t.id → s.Agrees t := by
    rw [hasErrors, List.any_flatMap, List.any_eq_false]
    refine forall₂_congr fun s _ => ?_
    rw [← hasErrors_stepDifferences tolerance hb s, hasErrors, Bool.not_eq_true]
  have hadded : hasErrors ((b.steps.filter fun s => !a.stepIds.contains s.id).map
      fun s => ⟨.stepAdded, s.path, .null, .str s.id⟩) = false ↔
      ∀ t ∈ b.steps, t.id ∈ a.stepIds := by
    simp [hasErrors, DifferenceKind.isError]
  simp only [differences, hasErrors_append, hasErrors_differenceIf, DifferenceKind.isError,
    Bool.and_true, Bool.and_false, Bool.or_false, Bool.or_eq_false_iff, bne_eq_false_iff_eq,
    Bool.not_eq_false', hsteps, hadded]
  constructor
  · rintro ⟨⟨⟨⟨hversion, htrigger⟩, hmetadata⟩, hsteps⟩, hadded⟩
    refine ⟨hversion, htrigger, hmetadata, fun id => ⟨fun h => ?_, fun h => ?_⟩, fun s hs =>
      (hsteps s hs).2⟩
    · obtain ⟨s, hs, rfl⟩ := List.mem_map.1 h
      exact (hsteps s hs).1
    · obtain ⟨t, ht, rfl⟩ := List.mem_map.1 h
      exact hadded t ht
  · intro h
    refine ⟨⟨⟨⟨h.version, h.trigger⟩, h.metadata⟩, fun s hs => ⟨?_, h.step s hs⟩⟩, fun t ht => ?_⟩
    · exact (h.stepIds s.id).1 (List.mem_map_of_mem hs)
    · exact (h.stepIds t.id).2 (List.mem_map_of_mem ht)

/-! ## Positions that can be compared -/

theorem hasDistance_of_isHuge {m n : Number} (hm : m.isHuge = false) (hn : n.isHuge = false) :
    m.hasDistance n = true := by
  cases m <;> cases n <;> simp [Number.hasDistance, hm, hn]

/-- A comparison comes to its end if all coordinates are within the doubles. -/
theorem compare_eq {ε : Type} (ha : a.WithinDoubles) (hb : b.WithinDoubles) (tolerance : Number) :
    (a.compare tolerance b : Attempt ε (List Difference)) = .ok (a.differences tolerance b) := by
  refine if_pos (List.all_eq_true.2 fun s hs => ?_)
  unfold positionComparable
  split
  · rename_i p q hp hq
    obtain ⟨t, ht, hq⟩ := Option.bind_eq_some_iff.1 hq
    have hmem : t ∈ b.steps := List.mem_reverse.1 (List.mem_of_find?_eq_some ht)
    obtain ⟨hpx, hpy⟩ := ha s hs p hp
    obtain ⟨hqx, hqy⟩ := hb t hmem q hq
    rw [Position.isComparable, hasDistance_of_isHuge hpx hqx, hasDistance_of_isHuge hpy hqy,
      Bool.or_true]
    rfl
  · rfl

/-- What a comparison that comes to its end has found. -/
theorem eq_differences_of_compare {ε : Type} {found : List Difference}
    (h : (a.compare tolerance b : Attempt ε (List Difference)) = .ok found) :
    found = a.differences tolerance b := by
  unfold compare at h
  split at h
  · exact (Except.ok.inj h).symm
  · cases h

/-! ## Rearranged workflows -/

theorem Rearranged.symm (h : a.Rearranged b) : b.Rearranged a where
  version := h.version.symm
  trigger := h.trigger.symm
  metadata := h.metadata.symm
  stepIds := h.stepIds.symm
  step s hs t ht hid := by
    have hst := h.step t ht s hs hid.symm
    exact ⟨hst.name.symm, hst.type.symm, hst.config.symm, fun id => (hst.dependencies id).symm⟩

/-- Agreement is kept when both workflows are rearranged. -/
theorem Agrees.rearranged {a' b' : Workflow} (ha : a.Rearranged a') (hb : b.Rearranged b')
    (h : a.Agrees b) : a'.Agrees b' where
  version := by rw [ha.version, hb.version, h.version]
  trigger := by rw [ha.trigger, hb.trigger]; exact h.trigger
  metadata := by
    rw [metadataValue, metadataValue, ha.metadata, hb.metadata]
    exact h.metadata
  stepIds id := by rw [ha.stepIds.mem_iff, hb.stepIds.mem_iff, h.stepIds]
  step s' hs' t' ht' hid := by
    obtain ⟨s, hs, hids⟩ := List.mem_map.1 (ha.stepIds.mem_iff.1 (List.mem_map_of_mem hs'))
    obtain ⟨t, ht, hidt⟩ := List.mem_map.1 (hb.stepIds.mem_iff.1 (List.mem_map_of_mem ht'))
    have hst := h.step s hs t ht (hids.trans (hid.trans hidt.symm))
    have hs := ha.step s hs s' hs' hids.symm
    have ht := hb.step t ht t' ht' hidt.symm
    refine ⟨?_, ?_, ?_, fun id => ?_⟩
    · rw [hs.name, ht.name, hst.name]
    · rw [hs.type, ht.type, hst.type]
    · rw [hs.config, ht.config]
      exact hst.config
    · rw [hs.dependencies, ht.dependencies, hst.dependencies]

/-! ## An equivalence -/

theorem noNaN_trigger {t : Trigger} (h : (Value.record t.config).NoNaN) : t.toValue.NoNaN := by
  refine Value.noNaN_record.2 (List.forall_mem_cons.2 ⟨Value.noNaN_scalar.2 rfl, ?_⟩)
  exact List.forall_mem_singleton.2 h

theorem distinctKeys_trigger {t : Trigger} (h : (Value.record t.config).DistinctKeys) :
    t.toValue.DistinctKeys := by
  refine Value.distinctKeys_record.2 ⟨by simp, List.forall_mem_cons.2 ⟨.scalar _, ?_⟩⟩
  exact List.forall_mem_singleton.2 h

/-- Metadata hold texts under two names. -/
theorem noNaN_metadataValue (w : Workflow) : w.metadataValue.NoNaN := by
  unfold metadataValue
  cases w.metadata with
  | none =>
    show (Value.record []).NoNaN
    simp
  | some m =>
    obtain ⟨description, tags⟩ := m
    refine Value.noNaN_record.2 ?_
    cases description <;> cases tags <;>
      simp [Value.optionalField, Scalar.isNaN, Value.noNaN_texts]

theorem distinctKeys_metadataValue (w : Workflow) : w.metadataValue.DistinctKeys := by
  unfold metadataValue
  cases w.metadata with
  | none =>
    show (Value.record []).DistinctKeys
    simp
  | some m =>
    obtain ⟨description, tags⟩ := m
    refine Value.distinctKeys_record.2 ?_
    cases description <;> cases tags <;> simp [Value.optionalField, Value.distinctKeys_texts]

theorem Comparable.agrees_self (h : a.Comparable) : a.Agrees a where
  version := rfl
  trigger := Value.deepEqual_self (noNaN_trigger h.trigger.1) (distinctKeys_trigger h.trigger.2)
  metadata := Value.deepEqual_self (noNaN_metadataValue a) (distinctKeys_metadataValue a)
  stepIds _ := Iff.rfl
  step s hs t ht hid := by
    obtain rfl := List.inj_on_of_nodup_map h.stepIds hs ht hid
    obtain ⟨hn, hk⟩ := h.step s hs
    exact ⟨rfl, rfl, Value.deepEqual_self hn hk, fun _ => Iff.rfl⟩

theorem Agrees.symm (hb : b.Comparable) (h : a.Agrees b) : b.Agrees a where
  version := h.version.symm
  trigger := Value.deepEqual_symm (distinctKeys_trigger hb.trigger.2) h.trigger
  metadata := Value.deepEqual_symm (distinctKeys_metadataValue b) h.metadata
  stepIds id := (h.stepIds id).symm
  step t ht s hs hid := by
    have hst := h.step s hs t ht hid.symm
    exact ⟨hst.name.symm, hst.type.symm, Value.deepEqual_symm (hb.step t ht).2 hst.config,
      fun id => (hst.dependencies id).symm⟩

theorem Agrees.trans (h : a.Agrees b) (h' : b.Agrees c) : a.Agrees c where
  version := h.version.trans h'.version
  trigger := Value.deepEqual_trans h.trigger h'.trigger
  metadata := Value.deepEqual_trans h.metadata h'.metadata
  stepIds id := (h.stepIds id).trans (h'.stepIds id)
  step s hs u hu hid := by
    obtain ⟨t, ht, hidt⟩ := List.mem_map.1 ((h.stepIds s.id).1 (List.mem_map_of_mem hs))
    have hst := h.step s hs t ht hidt.symm
    have htu := h'.step t ht u hu (hidt.trans hid)
    exact ⟨hst.name.trans htu.name, hst.type.trans htu.type,
      Value.deepEqual_trans hst.config htu.config,
      fun id => (hst.dependencies id).trans (htu.dependencies id)⟩

/-- A comparison that comes to its end has found no error exactly if the workflows agree. So it does
not look at the order of steps and dependencies, at repeated dependencies, positions and the
tolerance. Where coordinates are within the doubles it does come to its end, and to be found without
errors is an equivalence on comparable workflows. -/
theorem hasErrors_compare (tolerance : Number) (hb : b.stepIds.Nodup) :
    (∀ found, (a.compare tolerance b : Result _) = .ok found →
      (hasErrors found = false ↔ a.Agrees b) ∧
      ∀ tolerance' a' b' found', a.Rearranged a' → b.Rearranged b' →
        (a'.compare tolerance' b' : Result _) = .ok found' →
        hasErrors found' = hasErrors found) ∧
      (a.WithinDoubles → b.WithinDoubles →
        ∃ found, (a.compare tolerance b : Result _) = .ok found) ∧
      Equivalence fun v w : {w : Workflow // w.Comparable ∧ w.WithinDoubles} =>
        ∃ found, (v.1.compare tolerance w.1 : Result _) = .ok found ∧ hasErrors found = false := by
  have hfree : ∀ v w : {w : Workflow // w.Comparable ∧ w.WithinDoubles},
      (∃ found, (v.1.compare tolerance w.1 : Result _) = .ok found ∧ hasErrors found = false) ↔
        v.1.Agrees w.1 := by
    intro v w
    rw [compare_eq v.2.2 w.2.2]
    simp only [Except.ok.injEq, exists_eq_left', hasErrors_differences_iff w.2.1.stepIds]
  refine ⟨fun found hfound => ?_, fun ha hb => ⟨_, compare_eq ha hb tolerance⟩, ?_⟩
  · obtain rfl := eq_differences_of_compare hfound
    refine ⟨hasErrors_differences_iff hb, fun tolerance' a' b' found' ha' hb' hfound' => ?_⟩
    obtain rfl := eq_differences_of_compare hfound'
    have hnd : b'.stepIds.Nodup := hb'.stepIds.nodup_iff.2 hb
    rw [Bool.eq_iff_iff, ← Bool.not_eq_false, ← Bool.not_eq_false, not_iff_not,
      hasErrors_differences_iff hnd, hasErrors_differences_iff hb]
    exact ⟨fun h => h.rearranged ha'.symm hb'.symm, fun h => h.rearranged ha' hb'⟩
  · constructor
    · intro v
      exact (hfree v v).2 v.2.1.agrees_self
    · intro v w h
      exact (hfree w v).2 (((hfree v w).1 h).symm w.2.1)
    · intro u v w h h'
      exact (hfree u w).2 (((hfree u v).1 h).trans ((hfree v w).1 h'))

/-- A report that is sent when the weather and the news are there. -/
def morning : Workflow where
  version := "1.0"
  trigger := ⟨.schedule, [("hour", .int 6), ("days", .list [.str "mon", .str "fri"])]⟩
  steps := [
    ⟨"news", "News", "api_call", [], none, some ⟨.int 0, .int 0⟩⟩,
    ⟨"weather", "Weather", "api_call", [], some [], none⟩,
    ⟨"send", "Send", "smtp_email", [("to", .str "me"), ("retries", .int 2)],
      some ["news", "weather"], some ⟨.int 0, .int 90⟩⟩]
  metadata := none

/-- The same in another order, with keys in another order, a repeated dependency, a number of the
other kind and other positions. -/
def morningAgain : Workflow where
  version := "1.0"
  trigger := ⟨.schedule, [("days", .list [.str "mon", .str "fri"]), ("hour", .int 6)]⟩
  steps := [
    ⟨"weather", "Weather", "api_call", [], none, some ⟨.int 7, .int 7⟩⟩,
    ⟨"news", "News", "api_call", [], none, none⟩,
    ⟨"send", "Send", "smtp_email", [("retries", .float (.ofInt 2)), ("to", .str "me")],
      some ["weather", "news", "weather"], some ⟨.int 0, .int 900⟩⟩]
  metadata := some ⟨none, none⟩

theorem hasErrors_compare_morning :
    ∃ found, (morning.compare .zero morningAgain : Result _) = .ok found ∧
      hasErrors found = false ∧ morning.Agrees morningAgain ∧
      found.map Difference.kind = [.position, .position, .order] ∧
      ∃ back, (morningAgain.compare .zero morning : Result _) = .ok back ∧
        hasErrors back = false := by
  have hnd : morningAgain.stepIds.Nodup := by decide
  have hmorning : morning.Comparable ∧ morning.WithinDoubles :=
    ⟨⟨by decide, by simp [morning, Scalar.isNaN, Number.isNaN],
      by simp [morning, Scalar.isNaN, Number.isNaN, or_imp, forall_and]⟩, by decide +kernel⟩
  have hagain : morningAgain.Comparable ∧ morningAgain.WithinDoubles :=
    ⟨⟨hnd, by simp [morningAgain, Scalar.isNaN, Number.isNaN], by
      have htwo : (Double.ofInt 2).isNaN = false := by decide +kernel
      simp [morningAgain, Scalar.isNaN, Number.isNaN, htwo, or_imp, forall_and]⟩,
      by decide +kernel⟩
  obtain ⟨hfinds, hends, hequivalence⟩ := @hasErrors_compare morning morningAgain .zero hnd
  obtain ⟨found, hfound⟩ := hends hmorning.2 hagain.2
  obtain rfl := eq_differences_of_compare hfound
  have hfine : hasErrors (morning.differences .zero morningAgain) = false := by decide +kernel
  exact ⟨_, hfound, hfine, (hfinds _ hfound).1.1 hfine, by decide +kernel,
    @hequivalence.symm ⟨_, hmorning⟩ ⟨_, hagain⟩ ⟨_, hfound, hfine⟩⟩

end Workflow

end StepGraph
