import Mathlib.Data.List.Induction
import StepGraph.Proofs.Fault
import StepGraph.Proofs.Order.Repeats
import StepGraph.Proofs.Value.Record
import StepGraph.Proofs.Workflow.Order

/-!
# The dependencies of listed steps

The checks succeed on steps with distinct ids (`assertDistinctIds_eq_ok`) that have an order
(`assertDependencies_eq_ok`), and name the ids that repeat, in the order in which a reader meets them
again (`assertDistinctIds_reports`, `assertDependencies_of_repeats`). They have an answer for all
steps (`assertDependencies_answers`).

Where ids are distinct, the dependency map of a list of steps gives each step what it lists itself
(`dependenciesIn_of_mem`), and an id without a step nothing (`dependenciesIn_of_notMem`). So steps
with distinct ids that come after the steps they depend on stay in their order
(`orderByDependencies_of_earlier`), and the checks succeed on them
(`assertDependencies_of_earlier`).
-/

set_option autoImplicit false

namespace StepGraph

namespace Step

theorem assertDistinctIds_eq_ok {steps : List Step} :
    assertDistinctIds steps = .ok () ↔ (steps.map Step.id).Nodup := by
  rw [← Order.repeats_eq_nil, assertDistinctIds]
  cases Order.repeats (steps.map Step.id) with
  | nil => simp
  | cons id ids => exact ⟨fun h => (by cases h), fun h => (by cases h)⟩

/-- Steps are refused exactly if an id comes at least twice. The error names all such ids, each once,
in the order of their second occurrences. -/
theorem assertDistinctIds_reports (steps : List Step) :
    (assertDistinctIds steps = .ok () ∨
      ∃ ids, assertDistinctIds steps = report (.duplicateIds ids)) ∧
    ((∃ ids, assertDistinctIds steps = report (.duplicateIds ids)) ↔
      ∃ id, 2 ≤ (steps.map Step.id).count id) ∧
    ∀ ids, assertDistinctIds steps = report (.duplicateIds ids) →
      Order.IsRepeats (steps.map Step.id) ids := by
  have hrepeats := Order.isRepeats_repeats (steps.map Step.id)
  rw [assertDistinctIds]
  cases hids : Order.repeats (steps.map Step.id) with
  | nil =>
    rw [hids] at hrepeats
    have hnone : ¬ ∃ id, 2 ≤ (steps.map Step.id).count id := fun ⟨id, hid⟩ =>
      List.not_mem_nil ((hrepeats.mem_iff id).2 hid)
    exact ⟨.inl rfl, iff_of_false (fun ⟨_, h⟩ => nomatch h) hnone, fun _ h => nomatch h⟩
  | cons id ids =>
    rw [hids] at hrepeats
    have hid : 2 ≤ (steps.map Step.id).count id := (hrepeats.mem_iff id).1 List.mem_cons_self
    refine ⟨.inr ⟨_, rfl⟩, iff_of_true ⟨_, rfl⟩ ⟨id, hid⟩, fun found h => ?_⟩
    cases h
    exact hrepeats

/-- `build` comes first, but `test` comes again before it does. -/
theorem assertDistinctIds_reports_test :
    let steps := ["build", "test", "deploy", "test", "build", "build"].map (bare · "step")
    assertDistinctIds steps = report (.duplicateIds ["test", "build"]) ∧
      2 ≤ (steps.map Step.id).count "build" ∧
      Order.IsRepeats (steps.map Step.id) ["test", "build"] := by
  intro steps
  have hreport : assertDistinctIds steps = report (.duplicateIds ["test", "build"]) := by rfl
  exact ⟨hreport, by decide, (assertDistinctIds_reports steps).2.2 _ hreport⟩

theorem assertDependencies_eq_ok {steps : List Step} : assertDependencies steps = .ok () ↔
    (steps.map Step.id).Nodup ∧ ∃ ordered, orderByDependencies steps = .ok ordered := by
  simp only [assertDependencies, Attempt.bind_eq_ok, ← assertDistinctIds_eq_ok]
  constructor
  · rintro ⟨⟨⟩, hids, ordered, hordered, -⟩
    exact ⟨hids, ordered, hordered⟩
  · rintro ⟨hids, ordered, hordered⟩
    exact ⟨(), hids, ordered, hordered, rfl⟩

theorem assertDependencies_of_repeats {steps : List Step} (h : ¬ (steps.map Step.id).Nodup) :
    assertDependencies steps = report (.duplicateIds (Order.repeats (steps.map Step.id))) := by
  rw [← Order.repeats_eq_nil] at h
  rw [assertDependencies, assertDistinctIds]
  cases hr : Order.repeats (steps.map Step.id) with
  | nil => exact absurd hr h
  | cons id ids => rfl

theorem assertDistinctIds_answers (steps : List Step) : (assertDistinctIds steps).Answers := by
  unfold assertDistinctIds
  split
  · exact Attempt.answers_ok ()
  · exact Attempt.answers_report _

theorem orderByDependencies_answers (steps : List Step) : (orderByDependencies steps).Answers := by
  unfold orderByDependencies order
  split
  · exact Attempt.answers_ok _
  · exact Attempt.answers_report _

theorem assertDependencies_answers (steps : List Step) : (assertDependencies steps).Answers := by
  apply (assertDistinctIds_answers steps).bind
  intro _ _
  exact (orderByDependencies_answers steps).bind fun _ _ => Attempt.answers_ok ()

/-! ## Steps with the same ids and dependencies -/

section
variable {R : Step → Step → Prop} (hid : ∀ s t, R s t → t.id = s.id)
  (hdeps : ∀ s t, R s t → t.dependsOn = s.dependsOn) {steps others : List Step}
  (hsame : List.Forall₂ R steps others)
include hid hdeps hsame

theorem dependencyMap_of_forall₂ : dependencyMap others = dependencyMap steps := by
  refine (List.rel_foldl (P := Eq) ?_ rfl hsame).symm
  rintro found _ rfl s t hst
  simp only [hid s t hst, hdeps s t hst]

/-- The checks look at nothing else. -/
theorem assertDependencies_of_forall₂ :
    assertDependencies others = assertDependencies steps := by
  have hids := map_id_of_forall₂ hid hsame
  have hmap := dependencyMap_of_forall₂ hid hdeps hsame
  rw [assertDependencies, assertDependencies, assertDistinctIds, assertDistinctIds, hids,
    orderByDependencies, orderByDependencies, hmap, order, order, hids]
  cases Order.sort (steps.map Step.id) (dependenciesIn (dependencyMap steps)) <;> rfl

end

/-! ## The map -/

section
variable {found : List (String × List String)} {id key : String} {ids : List String}

theorem lookup_map_replace :
    (found.map fun entry => if entry.1 == id then (id, ids) else entry).lookup key =
      if key = id ∧ found.any (·.1 == id) then some ids else found.lookup key := by
  induction found with
  | nil => simp
  | cons entry found ih =>
    obtain ⟨k, old⟩ := entry
    rw [List.map_cons, lookup_cons_if key k, List.any_cons]
    by_cases hk : k = id
    · subst hk
      simp only [beq_self_eq_true, if_true, lookup_cons_if, ih, Bool.true_or, and_true]
      split
      · rfl
      · simp [*]
    · simp only [beq_eq_false_iff_ne.2 hk, Bool.false_eq_true, if_false, lookup_cons_if, ih,
        Bool.false_or]
      by_cases hkey : key = k
      · subst hkey; simp [hk]
      · simp [hkey]

theorem lookup_eq_none_of_any (h : ¬ found.any (·.1 == id) = true) : found.lookup id = none := by
  rw [List.lookup_eq_none_iff]
  intro entry hentry
  have hne : entry.1 ≠ id := fun he => h (List.any_eq_true.2 ⟨entry, hentry, by simpa using he⟩)
  simpa using Ne.symm hne

end

/-- What a further step adds to the map. -/
theorem dependenciesIn_concat (steps : List Step) (s : Step) (id : String) :
    dependenciesIn (dependencyMap (steps ++ [s])) id =
      if id = s.id ∧ s.dependsOn.getD [] ≠ [] then s.dependsOn.getD []
      else dependenciesIn (dependencyMap steps) id := by
  rw [dependencyMap, List.foldl_append, List.foldl_cons, List.foldl_nil, ← dependencyMap]
  cases hd : s.dependsOn with
  | none => simp
  | some ids =>
    cases ids with
    | nil => simp
    | cons d ids =>
      simp only [Option.getD_some, ne_eq, reduceCtorEq, not_false_eq_true, and_true,
        dependenciesIn]
      split
      · rename_i hany
        rw [lookup_map_replace]
        by_cases hid : id = s.id
        · simp [hid, hany]
        · simp [hid]
      · rename_i hany
        rw [List.lookup_append, lookup_cons_if, List.lookup_nil]
        by_cases hid : id = s.id
        · rw [hid, lookup_eq_none_of_any hany]; simp
        · simp [hid]

theorem dependenciesIn_of_notMem {steps : List Step} {id : String}
    (h : id ∉ steps.map Step.id) : dependenciesIn (dependencyMap steps) id = [] := by
  induction steps using List.reverseRecOn with
  | nil => rfl
  | append_singleton steps s ih =>
    simp only [List.map_append, List.map_cons, List.map_nil, List.mem_append, List.mem_singleton,
      not_or] at h
    rw [dependenciesIn_concat, if_neg fun hs => h.2 hs.1, ih h.1]

theorem dependenciesIn_of_mem {steps : List Step} {s : Step} (hnd : (steps.map Step.id).Nodup)
    (hs : s ∈ steps) : dependenciesIn (dependencyMap steps) s.id = s.dependsOn.getD [] := by
  induction steps using List.reverseRecOn with
  | nil => cases hs
  | append_singleton steps t ih =>
    rw [List.map_append, List.map_cons, List.map_nil, List.nodup_append] at hnd
    obtain ⟨hnd, -, hne⟩ := hnd
    rw [dependenciesIn_concat]
    rcases List.mem_append.1 hs with hs | hs
    · have hid : s.id ≠ t.id := hne s.id (List.mem_map_of_mem hs) t.id List.mem_cons_self
      rw [if_neg fun h => hid h.1, ih hnd hs]
    · obtain rfl := List.mem_singleton.1 hs
      by_cases hd : s.dependsOn.getD [] = []
      · have hs' : s.id ∉ steps.map Step.id := fun h => hne s.id h s.id List.mem_cons_self rfl
        rw [if_neg fun h => h.2 hd, dependenciesIn_of_notMem hs', hd]
      · rw [if_pos ⟨rfl, hd⟩]

theorem orderByDependencies_of_earlier {steps : List Step} (hnd : (steps.map Step.id).Nodup)
    (h : ∀ before s after, steps = before ++ s :: after →
      ∀ d ∈ s.dependsOn.getD [], ∃ t ∈ before, t.id = d) :
    orderByDependencies steps = .ok steps := by
  refine order_of_earlier hnd fun before s after hsplit d hd => ?_
  have hs : s ∈ steps := by rw [hsplit]; simp
  exact h before s after hsplit d (dependenciesIn_of_mem hnd hs ▸ hd)

/-- The positions of steps that come after what they depend on. -/
theorem exists_getElem?_of_earlier {steps : List Step}
    (h : ∀ before s after, steps = before ++ s :: after →
      ∀ d ∈ s.dependsOn.getD [], ∃ t ∈ before, t.id = d) {i : Nat} {s : Step} {d : String}
    (hs : steps[i]? = some s) (hd : d ∈ s.dependsOn.getD []) :
    ∃ j < i, ∃ t, steps[j]? = some t ∧ t.id = d := by
  obtain ⟨hi, rfl⟩ := List.getElem?_eq_some_iff.1 hs
  have hsplit : steps = steps.take i ++ steps[i] :: steps.drop (i + 1) := by
    rw [← List.drop_eq_getElem_cons hi, List.take_append_drop]
  obtain ⟨t, ht, hid⟩ := h _ _ _ hsplit d hd
  obtain ⟨j, hj⟩ := List.mem_iff_getElem?.1 ht
  rw [List.getElem?_take] at hj
  split at hj
  · rename_i hlt
    exact ⟨j, hlt, t, hj, hid⟩
  · cases hj

theorem earlier_of_orderByDependencies {steps ordered before after : List Step} {s : Step}
    {d : String} (hnd : (steps.map Step.id).Nodup) (h : orderByDependencies steps = .ok ordered)
    (hsplit : ordered = before ++ s :: after) (hd : d ∈ s.dependsOn.getD []) :
    ∃ t ∈ before, t.id = d := by
  have hs : s ∈ ordered := by rw [hsplit]; simp
  refine earlier_of_order h hsplit ?_
  rwa [dependenciesIn_of_mem hnd (mem_of_order h hs)]

/-- Steps that were put in order stay in it. -/
theorem orderByDependencies_again {steps ordered : List Step} (hnd : (steps.map Step.id).Nodup)
    (h : orderByDependencies steps = .ok ordered) : orderByDependencies ordered = .ok ordered :=
  orderByDependencies_of_earlier (map_id_of_order h).1 fun _ _ _ hsplit _ hd =>
    earlier_of_orderByDependencies hnd h hsplit hd

theorem assertDependencies_of_earlier {steps : List Step} (hnd : (steps.map Step.id).Nodup)
    (h : ∀ before s after, steps = before ++ s :: after →
      ∀ d ∈ s.dependsOn.getD [], ∃ t ∈ before, t.id = d) :
    assertDependencies steps = .ok () :=
  assertDependencies_eq_ok.2 ⟨hnd, steps, orderByDependencies_of_earlier hnd h⟩

end Step

end StepGraph
