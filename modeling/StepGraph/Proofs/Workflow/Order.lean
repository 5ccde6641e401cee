import StepGraph.Proofs.Order.Recursion
import StepGraph.Workflow.Dependency

/-!
# Steps in dependency order

`Step.order` finds an order of ids (`Order.sort`) and puts the first step of each id in its place
(`firsts`), so what holds of the ids holds of the steps:

* `order_sorted`: a list that `order` returns holds the first step of each id, once, and nothing
  else, and every step comes after the steps that it depends on.
* `order_fails`: when there is no order, and what the error says of the ids.
* `order_eq_of_distinct`: what the map of dependencies repeats, or says of other ids, does not count.
* `order_of_earlier`: steps that come after what they depend on stay in their order.
-/

set_option autoImplicit false

namespace StepGraph.Step

/-- The first step of each id. -/
def firsts (steps : List Step) (ids : List String) : List Step :=
  ids.filterMap fun id => steps.find? (·.id == id)

theorem find?_id {steps : List Step} {id : String} {s : Step}
    (h : steps.find? (·.id == id) = some s) : s.id = id := by
  simpa using List.find?_some h

theorem exists_find? {steps : List Step} {id : String} (h : id ∈ steps.map Step.id) :
    ∃ s, steps.find? (·.id == id) = some s := by
  obtain ⟨s, hs, rfl⟩ := List.mem_map.1 h
  exact Option.isSome_iff_exists.1 (List.find?_isSome.2 ⟨s, hs, by simp⟩)

theorem mem_ids_of_find? {steps : List Step} {id : String} {s : Step}
    (h : steps.find? (·.id == id) = some s) : id ∈ steps.map Step.id :=
  List.mem_map.2 ⟨s, List.mem_of_find?_eq_some h, find?_id h⟩

theorem find?_of_notMem {before after : List Step} {s : Step}
    (h : s.id ∉ before.map Step.id) :
    (before ++ s :: after).find? (·.id == s.id) = some s := by
  have hbefore : before.find? (·.id == s.id) = none :=
    List.find?_eq_none.2 fun t ht he => h (List.mem_map.2 ⟨t, ht, by simpa using he⟩)
  rw [List.find?_append, hbefore]
  simp

theorem firsts_cons {steps : List Step} {id : String} {s : Step}
    (h : steps.find? (·.id == id) = some s) (ids : List String) :
    firsts steps (id :: ids) = s :: firsts steps ids := by
  simp [firsts, h]

theorem map_id_firsts {steps : List Step} {ids : List String}
    (h : ∀ id ∈ ids, id ∈ steps.map Step.id) : (firsts steps ids).map Step.id = ids := by
  induction ids with
  | nil => rfl
  | cons id ids ih =>
    obtain ⟨s, hs⟩ := exists_find? (h id List.mem_cons_self)
    rw [firsts_cons hs, List.map_cons, find?_id hs, ih fun i hi => h i (List.mem_cons_of_mem id hi)]

theorem filter_firsts_of_notMem {steps : List Step} {ids : List String} {id : String}
    (h : id ∉ ids) : (firsts steps ids).filter (·.id == id) = [] := by
  rw [List.filter_eq_nil_iff]
  intro s hs he
  obtain ⟨i, hi, hf⟩ := List.mem_filterMap.1 hs
  have hid : i = id := (find?_id hf).symm.trans (by simpa using he)
  exact h (hid ▸ hi)

/-- Of the steps with an id the first one is there, if any is. -/
theorem filter_firsts {steps : List Step} {ids : List String} (hnd : ids.Nodup)
    (hids : ∀ id, id ∈ ids ↔ id ∈ steps.map Step.id) (id : String) :
    (firsts steps ids).filter (·.id == id) = (steps.find? (·.id == id)).toList := by
  by_cases hid : id ∈ ids
  · obtain ⟨s, hs⟩ := exists_find? ((hids id).1 hid)
    obtain ⟨before, after, rfl⟩ := List.append_of_mem hid
    obtain ⟨-, hafter, hne⟩ := List.nodup_append.1 hnd
    have hb : id ∉ before := fun h => hne id h id List.mem_cons_self rfl
    have hsplit : firsts steps (before ++ id :: after) =
        firsts steps before ++ s :: firsts steps after := by
      rw [← firsts_cons hs, firsts, List.filterMap_append]; rfl
    rw [hs, hsplit, List.filter_append, filter_firsts_of_notMem hb,
      List.filter_cons_of_pos (by simpa using find?_id hs),
      filter_firsts_of_notMem (List.nodup_cons.1 hafter).1]
    rfl
  · rw [filter_firsts_of_notMem hid, eq_comm, Option.toList_eq_nil_iff, List.find?_eq_none]
    intro s hs he
    exact hid ((hids id).2 (List.mem_map.2 ⟨s, hs, by simpa using he⟩))

/-- A step that has an id and a name and does nothing. -/
def bare (id name : String) : Step :=
  ⟨id, name, "log", [], none, none⟩

section
variable {steps ordered : List Step} {dependencies : String → List String}

theorem order_eq_ok (h : order steps dependencies = .ok ordered) :
    ∃ ids, Order.sort (steps.map Step.id) dependencies = .ok ids ∧ ordered = firsts steps ids := by
  unfold order at h
  split at h
  · rename_i ids hs
    cases h; exact ⟨ids, hs, rfl⟩
  · cases h

theorem order_eq_error {e : Failure Error} (h : order steps dependencies = .error e) :
    ∃ o, Order.sort (steps.map Step.id) dependencies = .error o ∧ e = .error (obstacleError o) := by
  unfold order at h
  split at h
  · cases h
  · rename_i o hs
    cases h; exact ⟨o, hs, rfl⟩

theorem order_eq_error_iff :
    (∃ e, order steps dependencies = .error e) ↔
      ∃ o, Order.sort (steps.map Step.id) dependencies = .error o := by
  refine ⟨fun ⟨e, h⟩ => ?_, fun ⟨o, h⟩ => ⟨.error (obstacleError o), ?_⟩⟩
  · obtain ⟨o, ho, -⟩ := order_eq_error h
    exact ⟨o, ho⟩
  · rw [order, h]; rfl

/-- The ids of steps in dependency order. -/
theorem map_id_of_order (h : order steps dependencies = .ok ordered) :
    (ordered.map Step.id).Nodup ∧ (∀ id, id ∈ ordered.map Step.id ↔ id ∈ steps.map Step.id) ∧
      Order.DependenciesFirst dependencies (ordered.map Step.id) := by
  obtain ⟨ids, hs, rfl⟩ := order_eq_ok h
  obtain ⟨hnd, hmem, hdf⟩ := Order.sort_ok hs
  rw [map_id_firsts fun id hid => (hmem id).1 hid]
  exact ⟨hnd, hmem, hdf⟩

theorem mem_of_order {s : Step} (h : order steps dependencies = .ok ordered) (hs : s ∈ ordered) :
    s ∈ steps := by
  obtain ⟨ids, -, rfl⟩ := order_eq_ok h
  obtain ⟨id, -, hf⟩ := List.mem_filterMap.1 hs
  exact List.mem_of_find?_eq_some hf

/-- No step is lost if ids are distinct. -/
theorem perm_of_order (hnd : (steps.map Step.id).Nodup) (h : order steps dependencies = .ok ordered) :
    ordered.Perm steps := by
  obtain ⟨hids, hmem, -⟩ := map_id_of_order h
  rw [List.perm_ext_iff_of_nodup hids.of_map hnd.of_map]
  refine fun s => ⟨mem_of_order h, fun hs => ?_⟩
  obtain ⟨t, ht, hid⟩ := List.mem_map.1 ((hmem s.id).2 (List.mem_map_of_mem hs))
  rwa [← List.inj_on_of_nodup_map hnd (mem_of_order h ht) hs hid]

/-- The steps that a step depends on come before it. -/
theorem earlier_of_order {before after : List Step} {s : Step} {d : String}
    (h : order steps dependencies = .ok ordered) (hsplit : ordered = before ++ s :: after)
    (hd : d ∈ dependencies s.id) : ∃ t ∈ before, t.id = d := by
  obtain ⟨-, -, hdf⟩ := map_id_of_order h
  have hb := hdf (before.map Step.id) s.id (after.map Step.id) (by rw [hsplit]; simp) d hd
  simpa using hb

end

/-! ## Steps with the same ids -/

section
variable {R : Step → Step → Prop} (hR : ∀ s t, R s t → t.id = s.id) {steps others : List Step}
  (hsame : List.Forall₂ R steps others)
include hR hsame

theorem map_id_of_forall₂ : others.map Step.id = steps.map Step.id := by
  induction hsame with
  | nil => rfl
  | cons hst _ ih => rw [List.map_cons, List.map_cons, hR _ _ hst, ih]

theorem find?_of_forall₂ (id : String) :
    Option.Rel R (steps.find? (·.id == id)) (others.find? (·.id == id)) := by
  induction hsame with
  | nil => exact .none
  | @cons s t steps others hst _ ih =>
    simp only [List.find?_cons, hR s t hst]
    split
    · exact .some hst
    · exact ih

theorem firsts_of_forall₂ (ids : List String) :
    List.Forall₂ R (firsts steps ids) (firsts others ids) := by
  induction ids with
  | nil => exact .nil
  | cons id ids ih =>
    have hfind := find?_of_forall₂ hR hsame id
    simp only [firsts, List.filterMap_cons] at ih ⊢
    generalize steps.find? (·.id == id) = found, others.find? (·.id == id) = found' at hfind
    cases hfind with
    | none => exact ih
    | some hst => exact .cons hst ih

/-- Steps are put in the same order when each is replaced by one with its id. -/
theorem order_of_forall₂ {dependencies : String → List String} {ordered : List Step}
    (h : order steps dependencies = .ok ordered) :
    ∃ ordered', order others dependencies = .ok ordered' ∧ List.Forall₂ R ordered ordered' := by
  obtain ⟨ids, hs, rfl⟩ := order_eq_ok h
  refine ⟨firsts others ids, ?_, firsts_of_forall₂ hR hsame ids⟩
  rw [order, map_id_of_forall₂ hR hsame, hs]
  rfl

end

/-- Changing steps without their ids changes nothing about the order. -/
theorem order_map {steps ordered : List Step} {dependencies : String → List String}
    {g : Step → Step} (hg : ∀ s, (g s).id = s.id) (h : order steps dependencies = .ok ordered) :
    order (steps.map g) dependencies = .ok (ordered.map g) := by
  have hid : ∀ s t, g s = t → t.id = s.id := fun s t ht => ht ▸ hg s
  have hsame : List.Forall₂ (fun s t => g s = t) steps (steps.map g) :=
    List.forall₂_map_right_iff.2 (List.forall₂_same.2 fun _ _ => rfl)
  obtain ⟨ordered', hordered', hsame'⟩ := order_of_forall₂ hid hsame h
  have hmap : ordered.map g = ordered' := by
    rwa [← List.forall₂_eq_eq_eq, List.forall₂_map_left_iff]
  rw [hordered', hmap]

/-! ## Listed steps -/

section
variable {steps ordered : List Step} {dependencies : String → List String}

/-- The step that a listed step is looked up as, if ids are distinct. -/
theorem find?_of_mem {s : Step} (hnd : (steps.map Step.id).Nodup) (hs : s ∈ steps) :
    steps.find? (·.id == s.id) = some s := by
  obtain ⟨t, ht⟩ := exists_find? (List.mem_map_of_mem (f := Step.id) hs)
  rw [ht, List.inj_on_of_nodup_map hnd (List.mem_of_find?_eq_some ht) hs (find?_id ht)]

theorem firsts_map_id (h : ∀ s ∈ ordered, steps.find? (·.id == s.id) = some s) :
    firsts steps (ordered.map Step.id) = ordered := by
  rw [firsts, List.filterMap_map]
  exact (List.filterMap_congr h).trans List.filterMap_some

theorem order_of_earlier (hnd : (steps.map Step.id).Nodup)
    (h : ∀ before s after, steps = before ++ s :: after →
      ∀ d ∈ dependencies s.id, ∃ t ∈ before, t.id = d) :
    order steps dependencies = .ok steps := by
  have hfirst : Order.DependenciesFirst dependencies (steps.map Step.id) := by
    intro before id after hsplit d hd
    obtain ⟨before, rest, hsteps, rfl, hrest⟩ := List.map_eq_append_iff.1 hsplit
    obtain ⟨s, after, rfl, rfl, rfl⟩ := List.map_eq_cons_iff.1 hrest
    exact List.mem_map.2 (h before s after hsteps d hd)
  rw [order, Order.sort_of_dependenciesFirst hnd hfirst]
  exact congrArg Except.ok (firsts_map_id fun _ hs => find?_of_mem hnd hs)

theorem order_distinct (steps : List Step) (dependencies : String → List String) :
    order steps (fun id => Order.distinct (dependencies id)) = order steps dependencies := by
  rw [order, order, Order.sort_distinct]

/-- An order holds the first step of each id once and nothing else, each step after those that it
depends on. -/
theorem order_sorted (h : order steps dependencies = .ok ordered) :
    (∀ id, ordered.filter (·.id == id) = (steps.find? (·.id == id)).toList) ∧
      ∀ before s after, ordered = before ++ s :: after →
        ∀ d ∈ dependencies s.id, ∃ t ∈ before, t.id = d := by
  obtain ⟨ids, hs, he⟩ := order_eq_ok h
  obtain ⟨hnd, hmem, -⟩ := Order.sort_ok hs
  exact ⟨he ▸ filter_firsts hnd hmem, fun _ _ _ hsplit _ hd => earlier_of_order h hsplit hd⟩

end

/-- Of two steps `deploy` the first is put after the step that both depend on. -/
theorem order_sorted_deploy :
    order [bare "deploy" "first", bare "build" "only", bare "deploy" "second"]
        (dependenciesIn [("deploy", ["build", "build"])])
      = .ok [bare "build" "only", bare "deploy" "first"] ∧
    [bare "build" "only", bare "deploy" "first"].filter (·.id == "deploy")
      = [bare "deploy" "first"] ∧
    ∃ t ∈ [bare "build" "only"], t.id = "build" :=
  have h : order [bare "deploy" "first", bare "build" "only", bare "deploy" "second"]
      (dependenciesIn [("deploy", ["build", "build"])])
      = .ok [bare "build" "only", bare "deploy" "first"] := by rfl
  ⟨h, (order_sorted h).1 "deploy",
    (order_sorted h).2 [bare "build" "only"] _ [] rfl "build" (by decide)⟩

/-- What a map of dependencies repeats, and what it says of ids that are not listed, changes neither
the order nor the error. -/
theorem order_eq_of_distinct {steps : List Step} {dependencies dependencies' : String → List String}
    (h : ∀ id ∈ steps.map Step.id,
      Order.distinct (dependencies id) = Order.distinct (dependencies' id)) :
    order steps dependencies = order steps dependencies' := by
  rw [order, order, Order.sort_eq_of_distinct h]

/-- `deploy` needs `build` more than once, and `ghost` is not listed; `test` and `lint` need each
other. -/
theorem order_eq_of_distinct_cycle :
    let steps := ["deploy", "test", "build", "lint"].map (bare · "step")
    let sparse := dependenciesIn [("deploy", ["build", "test"]), ("test", ["lint"]),
      ("lint", ["build", "test"])]
    let repeating := dependenciesIn [("deploy", ["build", "build", "test", "build"]),
      ("ghost", ["deploy", "spectre"]), ("lint", ["build", "test", "test"]), ("test", ["lint"])]
    (∀ id ∈ steps.map Step.id, Order.distinct (sparse id) = Order.distinct (repeating id)) ∧
      sparse "deploy" ≠ repeating "deploy" ∧ sparse "ghost" ≠ repeating "ghost" ∧
      order steps sparse = report (.cycle ["test", "lint", "test"]) ∧
      order steps repeating = report (.cycle ["test", "lint", "test"]) := by
  intro steps sparse repeating
  have hids : ∀ id ∈ steps.map Step.id,
      Order.distinct (sparse id) = Order.distinct (repeating id) := by decide
  have hcycle : order steps sparse = report (.cycle ["test", "lint", "test"]) := by rfl
  have hsame : order steps sparse = order steps repeating := order_eq_of_distinct hids
  exact ⟨hids, by decide, by decide, hcycle, hsame ▸ hcycle⟩

/-- Ordering fails exactly when a listed id depends on an unlisted one or on itself through listed
ones; the error names such a dependency, or a cycle without a lead-in. -/
theorem order_fails (steps : List Step) (dependencies : String → List String) :
    ((∃ e, order steps dependencies = .error e) ↔
      (∃ s ∈ steps.map Step.id, ∃ d ∈ dependencies s, d ∉ steps.map Step.id) ∨
        ∃ s, Relation.TransGen (fun s d => s ∈ steps.map Step.id ∧ d ∈ steps.map Step.id ∧
          d ∈ dependencies s) s s) ∧
      ∀ e, order steps dependencies = .error e →
        (∃ s d, e = .error (.unknownDependency s d) ∧ s ∈ steps.map Step.id ∧
          d ∈ dependencies s ∧ d ∉ steps.map Step.id) ∨
        ∃ c, e = .error (.cycle c) ∧ 2 ≤ c.length ∧ c.head? = c.getLast? ∧ c.dropLast.Nodup ∧
          (∀ s ∈ c.dropLast, s ∈ steps.map Step.id) ∧ c.IsChain fun s d => d ∈ dependencies s := by
  refine ⟨order_eq_error_iff.trans Order.sort_error_iff, fun e h => ?_⟩
  obtain ⟨o, ho, rfl⟩ := order_eq_error h
  have hg := Order.sort_genuine ho
  cases o with
  | unknown s d => exact .inl ⟨s, d, rfl, hg⟩
  | cycle path => exact .inr ⟨path, rfl, hg⟩

end StepGraph.Step
