import StepGraph.Proofs.Workflow.Order

/-!
# The order of steps as a recursion

`descend` looks at the dependencies of a step one after another, descends into those that have
not been met, and emits the step at last; `orderByDescent` starts it at each listed step in turn.
There is no stack, no mark and no bound: the steps that are under way are those on the path, and
the finished ones those emitted.

* `descend_eq`: the recursion on steps is the one on their ids (`Order.descend`), with the first
  step of each id in its place.
* `order_eq_orderByDescent`: `order` and `orderByDescent` agree, in order and in error.
-/

set_option autoImplicit false

namespace StepGraph.Step

section
variable (steps : List Step) (dependencies : String → List String)

/-- What is emitted once `s`, the last step of the path, has looked at the pending dependencies.
The path leads from the step that was visited to `s`. -/
def descend (path : List String) (s : Step) (emitted : List Step) :
    List String → Result (List Step)
  | [] => .ok (emitted ++ [s])
  | d :: pending =>
    match _ : steps.find? (·.id == d) with
    | none => report (.unknownDependency s.id d)
    | some t =>
      if d ∈ emitted.map Step.id then descend path s emitted pending
      else if _ : d ∈ path then report (.cycle (path.dropWhile (· != d) ++ [d]))
      else
        descend (path ++ [d]) t emitted (dependencies d) >>= fun emitted =>
          descend path s emitted pending
  termination_by pending =>
    (((steps.map Step.id).filter fun id => id ∉ path.reverse).length, pending.length)
  decreasing_by
    · exact .right _ (Nat.lt_succ_self _)
    · rename_i hd _ hp
      refine .left _ _ ?_
      rw [List.reverse_concat]
      exact Order.length_notMem_cons_lt (mem_ids_of_find? hd) (mt List.mem_reverse.1 hp)
    · exact .right _ (Nat.lt_succ_self _)

/-- Visits a step unless one with its id has been emitted. -/
def descendFrom (emitted : List Step) (s : Step) : Result (List Step) :=
  if s.id ∈ emitted.map Step.id then .ok emitted
  else descend steps dependencies [s.id] s emitted (dependencies s.id)

def orderByDescent : Result (List Step) :=
  steps.foldlM (descendFrom steps dependencies) []

end

/-- The outcome of an order of ids, the last id first, as one of steps. -/
def ofIds (steps : List Step) : Except (Order.Obstacle String) (List String) → Result (List Step)
  | .ok ids => .ok (firsts steps ids.reverse)
  | .error obstacle => report (obstacleError obstacle)

section
variable {steps : List Step} {dependencies : String → List String}

theorem descend_cons {d : String} {t : Step} (ht : steps.find? (·.id == d) = some t)
    (path : List String) (s : Step) (emitted : List Step) (pending : List String) :
    descend steps dependencies path s emitted (d :: pending) =
      if d ∈ emitted.map Step.id then descend steps dependencies path s emitted pending
      else if d ∈ path then report (.cycle (path.dropWhile (· != d) ++ [d]))
      else descend steps dependencies (path ++ [d]) t emitted (dependencies d) >>= fun emitted =>
        descend steps dependencies path s emitted pending := by
  rw [descend]
  split
  · rename_i hnone
    cases hnone.symm.trans ht
  · rename_i u hu
    cases hu.symm.trans ht
    rfl

theorem descend_cons_unknown {d : String} (hd : d ∉ steps.map Step.id) (path : List String)
    (s : Step) (emitted : List Step) (pending : List String) :
    descend steps dependencies path s emitted (d :: pending) =
      report (.unknownDependency s.id d) := by
  rw [descend]
  split
  · rfl
  · rename_i t ht
    exact absurd (mem_ids_of_find? ht) hd

theorem mem_ids_firsts_reverse {ids : List String} (hids : ∀ id ∈ ids, id ∈ steps.map Step.id)
    {d : String} : d ∈ (firsts steps ids.reverse).map Step.id ↔ d ∈ ids := by
  rw [map_id_firsts fun id hid => hids id (List.mem_reverse.1 hid), List.mem_reverse]

theorem firsts_reverse_cons {s : Step} (hs : steps.find? (·.id == s.id) = some s)
    (ids : List String) : firsts steps (s.id :: ids).reverse = firsts steps ids.reverse ++ [s] := by
  simp [firsts, hs]

theorem descend_eq {path ids pending : List String} {s : Step}
    (hs : steps.find? (·.id == s.id) = some s) (hids : ∀ id ∈ ids, id ∈ steps.map Step.id) :
    descend steps dependencies path.reverse s (firsts steps ids.reverse) pending =
      ofIds steps (Order.descend (steps.map Step.id) dependencies path s.id ids pending) := by
  -- the recursion on ids says when an id is met again; a step adds the look-up of its id
  generalize hitem : s.id = item
  fun_induction Order.descend (steps.map Step.id) dependencies path item ids pending
    generalizing s with
  | case1 path item ids =>
    subst hitem
    rw [descend, ofIds, firsts_reverse_cons hs]
  | case2 path item ids d pending hd hm ih =>
    obtain ⟨t, ht⟩ := exists_find? hd
    rw [descend_cons ht, if_pos ((mem_ids_firsts_reverse hids).2 hm)]
    exact ih hs hids hitem
  | case3 path item ids d pending hd hm hp =>
    obtain ⟨t, ht⟩ := exists_find? hd
    rw [descend_cons ht, if_neg (mt (mem_ids_firsts_reverse hids).1 hm),
      if_pos (List.mem_reverse.2 hp)]
    rfl
  | case4 path item ids d pending hd hm hp ih₁ ih₂ =>
    obtain ⟨t, ht⟩ := exists_find? hd
    have hinner := ih₁ ((find?_id ht).symm ▸ ht) hids (find?_id ht)
    rw [descend_cons ht, if_neg (mt (mem_ids_firsts_reverse hids).1 hm),
      if_neg (mt List.mem_reverse.1 hp), ← List.reverse_cons, hinner]
    cases hr : Order.descend (steps.map Step.id) dependencies (d :: path) d ids
        (dependencies d) with
    | error o => rfl
    | ok l => exact ih₂ l hs (Order.descend_listed hd hids hr) hitem
  | case5 path item ids d pending hd =>
    subst hitem
    rw [descend_cons_unknown hd]
    rfl

/-- The visits of the steps from some step on, the ids before it being among those emitted. -/
theorem foldlM_descendFrom {before after : List Step} {ids : List String}
    (hsplit : steps = before ++ after) (hids : ∀ id ∈ ids, id ∈ steps.map Step.id)
    (hbefore : ∀ id ∈ before.map Step.id, id ∈ ids) :
    after.foldlM (descendFrom steps dependencies) (firsts steps ids.reverse) =
      ofIds steps ((after.map Step.id).foldlM
        (Order.descendFrom (steps.map Step.id) dependencies) ids) := by
  induction after generalizing before ids with
  | nil => rfl
  | cons s after ih =>
    have hs : s.id ∈ steps.map Step.id := by rw [hsplit]; simp
    have hnext : ∀ {l : List String}, (∀ id ∈ l, id ∈ steps.map Step.id) → (∀ id ∈ ids, id ∈ l) →
        s.id ∈ l → after.foldlM (descendFrom steps dependencies) (firsts steps l.reverse) =
          ofIds steps ((after.map Step.id).foldlM
            (Order.descendFrom (steps.map Step.id) dependencies) l) := by
      intro l hl hsub hsl
      refine @ih (before ++ [s]) l (by rw [hsplit, List.append_assoc]; rfl) hl ?_
      intro id hid
      rw [List.map_append, List.mem_append] at hid
      rcases hid with hid | hid
      · exact hsub id (hbefore id hid)
      · obtain rfl := List.mem_singleton.1 hid
        exact hsl
    rw [List.map_cons, List.foldlM_cons, List.foldlM_cons, descendFrom, Order.descendFrom]
    by_cases hm : s.id ∈ ids
    · rw [if_pos hm, if_pos ((mem_ids_firsts_reverse hids).2 hm)]
      exact hnext hids (fun _ hid => hid) hm
    · -- a step whose id has not been emitted is the first one with it
      have hfirst : steps.find? (·.id == s.id) = some s := by
        rw [hsplit]; exact find?_of_notMem (mt (hbefore s.id) hm)
      have hvisit : descend steps dependencies [s.id] s (firsts steps ids.reverse)
          (dependencies s.id) = ofIds steps (Order.descend (steps.map Step.id) dependencies [s.id]
            s.id ids (dependencies s.id)) :=
        @descend_eq steps dependencies [s.id] ids (dependencies s.id) s hfirst hids
      rw [if_neg hm, if_neg (mt (mem_ids_firsts_reverse hids).1 hm), hvisit]
      cases hr : Order.descend (steps.map Step.id) dependencies [s.id] s.id ids
          (dependencies s.id) with
      | error o => rfl
      | ok l =>
        exact hnext (Order.descend_listed hs hids hr) (Order.descend_subset hr)
          (Order.mem_descend hr)

end

/-- The walk with a stack and the recursion give the same steps in the same order, or the same
error. -/
theorem order_eq_orderByDescent (steps : List Step) (dependencies : String → List String) :
    order steps dependencies = orderByDescent steps dependencies := by
  have hall : orderByDescent steps dependencies = ofIds steps ((steps.map Step.id).foldlM
      (Order.descendFrom (steps.map Step.id) dependencies) []) :=
    foldlM_descendFrom (List.nil_append steps).symm (List.forall_mem_nil _) (List.forall_mem_nil _)
  rw [hall, order, Order.sort_eq, Order.sortByDescent]
  cases (steps.map Step.id).foldlM (Order.descendFrom (steps.map Step.id) dependencies) [] <;> rfl

end StepGraph.Step
