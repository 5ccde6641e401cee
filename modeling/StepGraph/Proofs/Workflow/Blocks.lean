import StepGraph.Proofs.Order.Blocks
import StepGraph.Proofs.Workflow.Order

/-!
# How far steps are moved

Putting steps in order leaves them where they were listed as far as their dependencies allow. The
order is one block of steps after another, a block for each listed step (`Order.sort_blocks`, with
steps in the place of ids), and a step comes before one that was listed earlier only for the sake of
this one or of a step before it.

* `order_blockwise`: what the order of steps with distinct ids is made of (`Blockwise`).
-/

set_option autoImplicit false

namespace StepGraph.Step

/-- Steps in an order that moves them no further than their dependencies ask. -/
structure Blockwise (dependencies : String → List String) (steps ordered : List Step) : Prop where
  /-- Each listed step in turn brings along what it reaches and no earlier step does. -/
  blocks : ∃ blocks : List (List Step), blocks.flatten = ordered ∧ blocks.length = steps.length ∧
    ∀ (i : Nat) (s : Step) (block : List Step), steps[i]? = some s → blocks[i]? = some block →
      (∀ t, t ∈ block ↔ t ∈ steps ∧ Order.Reaches dependencies s.id t.id ∧
        ∀ e ∈ steps.take i, ¬ Order.Reaches dependencies e.id t.id) ∧
      (block ≠ [] → block.getLast? = some s)
  nodup : ordered.Nodup
  /-- A step that overtakes an earlier one is needed by it or by a step before it. -/
  overtakes : ∀ s t, [s, t].Sublist steps → [t, s].Sublist ordered →
    ∃ e, (e = s ∨ [e, s].Sublist steps) ∧ Order.DependsOn dependencies e.id t.id
  unmoved : (∀ before s after, steps = before ++ s :: after →
    ∀ d ∈ dependencies s.id, ∃ t ∈ before, t.id = d) → ordered = steps

section
variable {steps : List Step} {ids : List String} {s : Step}

theorem mem_firsts (hnd : (steps.map Step.id).Nodup) :
    s ∈ firsts steps ids ↔ s ∈ steps ∧ s.id ∈ ids := by
  constructor
  · intro hs
    obtain ⟨id, hid, hf⟩ := List.mem_filterMap.1 hs
    exact ⟨List.mem_of_find?_eq_some hf, find?_id hf ▸ hid⟩
  · rintro ⟨hs, hid⟩
    exact List.mem_filterMap.2 ⟨s.id, hid, find?_of_mem hnd hs⟩

theorem firsts_flatten (steps : List Step) (blocks : List (List String)) :
    firsts steps blocks.flatten = (blocks.map (firsts steps)).flatten := by
  rw [firsts, List.filterMap_flatten]
  rfl

theorem getLast?_firsts (hnd : (steps.map Step.id).Nodup) (hs : s ∈ steps)
    (h : ids.getLast? = some s.id) : (firsts steps ids).getLast? = some s := by
  obtain ⟨before, rfl⟩ := List.getLast?_eq_some_iff.1 h
  have hlast : firsts steps (before ++ [s.id]) = firsts steps before ++ [s] := by
    rw [firsts, List.filterMap_append]
    simp [firsts, find?_of_mem hnd hs]
  rw [hlast, List.getLast?_concat]

end

variable {steps ordered : List Step} {dependencies : String → List String}

/-- The blocks of ids with a step in the place of each id. -/
theorem exists_blocks (hnd : (steps.map Step.id).Nodup)
    (h : order steps dependencies = .ok ordered) :
    ∃ blocks : List (List Step), blocks.flatten = ordered ∧ blocks.length = steps.length ∧
      ∀ (i : Nat) (s : Step) (block : List Step), steps[i]? = some s → blocks[i]? = some block →
        (∀ t, t ∈ block ↔ t ∈ steps ∧ Order.Reaches dependencies s.id t.id ∧
          ∀ e ∈ steps.take i, ¬ Order.Reaches dependencies e.id t.id) ∧
        (block ≠ [] → block.getLast? = some s) := by
  obtain ⟨ids, hids, rfl⟩ := order_eq_ok h
  obtain ⟨blocks, rfl, hblocks⟩ := Order.sort_blocks hids
  obtain ⟨hlen, hget⟩ := hblocks.getElem?
  refine ⟨blocks.map (firsts steps), (firsts_flatten steps blocks).symm, by simpa using hlen,
    fun i s block hs hb => ?_⟩
  obtain ⟨ids, hids, rfl⟩ := Option.map_eq_some_iff.1 (List.getElem?_map.symm.trans hb)
  obtain ⟨hmem, hlast⟩ := hget i s.id ids (by rw [List.getElem?_map, hs]; rfl) hids
  refine ⟨fun t => ?_, fun hne => ?_⟩
  · rw [mem_firsts hnd, hmem, List.nil_append, ← List.map_take, List.forall_mem_map]
  · have hsteps : s ∈ steps := List.mem_of_getElem? hs
    exact getLast?_firsts hnd hsteps (hlast fun hnil => hne (by rw [hnil]; rfl))

theorem overtakes_of_order {s t : Step} (hnd : (steps.map Step.id).Nodup)
    (h : order steps dependencies = .ok ordered) (hst : [s, t].Sublist steps)
    (hts : [t, s].Sublist ordered) :
    ∃ e, (e = s ∨ [e, s].Sublist steps) ∧ Order.DependsOn dependencies e.id t.id := by
  obtain ⟨ids, hids, rfl⟩ := order_eq_ok h
  have hmem := (Order.sort_ok hids).2.1
  have hts' := hts.map Step.id
  rw [map_id_firsts fun id hid => (hmem id).1 hid] at hts'
  obtain ⟨id, hid, hdep⟩ := Order.sort_overtakes hnd hids (hst.map Step.id) hts'
  rcases hid with rfl | hid
  · exact ⟨s, .inl rfl, hdep⟩
  · obtain ⟨pair, hpair, he⟩ := List.sublist_map_iff.1 hid
    obtain ⟨e, rest, rfl, rfl, hrest⟩ := List.map_eq_cons_iff.1 he.symm
    obtain ⟨s', tail, rfl, hs', htail⟩ := List.map_eq_cons_iff.1 hrest
    obtain rfl := List.map_eq_nil_iff.1 htail
    have hmem' : s' ∈ steps := hpair.subset (by simp)
    obtain rfl := List.inj_on_of_nodup_map hnd hmem' (hst.subset (by simp)) hs'
    exact ⟨e, .inr hpair, hdep⟩

/-- Steps with distinct ids are put in order block by block. -/
theorem order_blockwise (hnd : (steps.map Step.id).Nodup)
    (h : order steps dependencies = .ok ordered) : Blockwise dependencies steps ordered where
  blocks := exists_blocks hnd h
  nodup := (map_id_of_order h).1.of_map
  overtakes _ _ := overtakes_of_order hnd h
  unmoved hearlier := by
    have hsame := order_of_earlier hnd hearlier
    exact Except.ok.inj (h.symm.trans hsame)

/-- A release: `deploy` needs `test` and `build`, and `test` needs `build`. -/
def release : List Step :=
  ["deploy", "lint", "build", "test"].map (bare · "step")

def releaseNeeds : String → List String :=
  dependenciesIn [("deploy", ["test", "build"]), ("test", ["build"])]

def released : List Step :=
  ["build", "test", "deploy", "lint"].map (bare · "step")

/-- `build` and `test` overtake `lint` for the sake of `deploy`, and bring nothing along later. -/
theorem order_blockwise_release :
    (release.map Step.id).Nodup ∧ order release releaseNeeds = .ok released ∧
      Blockwise releaseNeeds release released :=
  have h : order release releaseNeeds = .ok released := by rfl
  ⟨by decide, h, order_blockwise (by decide) h⟩

end StepGraph.Step
