import StepGraph.Proofs.Workflow.Dependency
import StepGraph.Workflow.Legacy

/-!
# The blocks of a stage in pre-order

The blocks of a stage make a forest: a block holds the blocks under its keys (`inside`). `preorder`
lists a forest by recursion on what a block holds, each block with the number of the block around
it, and `visitBlocks` works on a list of pending blocks instead, to the front of which it puts the
blocks inside the visited one.

* `preorder_cons`: the forest may be taken as such a list.
* `parent_preorder`: the number with a block is that of a block before it, which holds it.
* `visitBlocks_ok`: a visit without issues makes a step of each block (`IsStep`), in pre-order.
-/

set_option autoImplicit false

namespace StepGraph.Legacy

open Value

/-- The values in the lists of blocks inside a block, key by key. -/
def inside : Value → List Value
  | .map block => childKeys.flatMap fun key => Schema.itemsOf (fieldOf block key)
  | _ => []

/-! ## Sizes -/

theorem sizeItems_append (items others : List Value) :
    sizeItems (items ++ others) = sizeItems items + sizeItems others := by
  induction items with
  | nil => simp [sizeItems]
  | cons v items ih => simp only [List.cons_append, sizeItems, ih]; omega

theorem sizeItems_itemsOf_le (v : Value) : sizeItems (Schema.itemsOf v) ≤ size v := by
  cases v <;> simp [Schema.itemsOf, sizeItems, size]

theorem fieldOf_cons (k : Scalar) (v : Value) (block : Entries) (key : String) :
    fieldOf ((k, v) :: block) key = if k.sameKey (.str key) then v else fieldOf block key := by
  simp only [fieldOf, Entries.get?, Entries.find?]
  split <;> rfl

theorem sameKey_str_inj {k : Scalar} {a b : String} (ha : k.sameKey (.str a) = true)
    (hb : k.sameKey (.str b) = true) : a = b := by
  simp only [Scalar.sameKey, beq_iff_eq] at ha hb
  simpa [Scalar.asKey] using ha.symm.trans hb

/-- A further field makes what stands under some keys larger by no more than its value. -/
theorem sizeItems_fields_cons_le (k : Scalar) (v : Value) (block : Entries) {keys : List String}
    (hnd : keys.Nodup) :
    sizeItems (keys.flatMap fun key => Schema.itemsOf (fieldOf ((k, v) :: block) key)) ≤
      size v + sizeItems (keys.flatMap fun key => Schema.itemsOf (fieldOf block key)) := by
  induction keys with
  | nil => simp [sizeItems]
  | cons a keys ih =>
    obtain ⟨ha, hnd⟩ := List.nodup_cons.1 hnd
    have ih := ih hnd
    simp only [List.flatMap_cons, sizeItems_append, fieldOf_cons] at ih ⊢
    by_cases hk : k.sameKey (.str a) = true
    · -- the field is under `a`, so under no other key
      have hother : ∀ b ∈ keys, ¬ k.sameKey (.str b) = true := fun b hb hkb =>
        ha (sameKey_str_inj hk hkb ▸ hb)
      have hrest : (keys.flatMap fun b => Schema.itemsOf
          (if k.sameKey (.str b) = true then v else fieldOf block b)) =
          keys.flatMap fun b => Schema.itemsOf (fieldOf block b) :=
        List.flatMap_congr fun b hb => by rw [if_neg (hother b hb)]
      have hv := sizeItems_itemsOf_le v
      rw [if_pos hk, hrest]
      omega
    · rw [if_neg hk]
      omega

/-- Distinct keys lead to distinct fields, so their lists fit into the block together. -/
theorem sizeItems_fields_le (block : Entries) {keys : List String} (hnd : keys.Nodup) :
    sizeItems (keys.flatMap fun key => Schema.itemsOf (fieldOf block key)) ≤ sizeEntries block := by
  induction block with
  | nil =>
    have h : keys.flatMap (fun key => Schema.itemsOf (fieldOf [] key)) = [] :=
      List.flatMap_eq_nil_iff.2 fun _ _ => rfl
    rw [h]; exact Nat.le_refl 0
  | cons entry block ih =>
    obtain ⟨k, v⟩ := entry
    have h := sizeItems_fields_cons_le k v block hnd
    simp only [sizeEntries]
    omega

theorem sizeItems_inside_lt (v : Value) : sizeItems (inside v) < size v := by
  cases v with
  | scalar s => simp [inside, sizeItems, size]
  | list items => simp [inside, sizeItems, size]
  | map block =>
    have hnd : childKeys.Nodup := by decide
    have h := sizeItems_fields_le block hnd
    simp only [inside, size]
    omega

/-! ## Forests -/

/-- A block of a forest, and the number of the block around it. -/
structure Placed where
  block : Value
  parent : Option Nat

/-- How large the blocks of a forest are together. -/
def forestSize (forest : List Placed) : Nat :=
  sizeItems (forest.map Placed.block)

theorem forestSize_append (forest others : List Placed) :
    forestSize (forest ++ others) = forestSize forest + forestSize others := by
  rw [forestSize, List.map_append, sizeItems_append]; rfl

/-- The blocks inside the block with a number. -/
def placedInside (number : Nat) (block : Value) : List Placed :=
  (inside block).map (⟨·, some number⟩)

theorem forestSize_placedInside_lt (number : Nat) (p : Placed) (rest : List Placed) :
    forestSize (placedInside number p.block) + forestSize rest < forestSize (p :: rest) := by
  have h := sizeItems_inside_lt p.block
  have hmap : (placedInside number p.block).map Placed.block = inside p.block := by
    simp [placedInside, Function.comp_def]
  simp only [forestSize, hmap, List.map_cons, sizeItems]
  omega

/-- The blocks of a forest in pre-order: each block, the blocks inside it, the blocks after it.
`number` blocks have been numbered. -/
def preorder (number : Nat) : List Placed → List Placed
  | [] => []
  | p :: rest =>
    let below := preorder (number + 1) (placedInside (number + 1) p.block)
    p :: below ++ preorder (number + 1 + below.length) rest
  termination_by forest => forestSize forest
  decreasing_by
    all_goals
      have h := forestSize_placedInside_lt (number + 1) p rest
      omega

theorem preorder_append (number : Nat) (forest others : List Placed) :
    preorder number (forest ++ others) =
      preorder number forest ++ preorder (number + (preorder number forest).length) others := by
  induction forest generalizing number with
  | nil => simp [preorder]
  | cons p forest ih =>
    rw [List.cons_append, preorder, preorder, ih]
    simp [Nat.add_assoc, Nat.add_comm]

theorem preorder_cons (number : Nat) (p : Placed) (rest : List Placed) :
    preorder number (p :: rest) =
      p :: preorder (number + 1) (placedInside (number + 1) p.block ++ rest) := by
  rw [preorder, preorder_append]
  rfl

theorem preorder_eq_nil {number : Nat} {forest : List Placed} :
    preorder number forest = [] ↔ forest = [] := by
  cases forest <;> simp [preorder]

/-! ## Steps of blocks -/

/-- What the step of a block depends on: on the block around it; the first block of a stage on a
step `previous` before the stage; another block on nothing. -/
def needs (stem : String) (previous : Option String) (number : Nat) :
    Option Nat → Option (List String)
  | some parent => some [stepId stem parent]
  | none => if number = 1 then previous.map ([·]) else none

/-- The step of the block with a number. -/
structure IsStep (stem : String) (previous : Option String) (number : Nat) (p : Placed)
    (d : Draft) : Prop where
  id : d.id = stepId stem number
  dependsOn : d.dependsOn = needs stem previous number p.parent
  block : ∃ fields, p.block = .map fields ∧
    d.name = orElse (fieldOf fields "name") (.str ("step_" ++ toString number)) ∧
    d.type = stepType (fieldOf fields "type") ∧
    settings (fieldOf fields "type") (orElse (fieldOf fields "input") (.map [])) = .ok d.config

theorem isStep_of_draft {stem : String} {number : Nat} {p : Placed} {fields : Entries} {d : Draft}
    (hb : p.block = .map fields)
    (h : draft fields (stepId stem number) number (p.parent.map (stepId stem)) = .ok d) :
    IsStep stem none number p d := by
  rw [draft, Attempt.bind_eq_ok] at h
  obtain ⟨config, hconfig, h⟩ := h
  cases h
  refine ⟨rfl, ?_, fields, hb, rfl, rfl, hconfig⟩
  cases p.parent <;> simp [needs]

/-! ## The visit -/

theorem childrenUnder_fst (block : Entries) (id : String) (path : Path) (key : String) :
    (childrenUnder block id path key).1 =
      pendingItems (Schema.itemsOf (fieldOf block key)) (some id) (path ++ [.name key]) := by
  rw [childrenUnder, field?, fieldOf]
  cases block.get? key with
  | none => rfl
  | some v =>
    cases v with
    | scalar s => cases s <;> rfl
    | list items => rfl
    | map entries => rfl

/-- Pending blocks stand for a forest, whatever their paths. -/
def Stand (stem : String) (pending : List Pending) (forest : List Placed) : Prop :=
  pending.map (fun q => (q.block, q.parent)) =
    forest.map fun p => (p.block, p.parent.map (stepId stem))

theorem Stand.append {stem : String} {pending others : List Pending}
    {forest more : List Placed} (h : Stand stem pending forest) (h' : Stand stem others more) :
    Stand stem (pending ++ others) (forest ++ more) := by
  rw [Stand, List.map_append, List.map_append, h, h']

theorem stand_pendingItems (stem : String) (items : List Value) (parent : Option Nat)
    (path : Path) :
    Stand stem (pendingItems items (parent.map (stepId stem)) path) (items.map (⟨·, parent⟩)) := by
  have h : ∀ k, (items.zipIdx k).map (fun item => (item.1, parent.map (stepId stem))) =
      items.map (·, parent.map (stepId stem)) := by
    intro k
    conv_rhs => rw [← List.zipIdx_map_fst k items, List.map_map]
    rfl
  simpa [Stand, pendingItems, Function.comp_def] using h 0

theorem stand_children (stem : String) (block : Entries) (number : Nat) (path : Path) :
    Stand stem (children block (stepId stem number) path).1
      (placedInside number (.map block)) := by
  have h := fun key => stand_pendingItems stem (Schema.itemsOf (fieldOf block key)) (some number)
    (path ++ [.name key])
  simp only [Stand, children, List.flatMap_map, List.map_flatMap, placedInside, inside,
    childrenUnder_fst] at h ⊢
  exact List.flatMap_congr fun key _ => h key

section
variable {stem : String} {steps number : Nat} {q : Pending} {pending : List Pending}
  {drafts : List Draft} {issues : List Issue}

/-- Everything that the visit of one block can do. -/
theorem visitBlocks_cons (h : visitBlocks stem (steps + 1) number (q :: pending)
      = .ok (drafts, issues)) :
    (∃ fields d ds is, q.block = .map fields ∧
      draft fields (stepId stem (number + 1)) (number + 1) q.parent = .ok d ∧
      visitBlocks stem steps (number + 1)
        ((children fields (stepId stem (number + 1)) q.path).1 ++ pending) = .ok (ds, is) ∧
      drafts = d :: ds ∧
      issues = (children fields (stepId stem (number + 1)) q.path).2 ++ is) ∨
    ∃ is, visitBlocks stem steps number pending = .ok (drafts, is) ∧
      issues = .mistyped q.path "object" q.block :: is := by
  obtain ⟨block, parent, path⟩ := q
  have hother : ∀ {v : Value}, (visitBlocks stem steps number pending >>= fun r =>
      .ok (r.1, Issue.mistyped path "object" v :: r.2)) = .ok (drafts, issues) →
      ∃ is, visitBlocks stem steps number pending = .ok (drafts, is) ∧
        issues = .mistyped path "object" v :: is := by
    intro v hv
    obtain ⟨⟨ds, is⟩, hr, hv⟩ := Attempt.bind_eq_ok.1 hv
    cases hv
    exact ⟨is, hr, rfl⟩
  cases block with
  | map fields =>
    simp only [visitBlocks, Attempt.bind_eq_ok] at h
    obtain ⟨d, hd, ⟨ds, is⟩, hr, h⟩ := h
    cases h
    exact .inl ⟨fields, d, ds, is, rfl, hd, hr, rfl, rfl⟩
  | scalar s => exact .inr (hother h)
  | list items => exact .inr (hother h)

/-- The visit of pending blocks makes a step of each, in pre-order. -/
theorem visitBlocks_ok {forest : List Placed} (hsize : forestSize forest < steps)
    (hp : Stand stem pending forest)
    (h : visitBlocks stem steps number pending = .ok (drafts, [])) :
    List.Forall₂ (fun p d => IsStep stem none p.2 p.1 d)
      ((preorder number forest).zipIdx (number + 1)) drafts := by
  -- a visit replaces a block by the smaller ones inside it, so the bound of steps is never met
  induction steps generalizing number pending forest drafts with
  | zero => exact absurd hsize (Nat.not_lt_zero _)
  | succ steps ih =>
    cases forest with
    | nil =>
      obtain rfl := List.map_eq_nil_iff.1 hp
      cases h
      rw [preorder]
      exact .nil
    | cons p forest =>
      obtain ⟨q, rest, rfl, hq, hrest⟩ := List.map_eq_cons_iff.1 hp
      obtain ⟨hblock, hparent⟩ := Prod.mk.inj hq
      obtain ⟨fields, d, ds, is, hmap, hd, hr, rfl, hi⟩ | ⟨is, -, hi⟩ := visitBlocks_cons h
      · obtain ⟨-, rfl⟩ := List.append_eq_nil_iff.1 hi.symm
        have hlt := forestSize_placedInside_lt (number + 1) p forest
        have hstand : Stand stem
            ((children fields (stepId stem (number + 1)) q.path).1 ++ rest)
            (placedInside (number + 1) p.block ++ forest) := by
          rw [← hblock, hmap]
          exact (stand_children stem fields (number + 1) q.path).append hrest
        rw [preorder_cons, List.zipIdx_cons]
        refine .cons (isStep_of_draft (hblock ▸ hmap) (hparent ▸ hd)) (ih ?_ hstand hr)
        rw [forestSize_append]
        omega
      · cases hi

end

/-! ## Parents -/

/-- The number with a block is that of a block before it, which holds the block; only the forest
itself brings other numbers. -/
theorem parent_preorder {forest : List Placed} {number k n : Nat} {p : Placed}
    (hk : (preorder number forest)[k]? = some p) (hn : p.parent = some n) :
    p ∈ forest ∨ ∃ j q, j < k ∧ n = number + j + 1 ∧ (preorder number forest)[j]? = some q ∧
      p.block ∈ inside q.block := by
  induction k generalizing number forest with
  | zero =>
    cases forest with
    | nil => simp [preorder] at hk
    | cons q forest =>
      rw [preorder_cons, List.getElem?_cons_zero] at hk
      cases hk
      exact .inl List.mem_cons_self
  | succ k ih =>
    cases forest with
    | nil => simp [preorder] at hk
    | cons q forest =>
      rw [preorder_cons, List.getElem?_cons_succ] at hk
      rcases ih hk with hp | ⟨j, r, hj, rfl, hr, hin⟩
      · rcases List.mem_append.1 hp with hp | hp
        · obtain ⟨block, hblock, rfl⟩ := List.mem_map.1 hp
          cases hn
          refine .inr ⟨0, q, Nat.succ_pos k, rfl, ?_, hblock⟩
          rw [preorder_cons, List.getElem?_cons_zero]
        · exact .inl (List.mem_cons_of_mem q hp)
      · refine .inr ⟨j + 1, r, Nat.succ_lt_succ hj, by omega, ?_, hin⟩
        rwa [preorder_cons, List.getElem?_cons_succ]

end StepGraph.Legacy
