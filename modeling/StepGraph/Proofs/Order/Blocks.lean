import StepGraph.Proofs.Order.Recursion

/-!
# What each visit adds to an order

An order is made visit by visit. The visit of an item adds the items that it reaches, itself last,
and leaves out those that an item before it reaches (`IsBlock`): what has been emitted is closed
under dependencies (`descend_closed`), and a visit emits nothing that it does not reach
(`descend_reaches`).

* `descendFrom_block`: what one visit adds.
* `sort_blocks`: an order is made of one block for each item, in the order of the items.
* `sort_overtakes`: an item comes before one that was listed before it only if this one, or an item
  before this one, depends on it.
-/

set_option autoImplicit false

namespace StepGraph.Order

variable {ι : Type}

/-- `x` is `y`, or depends on it directly or through others. -/
def Reaches (dependencies : ι → List ι) : ι → ι → Prop :=
  Relation.ReflTransGen fun x d => d ∈ dependencies x

/-- `x` depends on `y`, directly or through others. -/
def DependsOn (dependencies : ι → List ι) : ι → ι → Prop :=
  Relation.TransGen fun x d => d ∈ dependencies x

/-- What the visit of an item adds once the items `before` have been visited. -/
structure IsBlock (dependencies : ι → List ι) (before : List ι) (item : ι) (block : List ι) :
    Prop where
  mem_iff : ∀ y, y ∈ block ↔
    Reaches dependencies item y ∧ ∀ x ∈ before, ¬ Reaches dependencies x y
  last : block ≠ [] → block.getLast? = some item

/-- One block for each item, the items `before` having been visited. -/
inductive Blocks (dependencies : ι → List ι) : List ι → List ι → List (List ι) → Prop
  | nil {before : List ι} : Blocks dependencies before [] []
  | cons {before rest block : List ι} {item : ι} {blocks : List (List ι)}
      (first : IsBlock dependencies before item block)
      (others : Blocks dependencies (before ++ [item]) rest blocks) :
      Blocks dependencies before (item :: rest) (block :: blocks)

section
variable {dependencies : ι → List ι}

theorem Closed.mem_of_mem {l : List ι} {x d : ι} (h : Closed dependencies l) (hx : x ∈ l)
    (hd : d ∈ dependencies x) : d ∈ l := by
  obtain ⟨before, after, rfl⟩ := List.append_of_mem hx
  exact List.mem_append_right _ (List.mem_cons_of_mem x (h.of_append.1 d hd))

theorem Closed.mem_of_reaches {l : List ι} {x y : ι} (h : Closed dependencies l) (hx : x ∈ l)
    (hxy : Reaches dependencies x y) : y ∈ l := by
  induction hxy with
  | refl => exact hx
  | tail _ hd ih => exact h.mem_of_mem ih hd

/-! ## Blocks of a list -/

theorem Blocks.getElem? {before items : List ι} {blocks : List (List ι)}
    (h : Blocks dependencies before items blocks) :
    blocks.length = items.length ∧ ∀ (i : Nat) (x : ι) (block : List ι), items[i]? = some x →
      blocks[i]? = some block → IsBlock dependencies (before ++ items.take i) x block := by
  induction h with
  | nil => exact ⟨rfl, by simp⟩
  | @cons before rest block item blocks first others ih =>
    refine ⟨by rw [List.length_cons, List.length_cons, ih.1], fun i x b hx hb => ?_⟩
    cases i with
    | zero =>
      cases hx
      cases hb
      simpa using first
    | succ i =>
      have hi := ih.2 i x b (by simpa using hx) (by simpa using hb)
      rwa [List.append_assoc, List.singleton_append, ← List.take_succ_cons] at hi

theorem Blocks.split {before l : List ι} {rest : List ι} {blocks : List (List ι)}
    (h : Blocks dependencies before (l ++ rest) blocks) :
    ∃ parts others, blocks = parts ++ others ∧ Blocks dependencies before l parts := by
  induction l generalizing before blocks with
  | nil => exact ⟨[], blocks, rfl, .nil⟩
  | cons x l ih =>
    cases h with
    | @cons _ _ block _ blocks first rest =>
      obtain ⟨parts, others, rfl, hparts⟩ := ih rest
      exact ⟨block :: parts, others, rfl, .cons first hparts⟩

/-- Blocks hold what the items reach beyond the items before them. -/
theorem Blocks.mem_flatten {before items : List ι} {blocks : List (List ι)}
    (h : Blocks dependencies before items blocks) {y : ι} :
    y ∈ blocks.flatten ↔ (∃ x ∈ items, Reaches dependencies x y) ∧
      ∀ x ∈ before, ¬ Reaches dependencies x y := by
  induction h with
  | nil => simp
  | @cons before rest block item blocks first others ih =>
    rw [List.flatten_cons, List.mem_append, ih, first.mem_iff, List.exists_mem_cons_iff]
    by_cases hitem : Reaches dependencies item y
    · simp [hitem]
    · have hbefore : (∀ x ∈ before ++ [item], ¬ Reaches dependencies x y) ↔
          ∀ x ∈ before, ¬ Reaches dependencies x y := by
        rw [List.forall_mem_append, List.forall_mem_singleton, and_iff_left hitem]
      rw [hbefore, or_iff_right fun hr => hitem hr.1, or_iff_right hitem]

end

variable [DecidableEq ι] {items : List ι} {dependencies : ι → List ι}

/-! ## One visit -/

theorem descend_closed {path emitted pending l : List ι} {item : ι}
    (hclosed : Closed dependencies emitted)
    (hdeps : ∀ d ∈ dependencies item, d ∈ pending ∨ d ∈ emitted)
    (h : descend items dependencies path item emitted pending = .ok l) : Closed dependencies l := by
  fun_induction descend items dependencies path item emitted pending generalizing l with
  | case1 =>
    cases h
    exact ⟨fun d hd => (hdeps d hd).resolve_left List.not_mem_nil, hclosed⟩
  | case2 path item emitted d pending _ hm ih =>
    refine ih hclosed (fun e he => ?_) h
    rcases hdeps e he with he | he
    · rcases List.mem_cons.1 he with rfl | he
      · exact .inr hm
      · exact .inl he
    · exact .inr he
  | case3 => cases h
  | case4 path item emitted d pending _ _ _ ih₁ ih₂ =>
    cases hd : descend items dependencies (d :: path) d emitted (dependencies d) with
    | error o => rw [hd] at h; cases h
    | ok l₁ =>
      rw [hd] at h
      refine ih₂ l₁ (ih₁ hclosed (fun e he => .inl he) hd) (fun e he => ?_) h
      rcases hdeps e he with he | he
      · rcases List.mem_cons.1 he with rfl | he
        · exact .inr (mem_descend hd)
        · exact .inl he
      · exact .inr (descend_subset hd e he)
  | case5 => cases h

/-- An item is emitted after what its pending dependencies reach. -/
theorem descend_reaches {path emitted pending l : List ι} {item : ι}
    (h : descend items dependencies path item emitted pending = .ok l) :
    ∃ block, l = item :: block ++ emitted ∧
      ∀ y ∈ block, ∃ d ∈ pending, Reaches dependencies d y := by
  fun_induction descend items dependencies path item emitted pending generalizing l with
  | case1 =>
    cases h
    exact ⟨[], rfl, by simp⟩
  | case2 path item emitted d pending _ _ ih =>
    obtain ⟨block, hl, hblock⟩ := ih h
    refine ⟨block, hl, fun y hy => ?_⟩
    obtain ⟨e, he, hey⟩ := hblock y hy
    exact ⟨e, List.mem_cons_of_mem d he, hey⟩
  | case3 => cases h
  | case4 path item emitted d pending _ _ _ ih₁ ih₂ =>
    cases hd : descend items dependencies (d :: path) d emitted (dependencies d) with
    | error o => rw [hd] at h; cases h
    | ok l₁ =>
      rw [hd] at h
      obtain ⟨inner, rfl, hinner⟩ := ih₁ hd
      obtain ⟨block, rfl, hblock⟩ := ih₂ _ h
      refine ⟨block ++ d :: inner, by simp, fun y hy => ?_⟩
      rcases List.mem_append.1 hy with hy | hy
      · obtain ⟨e, he, hey⟩ := hblock y hy
        exact ⟨e, List.mem_cons_of_mem d he, hey⟩
      · refine ⟨d, List.mem_cons_self, ?_⟩
        rcases List.mem_cons.1 hy with rfl | hy
        · exact .refl
        · obtain ⟨e, he, hey⟩ := hinner y hy
          exact .head he hey
  | case5 => cases h

/-- What the visit of an item adds, the last item first. -/
theorem descendFrom_block {emitted l : List ι} {item : ι} (hclosed : Closed dependencies emitted)
    (h : descendFrom items dependencies emitted item = .ok l) :
    Closed dependencies l ∧ ∃ block, l = block ++ emitted ∧ (block ≠ [] → block.head? = some item) ∧
      ∀ y, y ∈ l ↔ y ∈ emitted ∨ Reaches dependencies item y := by
  unfold descendFrom at h
  split at h
  · rename_i hitem
    cases h
    refine ⟨hclosed, [], rfl, by simp, fun y => ?_⟩
    rw [or_iff_left_of_imp fun hy => hclosed.mem_of_reaches hitem hy]
  · have hl := descend_closed hclosed (fun d hd => .inl hd) h
    have hitem := mem_descend h
    obtain ⟨block, rfl, hblock⟩ := descend_reaches h
    refine ⟨hl, item :: block, rfl, by simp, fun y => ⟨fun hy => ?_, ?_⟩⟩
    · rcases List.mem_append.1 hy with hy | hy
      · refine .inr ?_
        rcases List.mem_cons.1 hy with rfl | hy
        · exact .refl
        · obtain ⟨d, hd, hdy⟩ := hblock y hy
          exact .head hd hdy
      · exact .inl hy
    · rintro (hy | hy)
      · exact List.mem_append_right _ hy
      · exact hl.mem_of_reaches hitem hy

/-! ## All visits -/

/-- The visits of the items from some item on, when what the items `before` reach has been
emitted. -/
theorem foldlM_descendFrom_blocks {before after emitted l : List ι}
    (hclosed : Closed dependencies emitted)
    (hemitted : ∀ y, y ∈ emitted ↔ ∃ x ∈ before, Reaches dependencies x y) (hnd : l.Nodup)
    (h : after.foldlM (descendFrom items dependencies) emitted = .ok l) :
    ∃ blocks, l = blocks.flatten.reverse ++ emitted ∧ Blocks dependencies before after blocks := by
  induction after generalizing before emitted with
  | nil =>
    cases h
    exact ⟨[], rfl, .nil⟩
  | cons x after ih =>
    rw [List.foldlM_cons] at h
    cases hx : descendFrom items dependencies emitted x with
    | error o => rw [hx] at h; cases h
    | ok l₁ =>
      rw [hx] at h
      obtain ⟨hclosed₁, block, rfl, hhead, hmem⟩ := descendFrom_block hclosed hx
      have hemitted₁ : ∀ y, y ∈ block ++ emitted ↔
          ∃ z ∈ before ++ [x], Reaches dependencies z y := fun y => by
        rw [hmem, hemitted]
        simp only [List.mem_append, List.mem_singleton, or_and_right, exists_or, exists_eq_left]
      obtain ⟨blocks, rfl, hblocks⟩ := ih hclosed₁ hemitted₁ h
      have hdisjoint : ∀ y ∈ block, y ∉ emitted := fun y hy he =>
        (List.nodup_append.1 (List.nodup_append.1 hnd).2.1).2.2 y hy y he rfl
      refine ⟨block.reverse :: blocks, by simp, .cons ⟨fun y => ?_, fun hne => ?_⟩ hblocks⟩
      · -- the emitted items are those that an item before reaches
        have hbefore : y ∉ emitted ↔ ∀ z ∈ before, ¬ Reaches dependencies z y := by
          rw [hemitted]; simp
        rw [List.mem_reverse, ← hbefore]
        refine ⟨fun hy => ?_, fun ⟨hr, hno⟩ => ?_⟩
        · have hno := hdisjoint y hy
          exact ⟨((hmem y).1 (List.mem_append_left _ hy)).resolve_left hno, hno⟩
        · exact (List.mem_append.1 ((hmem y).2 (.inr hr))).resolve_right hno
      · rw [List.getLast?_reverse]
        exact hhead (mt List.reverse_eq_nil_iff.2 hne)

theorem sort_blocks {sorted : List ι} (h : sort items dependencies = .ok sorted) :
    ∃ blocks, blocks.flatten = sorted ∧ Blocks dependencies [] items blocks := by
  have hnd := (sort_ok h).1
  rw [sort_eq, sortByDescent] at h
  cases hl : items.foldlM (descendFrom items dependencies) [] with
  | error o => rw [hl] at h; cases h
  | ok l =>
    rw [hl] at h
    cases h
    have hnone : ∀ y, y ∈ ([] : List ι) ↔ ∃ x ∈ ([] : List ι), Reaches dependencies x y := by simp
    have hclosed : Closed dependencies [] := trivial
    obtain ⟨blocks, rfl, hblocks⟩ :=
      foldlM_descendFrom_blocks hclosed hnone (List.nodup_reverse.1 hnd) hl
    exact ⟨blocks, by simp, hblocks⟩

omit [DecidableEq ι] in
/-- Of two parts of a list without duplicates, the first holds what comes before one of its items. -/
theorem mem_of_sublist_append {l l' : List ι} {x y : ι} (hnd : (l ++ l').Nodup)
    (h : [y, x].Sublist (l ++ l')) (hx : x ∈ l) : y ∈ l := by
  have hx' : x ∉ l' := fun hm => (List.nodup_append.1 hnd).2.2 x hx x hm rfl
  obtain ⟨early, late, he, hy, hlate⟩ := List.cons_sublist_iff.1 h
  rcases List.append_eq_append_iff.1 he with ⟨mid, rfl, rfl⟩ | ⟨mid, rfl, rfl⟩
  · exact absurd (List.mem_append_right mid (List.singleton_sublist.1 hlate)) hx'
  · exact List.mem_append_left mid hy

/-- An item that is put before an item listed earlier is one that this item, or an item listed
before it, depends on. -/
theorem sort_overtakes {sorted : List ι} {x y : ι} (hnd : items.Nodup)
    (h : sort items dependencies = .ok sorted) (hxy : [x, y].Sublist items)
    (hyx : [y, x].Sublist sorted) :
    ∃ e, (e = x ∨ [e, x].Sublist items) ∧ DependsOn dependencies e y := by
  have hnds := (sort_ok h).1
  obtain ⟨listed, others, rfl, hx, hy⟩ := List.cons_sublist_iff.1 hxy
  obtain ⟨before, between, rfl⟩ := List.append_of_mem hx
  have hy : y ∈ between ++ others := List.mem_append_right _ (List.singleton_sublist.1 hy)
  have hsplit : before ++ x :: between ++ others = (before ++ [x]) ++ (between ++ others) := by simp
  obtain ⟨blocks, rfl, hblocks⟩ := sort_blocks h
  rw [hsplit] at hblocks hnd ⊢
  -- the blocks up to that of `x` hold `x`, so they hold what comes before `x`
  obtain ⟨parts, rest, rfl, hparts⟩ := hblocks.split
  rw [List.flatten_append] at hnds hyx
  have hxp : x ∈ parts.flatten := hparts.mem_flatten.2 ⟨⟨x, by simp, .refl⟩, by simp⟩
  obtain ⟨⟨e, he, hey⟩, -⟩ := hparts.mem_flatten.1 (mem_of_sublist_append hnds hyx hxp)
  have hne : y ≠ e := fun heq => (List.nodup_append.1 hnd).2.2 e he y hy heq.symm
  refine ⟨e, ?_, (Relation.reflTransGen_iff_eq_or_transGen.1 hey).resolve_left hne⟩
  rcases List.mem_append.1 he with he | he
  · refine .inr (List.Sublist.trans ?_ (List.sublist_append_left (before ++ [x]) _))
    exact (List.singleton_sublist.2 he).append (List.Sublist.refl [x])
  · exact .inl (List.mem_singleton.1 he)

end StepGraph.Order
