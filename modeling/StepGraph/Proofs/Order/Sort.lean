import Mathlib.Logic.Relation
import StepGraph.Proofs.Order.Walk

/-!
# The order that a walk ends with

Every step of a walk uses up some work (`Walk.work`, `Walk.work_step`), of which there is at most
`stepBound`. So the bound of `sort` is never met with items left on the stack (`Walk.run_ok`), and
the invariant of the walk says what the emitted items are:

* `sort_ok`: an order holds each item once and after its dependencies.
* `sort_genuine`: a failure names an obstacle that is there.
* `sort_error_iff`: there is an order unless an item depends on one that is not listed or, through
  others, on itself; how items are listed does not matter for it (`exists_sort_of_mem_iff`).
-/

set_option autoImplicit false

namespace StepGraph.Order

variable {ι : Type}

namespace Walk

variable [DecidableEq ι] {items : List ι} {dependencies : ι → List ι} {w w' : Walk ι}

/-! ## The bound of steps -/

/-- The items that have not been met. -/
def unmet (items : List ι) (w : Walk ι) : List ι :=
  items.filter fun x => (w.mark? x).isNone

/-- The steps that a walk may still take: one for each item that is on the stack or has not been
met, and one for each of its dependencies that has not been looked at. -/
def work (items : List ι) (dependencies : ι → List ι) (w : Walk ι) : Nat :=
  stepBound (unmet items w) dependencies
    + w.stack.foldr (fun frame bound => frame.2.length + 1 + bound) 0

omit [DecidableEq ι] in
theorem stepBound_cons (x : ι) (l : List ι) :
    stepBound (x :: l) dependencies = (dependencies x).length + 1 + stepBound l dependencies := rfl

omit [DecidableEq ι] in
theorem stepBound_sublist (dependencies : ι → List ι) {l₁ l₂ : List ι} (h : l₁.Sublist l₂) :
    stepBound l₁ dependencies ≤ stepBound l₂ dependencies := by
  induction h with
  | slnil => exact Nat.le_refl _
  | cons x _ ih => rw [stepBound_cons]; omega
  | cons_cons x _ ih => rw [stepBound_cons, stepBound_cons]; omega

omit [DecidableEq ι] in
/-- A filter that loses `d` loses the steps of `d`. -/
theorem stepBound_filter_lt {p q : ι → Bool} {d : ι} (hpq : ∀ x, p x = true → q x = true)
    (hp : p d = false) (hq : q d = true) {l : List ι} (hd : d ∈ l) :
    stepBound (l.filter p) dependencies + (dependencies d).length + 1
      ≤ stepBound (l.filter q) dependencies := by
  induction l with
  | nil => cases hd
  | cons x l ih =>
    by_cases hx : x = d
    · subst hx
      have := stepBound_sublist dependencies
        (List.monotone_filter_right l (fun a h => hpq a h))
      rw [List.filter_cons_of_neg (by simp [hp]), List.filter_cons_of_pos hq, stepBound_cons]
      omega
    · have := ih ((List.mem_cons.1 hd).resolve_left (Ne.symm hx))
      by_cases h : p x = true
      · rw [List.filter_cons_of_pos h, List.filter_cons_of_pos (hpq x h), stepBound_cons,
          stepBound_cons]
        omega
      · rw [List.filter_cons_of_neg h]
        refine this.trans (stepBound_sublist dependencies (List.Sublist.filter q (List.sublist_cons_self x l)))

theorem unmet_mark (x : ι) (v : Visit) (stack : List (ι × List ι)) (emitted : List ι) :
    (unmet items ⟨(x, v) :: w.marks, stack, emitted⟩).Sublist (unmet items w) :=
  List.monotone_filter_right items fun y => by rw [mark?_cons]; split <;> simp

theorem work_descend {d : ι} (hd : d ∈ items) (hm : w.mark? d = none)
    (stack : List (ι × List ι)) :
    work items dependencies ⟨(d, .open) :: w.marks, (d, dependencies d) :: stack, w.emitted⟩
      ≤ work items dependencies ⟨w.marks, stack, w.emitted⟩ := by
  have h : stepBound (unmet items
        ⟨(d, .open) :: w.marks, (d, dependencies d) :: stack, w.emitted⟩) dependencies
      + (dependencies d).length + 1
      ≤ stepBound (unmet items ⟨w.marks, stack, w.emitted⟩) dependencies := by
    refine stepBound_filter_lt (fun x => ?_) ?_ ?_ hd
    · rw [mark?_cons]; split
      · simp
      · exact id
    · rw [mark?_cons, if_pos rfl]; rfl
    · change (w.mark? d).isNone = true
      rw [hm]; rfl
  simp only [work, List.foldr_cons]
  omega

/-- Looking at one dependency is one step. -/
theorem work_look {x d : ι} {pending : List ι} {rest : List (ι × List ι)}
    (hst : w.stack = (x, d :: pending) :: rest) :
    work items dependencies w
      = work items dependencies ⟨w.marks, (x, pending) :: rest, w.emitted⟩ + 1 := by
  have hu : unmet items ⟨w.marks, (x, pending) :: rest, w.emitted⟩ = unmet items w := rfl
  simp only [work, hu, hst, List.foldr_cons, List.length_cons]
  omega

theorem work_step (h : w.step items dependencies = .ok w') (hne : w.stack ≠ []) :
    work items dependencies w' < work items dependencies w := by
  obtain ⟨x, rest, hst, rfl⟩ | ⟨x, d, pending, rest, hst, -, -, rfl⟩ |
    ⟨x, d, pending, rest, hst, hd, hm, rfl⟩ := step_ok h hne
  · have hu : (unmet items ⟨(x, .done) :: w.marks, rest, x :: w.emitted⟩).Sublist
        (unmet items w) := unmet_mark x .done rest (x :: w.emitted)
    have := stepBound_sublist dependencies hu
    simp only [work, hst, List.foldr_cons, List.length_nil]
    omega
  · rw [work_look hst]
    exact Nat.lt_succ_self _
  · rw [work_look hst]
    exact Nat.lt_succ_of_le (work_descend hd hm ((x, pending) :: rest))

/-! ## Runs -/

theorem run_of_stack_nil (hw : w.stack = []) (n : Nat) : run items dependencies n w = .ok w := by
  cases n <;> simp [run, hw]

theorem run_succ (hw : w.stack ≠ []) (n : Nat) :
    run items dependencies (n + 1) w
      = (w.step items dependencies).bind (run items dependencies n) := by
  simp [run, hw]

/-- A run that has enough steps ends with an empty stack. -/
theorem run_ok {n : Nat} (hs : Sound items dependencies w) (hn : work items dependencies w ≤ n)
    (h : run items dependencies n w = .ok w') :
    Sound items dependencies w' ∧ w'.stack = [] ∧ ∀ x, w.mark? x ≠ none → w'.mark? x ≠ none := by
  induction n generalizing w with
  | zero =>
    cases h
    refine ⟨hs, ?_, fun _ hx => hx⟩
    cases hst : w'.stack with
    | nil => rfl
    | cons frame rest => simp [work, hst] at hn
  | succ n ih =>
    by_cases hne : w.stack = []
    · rw [run_of_stack_nil hne] at h
      cases h; exact ⟨hs, hne, fun _ hx => hx⟩
    rw [run_succ hne] at h
    cases hstep : w.step items dependencies with
    | error o => rw [hstep] at h; cases h
    | ok w₁ =>
      rw [hstep] at h
      have hlt := work_step hstep hne
      obtain ⟨hs', hst, hm⟩ := ih (hs.step hstep) (by omega) h
      exact ⟨hs', hst, fun x hx => hm x (step_marked hstep hx)⟩

theorem run_genuine {n : Nat} {o : Obstacle ι} (hs : Sound items dependencies w)
    (h : run items dependencies n w = .error o) : o.Genuine items dependencies := by
  induction n generalizing w with
  | zero => cases h
  | succ n ih =>
    by_cases hne : w.stack = []
    · rw [run_of_stack_nil hne] at h; cases h
    rw [run_succ hne] at h
    cases hstep : w.step items dependencies with
    | error o' => rw [hstep] at h; cases h; exact hs.step_genuine hstep
    | ok w₁ => rw [hstep] at h; exact ih (hs.step hstep) h

/-! ## Visits -/

/-- The invariant between two visits. -/
structure Idle (items : List ι) (dependencies : ι → List ι) (w : Walk ι) : Prop where
  sound : Sound items dependencies w
  stack : w.stack = []

theorem Idle.start : Idle items dependencies (start : Walk ι) := by
  refine ⟨⟨?_, ?_, .nil, .nil, ?_, ?_, trivial, trivial⟩, rfl⟩ <;> simp [Walk.start, mark?, openItems]

theorem Idle.mem_emitted (hw : Idle items dependencies w) {x : ι} (hx : w.mark? x ≠ none) :
    x ∈ w.emitted := by
  cases hm : w.mark? x with
  | none => exact absurd hm hx
  | some v =>
    cases v with
    | done => exact (hw.sound.done_iff x).1 hm
    | «open» => simpa [openItems, hw.stack] using (hw.sound.open_iff x).1 hm

theorem Idle.enter (hw : Idle items dependencies w) {x : ι} (hx : x ∈ items)
    (hm : w.mark? x ≠ some .done) :
    Sound items dependencies (w.enter dependencies x) ∧
      work items dependencies (w.enter dependencies x) ≤ stepBound items dependencies := by
  have hm : w.mark? x = none := by
    by_contra hne
    exact hm ((hw.sound.done_iff x).2 (hw.mem_emitted hne))
  have hent : w.enter dependencies x = ⟨(x, .open) :: w.marks, [(x, dependencies x)], w.emitted⟩ := by
    simp [Walk.enter, hw.stack]
  rw [hent]
  refine ⟨hw.sound.descend hx hm (by simp [openItems, hw.stack]) trivial,
    (work_descend hx hm []).trans ?_⟩
  simpa [work, unmet] using stepBound_sublist dependencies List.filter_sublist

theorem visit_ok (hw : Idle items dependencies w) {x : ι} (hx : x ∈ items)
    (h : visit items dependencies (stepBound items dependencies) w x = .ok w') :
    Idle items dependencies w' ∧ x ∈ w'.emitted ∧ ∀ y ∈ w.emitted, y ∈ w'.emitted := by
  unfold visit at h
  split at h
  · cases h
    exact ⟨hw, (hw.sound.done_iff x).1 ‹_›, fun _ hy => hy⟩
  · obtain ⟨hs, hwork⟩ := hw.enter hx ‹_›
    obtain ⟨hs', hst, hm⟩ := run_ok hs hwork h
    have hw' : Idle items dependencies w' := ⟨hs', hst⟩
    refine ⟨hw', hw'.mem_emitted (hm x ?_), fun y hy => hw'.mem_emitted (hm y ?_)⟩
    · simp [Walk.enter, mark?]
    · rw [(hs.done_iff y).2 hy]; simp

theorem visit_genuine (hw : Idle items dependencies w) {x : ι} (hx : x ∈ items) {o : Obstacle ι}
    {n : Nat} (h : visit items dependencies n w x = .error o) : o.Genuine items dependencies := by
  unfold visit at h
  split at h
  · cases h
  · exact run_genuine (hw.enter hx ‹_›).1 h

theorem visits_ok {l : List ι} (hl : ∀ x ∈ l, x ∈ items) (hw : Idle items dependencies w)
    (h : l.foldlM (visit items dependencies (stepBound items dependencies)) w = .ok w') :
    Idle items dependencies w' ∧ (∀ x ∈ l, x ∈ w'.emitted) ∧ ∀ y ∈ w.emitted, y ∈ w'.emitted := by
  induction l generalizing w with
  | nil => cases h; exact ⟨hw, by simp, fun _ hy => hy⟩
  | cons x l ih =>
    rw [List.foldlM_cons] at h
    cases hv : visit items dependencies (stepBound items dependencies) w x with
    | error o => rw [hv] at h; cases h
    | ok w₁ =>
      rw [hv] at h
      obtain ⟨hw₁, hx, hk⟩ := visit_ok hw (hl x List.mem_cons_self) hv
      obtain ⟨hw', hm, hk'⟩ := ih (fun y hy => hl y (List.mem_cons_of_mem x hy)) hw₁ h
      refine ⟨hw', fun y hy => ?_, fun y hy => hk' y (hk y hy)⟩
      rcases List.mem_cons.1 hy with rfl | hy
      · exact hk' y hx
      · exact hm y hy

theorem visits_genuine {l : List ι} (hl : ∀ x ∈ l, x ∈ items) (hw : Idle items dependencies w)
    {o : Obstacle ι}
    (h : l.foldlM (visit items dependencies (stepBound items dependencies)) w = .error o) :
    o.Genuine items dependencies := by
  induction l generalizing w with
  | nil => cases h
  | cons x l ih =>
    rw [List.foldlM_cons] at h
    cases hv : visit items dependencies (stepBound items dependencies) w x with
    | error o' => rw [hv] at h; cases h; exact visit_genuine hw (hl x List.mem_cons_self) hv
    | ok w₁ =>
      rw [hv] at h
      exact ih (fun y hy => hl y (List.mem_cons_of_mem x hy))
        (visit_ok hw (hl x List.mem_cons_self) hv).1 h

end Walk

/-! ## The order -/

variable [DecidableEq ι] {items : List ι} {dependencies : ι → List ι}

theorem sort_ok {sorted : List ι} (h : sort items dependencies = .ok sorted) :
    sorted.Nodup ∧ (∀ x, x ∈ sorted ↔ x ∈ items) ∧ DependenciesFirst dependencies sorted := by
  unfold sort at h
  cases hw : items.foldlM (Walk.visit items dependencies (stepBound items dependencies))
      Walk.start with
  | error o => rw [hw] at h; cases h
  | ok w =>
    rw [hw] at h; cases h
    obtain ⟨⟨hs, -⟩, hm, -⟩ := Walk.visits_ok (fun _ hx => hx) Walk.Idle.start hw
    refine ⟨List.nodup_reverse.2 hs.nodup_emitted, fun x => ?_, hs.closed.dependenciesFirst⟩
    rw [List.mem_reverse]
    exact ⟨hs.emitted_listed x, hm x⟩

theorem sort_genuine {o : Obstacle ι} (h : sort items dependencies = .error o) :
    o.Genuine items dependencies := by
  unfold sort at h
  cases hw : items.foldlM (Walk.visit items dependencies (stepBound items dependencies))
      Walk.start with
  | error o' => rw [hw] at h; cases h; exact Walk.visits_genuine (fun _ hx => hx) .start hw
  | ok w => rw [hw] at h; cases h

/-! ## Failure -/

/-- `x` depends on `d`, both being listed. -/
def Needs (items : List ι) (dependencies : ι → List ι) (x d : ι) : Prop :=
  x ∈ items ∧ d ∈ items ∧ d ∈ dependencies x

theorem DependenciesFirst.idxOf_lt {l : List ι} (h : DependenciesFirst dependencies l)
    (hnd : l.Nodup) {x d : ι} (hx : x ∈ l) (hd : d ∈ dependencies x) :
    l.idxOf d < l.idxOf x := by
  obtain ⟨before, after, rfl⟩ := List.append_of_mem hx
  have hm : d ∈ before := h before x after rfl d hd
  have hn : x ∉ before := fun hb =>
    (List.nodup_append.1 hnd).2.2 x hb x List.mem_cons_self rfl
  rw [List.idxOf_append_of_mem hm, List.idxOf_append_of_notMem hn, List.idxOf_cons_self]
  exact List.idxOf_lt_length_of_mem hm

/-- Nothing depends on itself through others in a list with dependencies first. -/
theorem DependenciesFirst.acyclic {l : List ι} (h : DependenciesFirst dependencies l)
    (hnd : l.Nodup) (hl : ∀ x ∈ items, x ∈ l) {x y : ι}
    (hxy : Relation.TransGen (Needs items dependencies) x y) : l.idxOf y < l.idxOf x := by
  induction hxy with
  | single hn => exact h.idxOf_lt hnd (hl _ hn.1) hn.2.2
  | tail _ hn ih => exact (h.idxOf_lt hnd (hl _ hn.1) hn.2.2).trans ih

omit [DecidableEq ι] in
theorem transGen_of_isChain {R : ι → ι → Prop} {x y : ι} {l : List ι}
    (h : (x :: l ++ [y]).IsChain R) : Relation.TransGen R x y := by
  induction l generalizing x with
  | nil => exact .single (List.isChain_pair.1 h)
  | cons z l ih => exact .head (List.isChain_cons_cons.1 h).1 (ih (List.isChain_cons_cons.1 h).2)

omit [DecidableEq ι] in
theorem Obstacle.Genuine.blocks {o : Obstacle ι} (h : o.Genuine items dependencies) :
    (∃ x ∈ items, ∃ d ∈ dependencies x, d ∉ items) ∨
      ∃ x, Relation.TransGen (Needs items dependencies) x x := by
  cases o with
  | unknown x d => exact .inl ⟨x, h.1, d, h.2⟩
  | cycle path =>
    obtain ⟨hlen, hends, -, hlisted, hchain⟩ := h
    obtain ⟨l, y, rfl⟩ := List.eq_nil_or_concat path |>.resolve_left (by rintro rfl; simp at hlen)
    cases l with
    | nil => simp at hlen
    | cons x l =>
      simp only [List.concat_eq_append, List.dropLast_concat, List.getLast?_concat] at *
      have hxy : x = y := by simpa using hends
      subst hxy
      refine .inr ⟨x, transGen_of_isChain (l := l) (hchain.imp_of_mem_imp fun a b ha hb hab => ?_)⟩
      have hm : ∀ z ∈ x :: l ++ [x], z ∈ items := fun z hz => by
        rcases List.mem_append.1 hz with hz | hz
        · exact hlisted z hz
        · exact hlisted z (by simp_all)
      exact ⟨hm a ha, hm b hb, hab⟩

/-- There is an order exactly if no dependency is unlisted and no item depends on itself. -/
theorem sort_error_iff :
    (∃ o, sort items dependencies = .error o) ↔
      (∃ x ∈ items, ∃ d ∈ dependencies x, d ∉ items) ∨
        ∃ x, Relation.TransGen (Needs items dependencies) x x := by
  refine ⟨fun ⟨o, h⟩ => (sort_genuine h).blocks, fun h => ?_⟩
  cases hs : sort items dependencies with
  | error o => exact ⟨o, rfl⟩
  | ok l =>
    obtain ⟨hnd, hl, hdf⟩ := sort_ok hs
    exfalso
    rcases h with ⟨x, hx, d, hd, hn⟩ | ⟨x, hx⟩
    · obtain ⟨before, after, he⟩ := List.append_of_mem ((hl x).2 hx)
      have hm : d ∈ before := hdf before x after he d hd
      exact hn ((hl d).1 (by rw [he]; exact List.mem_append_left _ hm))
    · exact Nat.lt_irrefl _ (hdf.acyclic hnd (fun y hy => (hl y).2 hy) hx)

/-- Whether there is an order does not depend on how items and dependencies are listed. -/
theorem exists_sort_of_mem_iff {items' : List ι} {dependencies' : ι → List ι}
    (hitems : ∀ x, x ∈ items ↔ x ∈ items')
    (hdeps : ∀ x ∈ items, ∀ d, d ∈ dependencies x ↔ d ∈ dependencies' x)
    (h : ∃ sorted, sort items dependencies = .ok sorted) :
    ∃ sorted, sort items' dependencies' = .ok sorted := by
  have hneeds : ∀ x d, Needs items' dependencies' x d → Needs items dependencies x d := by
    rintro x d ⟨hx, hd, hxd⟩
    have hx := (hitems x).2 hx
    exact ⟨hx, (hitems d).2 hd, (hdeps x hx d).2 hxd⟩
  obtain ⟨sorted, hsorted⟩ := h
  cases hs : sort items' dependencies' with
  | ok sorted' => exact ⟨sorted', rfl⟩
  | error o =>
    -- the obstacle would be there in the other list as well
    have hblocked : ∃ o, sort items dependencies = .error o := by
      rw [sort_error_iff]
      rcases sort_error_iff.1 ⟨o, hs⟩ with ⟨x, hx, d, hd, hn⟩ | ⟨x, hx⟩
      · have hx := (hitems x).2 hx
        exact .inl ⟨x, hx, d, (hdeps x hx d).2 hd, fun hd => hn ((hitems d).1 hd)⟩
      · exact .inr ⟨x, Relation.TransGen.mono hneeds x x hx⟩
    obtain ⟨o, ho⟩ := hblocked
    rw [hsorted] at ho
    cases ho

end StepGraph.Order
