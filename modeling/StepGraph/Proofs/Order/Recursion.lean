import StepGraph.Proofs.Order.Repeats
import StepGraph.Proofs.Order.Sort

/-!
# The walk as a recursion

`descend` looks at the dependencies of the innermost item of a path one after another, descends
into those that have not been met, and emits the item at last; `sortByDescent` starts it at each
item in turn. There is no stack and no bound of steps.

* `run_descend`: from a frame on the stack, a walk comes to what `descend` returns.
* `sort_eq`: `sort` and `sortByDescent` agree, in order and in failure.
* `sort_distinct`: a dependency that is listed again does not count.
* `sort_congr`: nor do the dependencies of what is not listed; both in `sort_eq_of_distinct`.
* `sort_of_dependenciesFirst`: a list that is in dependency order stays as it is.
-/

set_option autoImplicit false

namespace StepGraph.Order

variable {ι : Type} [DecidableEq ι]

theorem length_notMem_cons_lt {items path : List ι} {d : ι} (hd : d ∈ items) (hp : d ∉ path) :
    (items.filter fun x => x ∉ d :: path).length < (items.filter fun x => x ∉ path).length := by
  have hf : (items.filter fun x => x ∉ d :: path)
      = (items.filter fun x => x ∉ path).filter fun x => x ≠ d := by
    simp [List.filter_filter, not_or]
  rw [hf, List.length_filter_lt_length_iff_exists]
  exact ⟨d, by simp [hd, hp], by simp⟩

section
variable (items : List ι) (dependencies : ι → List ι)

/-- What is emitted once `item`, the first of the path, has looked at the pending dependencies. -/
def descend (path : List ι) (item : ι) (emitted : List ι) :
    List ι → Except (Obstacle ι) (List ι)
  | [] => .ok (item :: emitted)
  | d :: pending =>
    if _ : d ∈ items then
      if d ∈ emitted then descend path item emitted pending
      else if _ : d ∈ path then .error (.cycle (path.reverse.dropWhile (· != d) ++ [d]))
      else
        (descend (d :: path) d emitted (dependencies d)).bind fun emitted =>
          descend path item emitted pending
    else .error (.unknown item d)
  termination_by pending => ((items.filter fun x => x ∉ path).length, pending.length)
  decreasing_by
    · exact .right _ (Nat.lt_succ_self _)
    · exact .left _ _ (length_notMem_cons_lt ‹_› ‹_›)
    · exact .right _ (Nat.lt_succ_self _)

/-- Visits an item that has not been emitted. -/
def descendFrom (emitted : List ι) (item : ι) : Except (Obstacle ι) (List ι) :=
  if item ∈ emitted then .ok emitted
  else descend items dependencies [item] item emitted (dependencies item)

def sortByDescent : Except (Obstacle ι) (List ι) :=
  (items.foldlM (descendFrom items dependencies) []).map List.reverse

end

variable {items : List ι} {dependencies : ι → List ι}

theorem descend_subset {path emitted pending l : List ι} {item : ι}
    (h : descend items dependencies path item emitted pending = .ok l) :
    ∀ x ∈ emitted, x ∈ l := by
  fun_induction descend items dependencies path item emitted pending generalizing l with
  | case1 => cases h; exact fun x hx => List.mem_cons_of_mem _ hx
  | case2 _ _ _ _ _ _ _ ih => exact ih h
  | case3 => cases h
  | case4 path item emitted d pending _ _ _ ih₁ ih₂ =>
    cases hd : descend items dependencies (d :: path) d emitted (dependencies d) with
    | error o => rw [hd] at h; cases h
    | ok l₁ =>
      rw [hd] at h
      exact fun x hx => ih₂ l₁ h x (ih₁ hd x hx)
  | case5 => cases h

theorem descend_listed {path emitted pending l : List ι} {item : ι} (hitem : item ∈ items)
    (hemitted : ∀ x ∈ emitted, x ∈ items)
    (h : descend items dependencies path item emitted pending = .ok l) : ∀ x ∈ l, x ∈ items := by
  fun_induction descend items dependencies path item emitted pending generalizing l with
  | case1 => cases h; exact List.forall_mem_cons.2 ⟨hitem, hemitted⟩
  | case2 _ _ _ _ _ _ _ ih => exact ih hitem hemitted h
  | case3 => cases h
  | case4 path item emitted d pending hd _ _ ih₁ ih₂ =>
    cases hr : descend items dependencies (d :: path) d emitted (dependencies d) with
    | error o => rw [hr] at h; cases h
    | ok l₁ =>
      rw [hr] at h
      exact ih₂ l₁ hitem (ih₁ hd hemitted hr) h
  | case5 => cases h

theorem mem_descend {path emitted pending l : List ι} {item : ι}
    (h : descend items dependencies path item emitted pending = .ok l) : item ∈ l := by
  fun_induction descend items dependencies path item emitted pending generalizing l with
  | case1 => cases h; exact List.mem_cons_self
  | case2 _ _ _ _ _ _ _ ih => exact ih h
  | case3 => cases h
  | case4 path item emitted d pending _ _ _ _ ih₂ =>
    cases hd : descend items dependencies (d :: path) d emitted (dependencies d) with
    | error o => rw [hd] at h; cases h
    | ok l₁ => rw [hd] at h; exact ih₂ l₁ h
  | case5 => cases h

/-! ## The walk -/

namespace Walk

/-- What a walk comes to, according to a recursion that finishes the innermost frame. -/
def Comes (items : List ι) (dependencies : ι → List ι) (w : Walk ι) (rest : List (ι × List ι)) :
    Except (Obstacle ι) (List ι) → Prop
  | .ok l =>
    ∃ k w', Sound items dependencies w' ∧ w'.stack = rest ∧ w'.emitted = l ∧
      ∀ n, run items dependencies (n + k) w = run items dependencies n w'
  | .error o => ∃ k, ∀ n, run items dependencies (n + k) w = .error o

variable {w w' : Walk ι} {rest : List (ι × List ι)}

theorem Comes.step {r : Except (Obstacle ι) (List ι)} (hne : w.stack ≠ [])
    (h : w.step items dependencies = .ok w') (hc : Comes items dependencies w' rest r) :
    Comes items dependencies w rest r := by
  have hrun : ∀ n, run items dependencies (n + 1) w = run items dependencies n w' := fun n => by
    rw [run_succ hne, h]; rfl
  cases r with
  | ok l =>
    obtain ⟨k, w'', hs, hst, he, hk⟩ := hc
    exact ⟨k + 1, w'', hs, hst, he, fun n => by rw [← Nat.add_assoc, hrun, hk]⟩
  | error o =>
    obtain ⟨k, hk⟩ := hc
    exact ⟨k + 1, fun n => by rw [← Nat.add_assoc, hrun, hk]⟩

theorem Comes.bind {rest' : List (ι × List ι)} {r : Except (Obstacle ι) (List ι)}
    {f : List ι → Except (Obstacle ι) (List ι)} (h : Comes items dependencies w rest' r)
    (hf : ∀ w', Sound items dependencies w' → w'.stack = rest' →
      Comes items dependencies w' rest (f w'.emitted)) :
    Comes items dependencies w rest (r.bind f) := by
  cases r with
  | error o => exact h
  | ok l =>
    obtain ⟨k, w', hs, hst, rfl, hk⟩ := h
    have hc := hf w' hs hst
    change Comes items dependencies w rest (f w'.emitted)
    cases hr : f w'.emitted with
    | error o =>
      rw [hr] at hc
      obtain ⟨k', hk'⟩ := hc
      exact ⟨k' + k, fun n => by rw [← Nat.add_assoc, hk, hk']⟩
    | ok l' =>
      rw [hr] at hc
      obtain ⟨k', w'', hs'', hst'', he'', hk'⟩ := hc
      exact ⟨k' + k, w'', hs'', hst'', he'', fun n => by rw [← Nat.add_assoc, hk, hk']⟩

/-- A walk finishes its innermost frame as the recursion says. -/
theorem run_descend {path emitted pending : List ι} {item : ι} (hs : Sound items dependencies w)
    (hst : w.stack = (item, pending) :: rest) (hp : w.openItems = path)
    (he : w.emitted = emitted) :
    Comes items dependencies w rest
      (descend items dependencies path item emitted pending) := by
  fun_induction descend items dependencies path item emitted pending generalizing w rest with
  | case1 path item emitted =>
    subst he
    have hstep : w.step items dependencies = .ok _ := step_finish hst
    exact Comes.step (by simp [hst]) hstep ⟨0, _, hs.step hstep, rfl, rfl, fun _ => rfl⟩
  | case2 path item emitted d pending hd hm ih =>
    subst he
    have hstep : w.step items dependencies = .ok _ := step_pass hst hd ((hs.done_iff d).2 hm)
    refine Comes.step (by simp [hst]) hstep (ih (hs.step hstep) rfl ?_ rfl)
    rw [← hp]; simp [openItems, hst]
  | case3 path item emitted d pending hd hm hpath =>
    subst he hp
    have hstep : w.step items dependencies = .error _ :=
      step_cycle hst hd ((hs.open_iff d).2 hpath)
    exact ⟨1, fun n => by rw [run_succ (by simp [hst]), hstep]; rfl⟩
  | case4 path item emitted d pending hd hm hpath ih₁ ih₂ =>
    subst he hp
    have hmark : w.mark? d = none := by
      cases hmk : w.mark? d with
      | none => rfl
      | some v =>
        cases v with
        | done => exact absurd ((hs.done_iff d).1 hmk) hm
        | «open» => exact absurd ((hs.open_iff d).1 hmk) hpath
    have hstep : w.step items dependencies = .ok _ := step_enter hst hd hmark
    have hopen : openItems ⟨w.marks, (item, pending) :: rest, w.emitted⟩ = w.openItems := by
      simp [openItems, hst]
    refine Comes.step (by simp [hst]) hstep
      (Comes.bind (ih₁ (hs.step hstep) rfl ?_ rfl) fun w' hs' hst' => ih₂ _ hs' hst' ?_ rfl)
    · rw [← hopen]; rfl
    · rw [← hopen]; simp [openItems, hst']
  | case5 path item emitted d pending hd =>
    have hstep : w.step items dependencies = .error _ := step_unknown hst hd
    exact ⟨1, fun n => by rw [run_succ (by simp [hst]), hstep]; rfl⟩

/-- Steps beyond the work that there is change nothing. -/
theorem run_add {n : Nat} (hn : work items dependencies w ≤ n) (k : Nat) :
    run items dependencies (n + k) w = run items dependencies n w := by
  induction n generalizing w with
  | zero =>
    have hst : w.stack = [] := by
      cases hst : w.stack with
      | nil => rfl
      | cons frame rest => simp [work, hst] at hn
    rw [run_of_stack_nil hst, run_of_stack_nil hst]
  | succ n ih =>
    by_cases hne : w.stack = []
    · rw [run_of_stack_nil hne, run_of_stack_nil hne]
    rw [Nat.add_right_comm, run_succ hne, run_succ hne]
    cases hstep : w.step items dependencies with
    | error o => rfl
    | ok w₁ =>
      have hlt := work_step hstep hne
      exact ih (by omega)

theorem visit_eq (hw : Idle items dependencies w) {x : ι} (hx : x ∈ items) :
    match descendFrom items dependencies w.emitted x with
    | .ok l => ∃ w', Idle items dependencies w' ∧ w'.emitted = l ∧
        visit items dependencies (stepBound items dependencies) w x = .ok w'
    | .error o => visit items dependencies (stepBound items dependencies) w x = .error o := by
  by_cases hm : x ∈ w.emitted
  · rw [descendFrom, if_pos hm]
    exact ⟨w, hw, rfl, by rw [visit, if_pos ((hw.sound.done_iff x).2 hm)]⟩
  have hmark : w.mark? x ≠ some .done := fun h => hm ((hw.sound.done_iff x).1 h)
  obtain ⟨hs, hwork⟩ := hw.enter hx hmark
  have hst : (w.enter dependencies x).stack = [(x, dependencies x)] := by simp [enter, hw.stack]
  have hc := run_descend hs hst rfl rfl
  have hpath : (w.enter dependencies x).openItems = [x] := by simp [enter, openItems, hw.stack]
  have hemit : (w.enter dependencies x).emitted = w.emitted := rfl
  rw [hpath, hemit] at hc
  rw [descendFrom, if_neg hm, visit, if_neg hmark]
  cases hd : descend items dependencies [x] x w.emitted (dependencies x) with
  | ok l =>
    rw [hd] at hc
    obtain ⟨k, w', hs', hst', he', hk⟩ := hc
    refine ⟨w', ⟨hs', hst'⟩, he', ?_⟩
    rw [← run_add hwork k, hk, run_of_stack_nil hst']
  | error o =>
    rw [hd] at hc
    obtain ⟨k, hk⟩ := hc
    change run items dependencies (stepBound items dependencies) _ = .error o
    rw [← run_add hwork k, hk]

theorem visits_eq {l : List ι} (hl : ∀ x ∈ l, x ∈ items) (hw : Idle items dependencies w) :
    (l.foldlM (visit items dependencies (stepBound items dependencies)) w).map Walk.emitted
      = l.foldlM (descendFrom items dependencies) w.emitted := by
  induction l generalizing w with
  | nil => rfl
  | cons x l ih =>
    have hv := visit_eq hw (hl x List.mem_cons_self)
    rw [List.foldlM_cons, List.foldlM_cons]
    cases hd : descendFrom items dependencies w.emitted x with
    | ok e =>
      rw [hd] at hv
      obtain ⟨w', hw', rfl, hv⟩ := hv
      rw [hv]
      exact ih (fun y hy => hl y (List.mem_cons_of_mem x hy)) hw'
    | error o =>
      rw [hd] at hv
      rw [show visit items dependencies (stepBound items dependencies) w x = .error o from hv]
      rfl

end Walk

/-- The walk and the recursion agree. -/
theorem sort_eq (items : List ι) (dependencies : ι → List ι) :
    sort items dependencies = sortByDescent items dependencies := by
  have hstart : Walk.Idle items dependencies .start := .start
  have h := Walk.visits_eq (fun _ hx => hx) hstart
  rw [sortByDescent, sort]
  change _ = Except.map List.reverse (items.foldlM _ Walk.start.emitted)
  rw [← h]
  cases items.foldlM (Walk.visit items dependencies (stepBound items dependencies)) Walk.start <;>
    rfl

/-! ## Dependencies that are listed again -/

theorem descend_distinct {path emitted pending seen : List ι} {item : ι}
    (hseen : ∀ x ∈ seen, x ∈ items ∧ x ∈ emitted) :
    descend items (fun x => distinct (dependencies x)) path item emitted
        (distinctFrom seen pending)
      = descend items dependencies path item emitted pending := by
  fun_induction descend items dependencies path item emitted pending generalizing seen with
  | case1 => simp [distinctFrom, descend]
  | case2 path item emitted d pending hd hm ih =>
    rw [distinctFrom_cons]
    split
    · exact ih hseen
    · rw [descend, dif_pos hd, if_pos hm]
      refine ih fun x hx => ?_
      rcases List.mem_cons.1 hx with rfl | hx
      · exact ⟨hd, hm⟩
      · exact hseen x hx
  | case3 path item emitted d pending hd hm hp =>
    rw [distinctFrom_cons, if_neg fun h => hm (hseen d h).2, descend, dif_pos hd, if_neg hm,
      dif_pos hp]
  | case4 path item emitted d pending hd hm hp ih₁ ih₂ =>
    rw [distinctFrom_cons, if_neg fun h => hm (hseen d h).2, descend, dif_pos hd, if_neg hm,
      dif_neg hp]
    have h₁ := ih₁ (List.forall_mem_nil fun x => x ∈ items ∧ x ∈ emitted)
    rw [distinct, h₁]
    cases hr : descend items dependencies (d :: path) d emitted (dependencies d) with
    | error o => rfl
    | ok l =>
      refine ih₂ l fun x hx => ?_
      rcases List.mem_cons.1 hx with rfl | hx
      · exact ⟨hd, mem_descend hr⟩
      · exact ⟨(hseen x hx).1, descend_subset hr x (hseen x hx).2⟩
  | case5 path item emitted d pending hd =>
    rw [distinctFrom_cons, if_neg fun h => hd (hseen d h).1, descend, dif_neg hd]

theorem sort_distinct (items : List ι) (dependencies : ι → List ι) :
    sort items (fun x => distinct (dependencies x)) = sort items dependencies := by
  have h : descendFrom items (fun x => distinct (dependencies x))
      = descendFrom items dependencies := by
    funext emitted x
    rw [descendFrom, descendFrom, distinct, descend_distinct (by simp)]
  rw [sort_eq, sort_eq, sortByDescent, sortByDescent, h]

/-! ## Dependencies of other items -/

section
variable {dependencies' : ι → List ι} (h : ∀ x ∈ items, dependencies x = dependencies' x)
include h

theorem descend_congr {path emitted pending : List ι} {item : ι} :
    descend items dependencies path item emitted pending =
      descend items dependencies' path item emitted pending := by
  fun_induction descend items dependencies path item emitted pending with
  | case1 => rw [descend]
  | case2 path item emitted d pending hd hm ih => rw [ih, descend, dif_pos hd, if_pos hm]
  | case3 path item emitted d pending hd hm hp =>
    rw [descend, dif_pos hd, if_neg hm, dif_pos hp]
  | case4 path item emitted d pending hd hm hp ih₁ ih₂ =>
    rw [descend, dif_pos hd, if_neg hm, dif_neg hp, ← h d hd, ← ih₁]
    cases hr : descend items dependencies (d :: path) d emitted (dependencies d) with
    | error o => rfl
    | ok l => exact ih₂ l
  | case5 path item emitted d pending hd => rw [descend, dif_neg hd]

theorem descendFrom_congr {item : ι} (hitem : item ∈ items) (emitted : List ι) :
    descendFrom items dependencies emitted item = descendFrom items dependencies' emitted item := by
  rw [descendFrom, descendFrom, descend_congr h, h item hitem]

/-- Only listed items are asked for their dependencies. -/
theorem sort_congr : sort items dependencies = sort items dependencies' := by
  have hvisits : ∀ l : List ι, (∀ x ∈ l, x ∈ items) → ∀ emitted,
      l.foldlM (descendFrom items dependencies) emitted =
        l.foldlM (descendFrom items dependencies') emitted := by
    intro l
    induction l with
    | nil => exact fun _ _ => rfl
    | cons x l ih =>
      intro hl emitted
      obtain ⟨hx, hl⟩ := List.forall_mem_cons.1 hl
      rw [List.foldlM_cons, List.foldlM_cons, descendFrom_congr h hx]
      exact bind_congr (ih hl)
  rw [sort_eq, sort_eq, sortByDescent, sortByDescent, hvisits items fun _ hx => hx]

end

/-- Two maps of dependencies that differ in repeated entries, and for items that are not listed,
give the same order or meet the same obstacle. -/
theorem sort_eq_of_distinct {dependencies' : ι → List ι}
    (h : ∀ x ∈ items, distinct (dependencies x) = distinct (dependencies' x)) :
    sort items dependencies = sort items dependencies' :=
  calc sort items dependencies
      = sort items fun x => distinct (dependencies x) := (sort_distinct items dependencies).symm
    _ = sort items fun x => distinct (dependencies' x) := sort_congr h
    _ = sort items dependencies' := sort_distinct items dependencies'

/-! ## Lists that are in order -/

theorem descend_of_emitted {path emitted pending : List ι} {item : ι}
    (h : ∀ d ∈ pending, d ∈ items ∧ d ∈ emitted) :
    descend items dependencies path item emitted pending = .ok (item :: emitted) := by
  induction pending with
  | nil => rw [descend]
  | cons d pending ih =>
    obtain ⟨⟨hd, hm⟩, hpending⟩ := List.forall_mem_cons.1 h
    rw [descend, dif_pos hd, if_pos hm, ih hpending]

theorem sort_of_dependenciesFirst (hnd : items.Nodup) (h : DependenciesFirst dependencies items) :
    sort items dependencies = .ok items := by
  -- the items before the one to be visited have been emitted, and they hold its dependencies
  have hfrom : ∀ after before, items = before ++ after →
      after.foldlM (descendFrom items dependencies) before.reverse = .ok items.reverse := by
    intro after
    induction after with
    | nil =>
      intro before he
      rw [List.foldlM_nil, he, List.append_nil]
      rfl
    | cons x after ih =>
      intro before he
      have hx : x ∉ before := fun hb =>
        (List.nodup_append.1 (he ▸ hnd)).2.2 x hb x List.mem_cons_self rfl
      have hd : ∀ d ∈ dependencies x, d ∈ items ∧ d ∈ before.reverse := fun d hd => by
        have hb := h before x after he d hd
        exact ⟨he ▸ List.mem_append_left _ hb, List.mem_reverse.2 hb⟩
      have hnext := ih (before ++ [x]) (by rw [he, List.append_assoc]; rfl)
      rw [List.reverse_concat] at hnext
      rw [List.foldlM_cons, descendFrom, if_neg (mt List.mem_reverse.1 hx), descend_of_emitted hd]
      exact hnext
  rw [sort_eq, sortByDescent]
  have hall : items.foldlM (descendFrom items dependencies) [] = .ok items.reverse :=
    hfrom items [] rfl
  rw [hall, Except.map, List.reverse_reverse]

end StepGraph.Order
