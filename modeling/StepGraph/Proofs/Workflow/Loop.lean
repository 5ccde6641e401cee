import StepGraph.Proofs.Order.Recursion
import StepGraph.Proofs.Workflow.Search

/-!
# The loop of a search

A round of a search is one or more steps of the walk that `Step.order` takes (`Search.walk`), so what
holds of the walk (`Walk.Sound`) holds of the search, and rounds use up its work. The rest is kept
beside it, one lemma for each part and one case for each `Move`: the path is the stack, an ordered
step is the first one of its id, no id is entered twice, and what has been looked at of the
dependencies of an open id is finished, but for the id right above it (`Looked`).

* `Search.Invariant`: what holds between any two rounds.
* `order_search`: it does; no look-up fails; and the search ends with what `order` gives.
-/

set_option autoImplicit false

namespace StepGraph

/-! ## Several steps of a walk -/

namespace Order.Walk

variable {ι : Type} [DecidableEq ι] {items : List ι} {dependencies : ι → List ι} {w w' : Walk ι}

/-- Steps that do not fail. -/
def Leads (items : List ι) (dependencies : ι → List ι) : Walk ι → Walk ι → Prop :=
  Relation.ReflTransGen fun w w' => w.stack ≠ [] ∧ w.step items dependencies = .ok w'

theorem Sound.leads (hs : Sound items dependencies w) (h : Leads items dependencies w w') :
    Sound items dependencies w' := by
  induction h with
  | refl => exact hs
  | tail _ hstep ih => exact ih.step hstep.2

theorem Leads.work_le (h : Leads items dependencies w w') :
    work items dependencies w' ≤ work items dependencies w := by
  induction h with
  | refl => exact Nat.le_refl _
  | tail _ hstep ih => exact (work_step hstep.2 hstep.1).le.trans ih

theorem run_of_step (hne : w.stack ≠ []) (h : w.step items dependencies = .ok w') {n : Nat}
    (hn : work items dependencies w ≤ n) :
    run items dependencies n w = run items dependencies n w' := by
  have hlt := work_step h hne
  obtain ⟨m, rfl⟩ := Nat.exists_eq_succ_of_ne_zero (show n ≠ 0 by omega)
  calc run items dependencies (m + 1) w
      = run items dependencies m w' := by rw [run_succ hne, h]; rfl
    _ = run items dependencies (m + 1) w' := (run_add (by omega) 1).symm

/-- A run that has enough steps may be taken up later. -/
theorem Leads.run_eq (h : Leads items dependencies w w') {n : Nat}
    (hn : work items dependencies w ≤ n) :
    run items dependencies n w = run items dependencies n w' := by
  induction h with
  | refl => rfl
  | tail hsteps hstep ih =>
    rw [ih, run_of_step hstep.1 hstep.2 ((Leads.work_le hsteps).trans hn)]

theorem run_of_error (hne : w.stack ≠ []) {o : Obstacle ι}
    (h : w.step items dependencies = .error o) {n : Nat} (hn : work items dependencies w ≤ n) :
    run items dependencies n w = .error o := by
  have hpos : work items dependencies w ≠ 0 := fun h0 => by
    obtain ⟨frame, rest, hst⟩ := List.exists_cons_of_ne_nil hne
    simp [work, hst] at h0
  obtain ⟨m, rfl⟩ := Nat.exists_eq_succ_of_ne_zero (show n ≠ 0 by omega)
  rw [run_succ hne, h]
  rfl

/-- Finished dependencies are passed over one by one. -/
theorem leads_pass {x : ι} {passed pending : List ι} {rest : List (ι × List ι)}
    (hpassed : ∀ d ∈ passed, d ∈ items ∧ w.mark? d = some .done)
    (hst : w.stack = (x, passed ++ pending) :: rest) :
    Leads items dependencies w ⟨w.marks, (x, pending) :: rest, w.emitted⟩ := by
  induction passed generalizing w with
  | nil =>
    have hw : w = ⟨w.marks, (x, pending) :: rest, w.emitted⟩ := by
      rw [← List.nil_append pending, ← hst]
    rw [← hw]
    exact .refl
  | cons d passed ih =>
    obtain ⟨⟨hd, hm⟩, hpassed⟩ := List.forall_mem_cons.1 hpassed
    exact .head ⟨by simp [hst], step_pass hst hd hm⟩ (ih hpassed rfl)

end Order.Walk

namespace Step

namespace Search

/-- What a search keeps of a walk. -/
def walk (s : Search) : Order.Walk String :=
  ⟨s.marks, s.stack, (s.ordered.map Step.id).reverse⟩

/-- What has been looked at on a stack whose innermost id stands below `above`: all of it is
finished, but for `above` itself. -/
def Looked (dependencies : String → List String) (finished : List String) :
    Option String → List (String × List String) → Prop
  | _, [] => True
  | above, (id, pending) :: rest =>
    (∃ looked, dependencies id = looked ++ above.toList ++ pending ∧ ∀ d ∈ looked, d ∈ finished) ∧
      Looked dependencies finished (some id) rest

/-- What holds between any two rounds. -/
structure Invariant (steps : List Step) (dependencies : String → List String) (s : Search) :
    Prop where
  path_eq : s.path = (s.stack.map Prod.fst).reverse
  nodup_path : s.path.Nodup
  path_listed : ∀ id ∈ s.path, id ∈ steps.map Step.id
  open_iff : ∀ id, s.mark? id = some .open ↔ id ∈ s.path
  needed : s.path.IsChain fun below above => above ∈ dependencies below
  nodup_ordered : (s.ordered.map Step.id).Nodup
  done_iff : ∀ id, s.mark? id = some .done ↔ id ∈ s.ordered.map Step.id
  /-- Of what an open id has looked at, the last may be the id right above it on the stack. -/
  looked : ∀ inner id pending outer, s.stack = inner ++ (id, pending) :: outer →
    ∃ looked, dependencies id = looked ++ (inner.getLast?.map Prod.fst).toList ++ pending ∧
      ∀ d ∈ looked, s.mark? d = some .done
  nodup_entered : s.entered.Nodup

/-- The invariant, as far as the rounds need it. -/
structure Kept (steps : List Step) (dependencies : String → List String) (s : Search) : Prop where
  sound : s.walk.Sound (steps.map Step.id) dependencies
  work_le : s.walk.work (steps.map Step.id) dependencies ≤
    Order.stepBound (steps.map Step.id) dependencies
  waiting_listed : ∀ id ∈ s.waiting, id ∈ steps.map Step.id
  path_eq : s.path = s.walk.path
  first : ∀ t ∈ s.ordered, steps.find? (·.id == t.id) = some t
  looked : Looked dependencies (s.ordered.map Step.id) none s.stack
  nodup_entered : s.entered.Nodup
  entered_met : ∀ id ∈ s.entered, s.mark? id ≠ none

/-! ## What has been looked at -/

section
variable {dependencies : String → List String} {finished finished' : List String}
  {stack rest : List (String × List String)} {above : Option String} {id d : String}
  {passed pending : List String}

theorem Looked.mono (hsub : ∀ d ∈ finished, d ∈ finished')
    (h : Looked dependencies finished above stack) : Looked dependencies finished' above stack := by
  induction stack generalizing above with
  | nil => trivial
  | cons frame rest ih =>
    obtain ⟨⟨looked, hdeps, hlooked⟩, hrest⟩ := h
    exact ⟨⟨looked, hdeps, fun d hd => hsub d (hlooked d hd)⟩, ih hrest⟩

/-- The id above the stack is finished. -/
theorem Looked.finish (h : Looked dependencies finished (some id) rest) :
    Looked dependencies (finished ++ [id]) none rest := by
  have hsub : ∀ d ∈ finished, d ∈ finished ++ [id] := fun _ hd => List.mem_append_left _ hd
  cases rest with
  | nil => trivial
  | cons frame rest =>
    obtain ⟨⟨looked, hdeps, hlooked⟩, hrest⟩ := h
    refine ⟨⟨looked ++ [id], by simpa using hdeps, fun d hd => ?_⟩, hrest.mono hsub⟩
    rcases List.mem_append.1 hd with hd | hd
    · exact hsub d (hlooked d hd)
    · exact List.mem_append_right _ hd

theorem Looked.descend (h : Looked dependencies finished none ((id, passed ++ d :: pending) :: rest))
    (hpassed : ∀ e ∈ passed, e ∈ finished) :
    Looked dependencies finished (some d) ((id, pending) :: rest) := by
  obtain ⟨⟨looked, hdeps, hlooked⟩, hrest⟩ := h
  refine ⟨⟨looked ++ passed, by simpa using hdeps, fun e he => ?_⟩, hrest⟩
  rcases List.mem_append.1 he with he | he
  · exact hlooked e he
  · exact hpassed e he

theorem Looked.enter (h : Looked dependencies finished (some d) stack) :
    Looked dependencies finished none ((d, dependencies d) :: stack) :=
  ⟨⟨[], rfl, List.forall_mem_nil _⟩, h⟩

theorem Looked.split {inner outer : List (String × List String)}
    (h : Looked dependencies finished above (inner ++ (id, pending) :: outer)) :
    ∃ looked, dependencies id =
        looked ++ ((inner.getLast?.map Prod.fst).or above).toList ++ pending ∧
      ∀ d ∈ looked, d ∈ finished := by
  induction inner generalizing above with
  | nil => simpa using h.1
  | cons frame inner ih =>
    obtain ⟨looked, hdeps, hlooked⟩ := ih h.2
    refine ⟨looked, ?_, hlooked⟩
    rw [hdeps]
    cases inner with
    | nil => rfl
    | cons next inner => simp [List.getLast?_cons]

end

/-! ## Rounds -/

section
variable {steps : List Step} {dependencies : String → List String} {s s' : Search}

theorem Kept.start (steps : List Step) (dependencies : String → List String) :
    Kept steps dependencies (start steps) := by
  have hidle : Order.Walk.Idle (steps.map Step.id) dependencies .start := .start
  refine ⟨hidle.sound, ?_, fun _ h => h, rfl, ?_, trivial, .nil, ?_⟩
  · simpa [walk, Search.start, Order.Walk.work, Order.Walk.unmet] using
      Order.Walk.stepBound_sublist dependencies List.filter_sublist
  · exact List.forall_mem_nil _
  · exact List.forall_mem_nil _

/-- While an id is open, a round is at least one step of the walk. -/
theorem Move.leads (h : Move steps dependencies s s') (hstack : s.stack ≠ []) :
    ∃ w, Order.Walk.Leads (steps.map Step.id) dependencies s.walk w ∧ w.stack ≠ [] ∧
      w.step (steps.map Step.id) dependencies = .ok s'.walk := by
  cases h with
  | skip hnil => exact absurd hnil hstack
  | visit hnil => exact absurd hnil hstack
  | descend hst hpassed hd hnew =>
    refine ⟨_, Order.Walk.leads_pass hpassed hst, List.cons_ne_nil _ _, ?_⟩
    exact Order.Walk.step_enter rfl hd hnew
  | @finish id passed rest step hst hpassed hstep =>
    have hst : s.walk.stack = (id, passed ++ []) :: rest := by rw [List.append_nil]; exact hst
    refine ⟨_, Order.Walk.leads_pass hpassed hst, List.cons_ne_nil _ _, ?_⟩
    rw [Order.Walk.step_finish rfl]
    simp [walk, close, find?_id hstep]

theorem Move.waiting_eq (h : Move steps dependencies s s') (hstack : s.stack ≠ []) :
    s'.waiting = s.waiting := by
  cases h with
  | skip hnil => exact absurd hnil hstack
  | visit hnil => exact absurd hnil hstack
  | descend => rfl
  | finish => rfl

/-- A mark is never taken away. -/
theorem met_cons {id d : String} {visit : Order.Visit} (hid : s.mark? id ≠ none) :
    ((d, visit) :: s.marks).lookup id ≠ none := by
  rw [List.lookup_cons]
  split
  · exact Option.some_ne_none visit
  · exact hid

theorem entered_enter {d : String} (hnodup : s.entered.Nodup)
    (hmet : ∀ id ∈ s.entered, s.mark? id ≠ none) (hnew : s.mark? d = none) :
    (s.enter dependencies d).entered.Nodup ∧
      ∀ id ∈ (s.enter dependencies d).entered, (s.enter dependencies d).mark? id ≠ none := by
  have hd : d ∉ s.entered := fun hd => hmet d hd hnew
  refine ⟨hnodup.append (List.nodup_singleton d) (by simpa using hd), fun id hid => ?_⟩
  rcases List.mem_append.1 hid with hid | hid
  · exact met_cons (hmet id hid)
  · obtain rfl := List.mem_singleton.1 hid
    simp [enter, mark?]

variable (hs : Kept steps dependencies s)
include hs

theorem Kept.mem_ordered {id : String} (hdone : s.mark? id = some .done) :
    id ∈ s.ordered.map Step.id :=
  List.mem_reverse.1 ((hs.sound.done_iff id).1 hdone)

/-- Where no id is open, one without a mark for finished has none. -/
theorem Kept.mark?_eq_none (hstack : s.stack = []) {id : String} (hdone : s.mark? id ≠ some .done) :
    s.mark? id = none := by
  cases hmark : s.mark? id with
  | none => rfl
  | some visit =>
    cases visit with
    | done => exact absurd hmark hdone
    | «open» =>
      have hopen := (hs.sound.open_iff id).1 hmark
      rw [Order.Walk.openItems, walk, hstack] at hopen
      cases hopen

variable (h : Move steps dependencies s s')
include h

theorem Move.sound : s'.walk.Sound (steps.map Step.id) dependencies ∧
    s'.walk.work (steps.map Step.id) dependencies ≤
      Order.stepBound (steps.map Step.id) dependencies := by
  by_cases hstack : s.stack = []
  · cases h with
    | skip => exact ⟨hs.sound, hs.work_le⟩
    | visit _ hwaiting hdone =>
      have hidle : s.walk.Idle (steps.map Step.id) dependencies := ⟨hs.sound, hstack⟩
      exact hidle.enter (hs.waiting_listed _ (hwaiting ▸ List.mem_cons_self)) hdone
    | descend hst => cases hstack.symm.trans hst
    | finish hst => cases hstack.symm.trans hst
  · obtain ⟨w, hleads, hne, hstep⟩ := h.leads hstack
    refine ⟨(hs.sound.leads hleads).step hstep, ?_⟩
    exact (Order.Walk.work_step hstep hne).le.trans (hleads.work_le.trans hs.work_le)

/-- How often the search may still be started, and what it has to do otherwise: both cannot go on
for ever. -/
theorem Move.rounds_lt :
    s'.waiting.length + s'.walk.work (steps.map Step.id) dependencies <
      s.waiting.length + s.walk.work (steps.map Step.id) dependencies := by
  by_cases hstack : s.stack = []
  · cases h with
    | skip _ hwaiting =>
      rw [hwaiting, List.length_cons]
      exact Nat.add_lt_add_right (Nat.lt_succ_self _) _
    | visit _ hwaiting hdone =>
      have hlisted := hs.waiting_listed _ (hwaiting ▸ List.mem_cons_self)
      have hnew := hs.mark?_eq_none hstack hdone
      rw [hwaiting, List.length_cons]
      exact Nat.add_lt_add_of_lt_of_le (Nat.lt_succ_self _)
        (Order.Walk.work_descend (w := s.walk) hlisted hnew s.stack)
    | descend hst => cases hstack.symm.trans hst
    | finish hst => cases hstack.symm.trans hst
  · obtain ⟨w, hleads, hne, hstep⟩ := h.leads hstack
    rw [h.waiting_eq hstack]
    exact Nat.add_lt_add_left ((Order.Walk.work_step hstep hne).trans_le hleads.work_le) _

theorem Move.waiting_listed : ∀ id ∈ s'.waiting, id ∈ steps.map Step.id := by
  have hlisted := hs.waiting_listed
  cases h with
  | skip _ hwaiting => exact fun id hid => hlisted id (hwaiting ▸ List.mem_cons_of_mem _ hid)
  | visit _ hwaiting => exact fun id hid => hlisted id (hwaiting ▸ List.mem_cons_of_mem _ hid)
  | descend => exact hlisted
  | finish => exact hlisted

theorem Move.path_eq : s'.path = s'.walk.path := by
  have hpath : s.path = (s.stack.map Prod.fst).reverse := hs.path_eq
  cases h with
  | skip => exact hpath
  | visit => simp [enter, walk, Order.Walk.path, hpath]
  | descend hst => simp [enter, walk, Order.Walk.path, hpath, hst]
  | finish hst => simp [close, walk, Order.Walk.path, hpath, hst]

theorem Move.first : ∀ t ∈ s'.ordered, steps.find? (·.id == t.id) = some t := by
  have hfirst := hs.first
  cases h with
  | skip => exact hfirst
  | visit => exact hfirst
  | descend => exact hfirst
  | finish _ _ hstep =>
    refine List.forall_mem_append.2 ⟨hfirst, List.forall_mem_singleton.2 ?_⟩
    rw [find?_id hstep, hstep]

theorem Move.looked : Looked dependencies (s'.ordered.map Step.id) none s'.stack := by
  have hlooked := hs.looked
  cases h with
  | skip => exact hlooked
  | visit hstack =>
    rw [hstack] at hlooked
    refine Looked.enter ?_
    rw [hstack]
    trivial
  | descend hst hpassed =>
    rw [hst] at hlooked
    exact (hlooked.descend fun e he => hs.mem_ordered (hpassed e he).2).enter
  | finish hst _ hstep =>
    rw [hst] at hlooked
    rw [close, List.map_append, List.map_singleton, find?_id hstep]
    exact hlooked.2.finish

theorem Move.entered : s'.entered.Nodup ∧ ∀ id ∈ s'.entered, s'.mark? id ≠ none := by
  have hnodup := hs.nodup_entered
  have hmet := hs.entered_met
  cases h with
  | skip => exact ⟨hnodup, hmet⟩
  | visit hstack _ hdone => exact entered_enter hnodup hmet (hs.mark?_eq_none hstack hdone)
  | descend _ _ _ hnew => exact entered_enter hnodup hmet hnew
  | finish => exact ⟨hnodup, fun id hid => met_cons (hmet id hid)⟩

theorem Kept.move : Kept steps dependencies s' where
  sound := (h.sound hs).1
  work_le := (h.sound hs).2
  waiting_listed := h.waiting_listed hs
  path_eq := h.path_eq hs
  first := h.first hs
  looked := h.looked hs
  nodup_entered := (h.entered hs).1
  entered_met := (h.entered hs).2

end

theorem Reached.kept {steps : List Step} {dependencies : String → List String} {s : Search}
    (hreached : Reached steps dependencies s) : Kept steps dependencies s := by
  induction hreached with
  | start => exact .start steps dependencies
  | @next s s' _ h ih =>
    by_cases hover : s.IsOver
    · have hsame : s.next steps dependencies = .ok s := by simp [Search.next, hover.1, hover.2]
      cases hsame.symm.trans h
      exact ih
    · exact ih.move (move_of_next h hover)

theorem Kept.invariant {steps : List Step} {dependencies : String → List String} {s : Search}
    (hs : Kept steps dependencies s) : s.Invariant steps dependencies := by
  have hpath : s.path = s.walk.openItems.reverse := hs.path_eq
  have hmem : ∀ id, id ∈ s.path ↔ id ∈ s.walk.openItems := fun id => by
    rw [hpath, List.mem_reverse]
  have hdone : ∀ id, s.mark? id = some .done ↔ id ∈ s.ordered.map Step.id := fun id => by
    rw [← List.mem_reverse]
    exact hs.sound.done_iff id
  refine ⟨hs.path_eq, ?_, ?_, fun id => ?_, ?_, ?_, hdone, ?_, hs.nodup_entered⟩
  · rw [hpath, List.nodup_reverse]
    exact hs.sound.nodup_open
  · exact fun id hid => hs.sound.open_listed id ((hmem id).1 hid)
  · rw [hmem]
    exact hs.sound.open_iff id
  · rw [hpath, List.isChain_reverse]
    exact hs.sound.frames.isChain
  · exact List.nodup_reverse.1 hs.sound.nodup_emitted
  · intro inner id pending outer hstack
    have hlooked := hs.looked
    rw [hstack] at hlooked
    obtain ⟨looked, hdeps, hfinished⟩ := hlooked.split
    refine ⟨looked, by simpa using hdeps, fun d hd => ?_⟩
    exact (hdone d).2 (hfinished d hd)

/-! ## What a search ends with -/

/-- What the walk comes to from here on. -/
def outcome (steps : List Step) (dependencies : String → List String) (s : Search) :
    Except (Order.Obstacle String) (Order.Walk String) :=
  let bound := Order.stepBound (steps.map Step.id) dependencies
  s.walk.run (steps.map Step.id) dependencies bound >>= fun w =>
    s.waiting.foldlM (Order.Walk.visit (steps.map Step.id) dependencies bound) w

section
variable {steps : List Step} {dependencies : String → List String} {s s' : Search}

theorem outcome_of_stack_nil (hstack : s.stack = []) : s.outcome steps dependencies =
    s.waiting.foldlM (Order.Walk.visit (steps.map Step.id) dependencies
      (Order.stepBound (steps.map Step.id) dependencies)) s.walk := by
  rw [outcome, Order.Walk.run_of_stack_nil (w := s.walk) hstack]
  rfl

theorem order_eq_outcome (steps : List Step) (dependencies : String → List String) :
    order steps dependencies = match (start steps).outcome steps dependencies with
      | .ok w => .ok (firsts steps w.emitted.reverse)
      | .error o => report (obstacleError o) := by
  have hstart : (start steps).outcome steps dependencies =
      (steps.map Step.id).foldlM (Order.Walk.visit (steps.map Step.id) dependencies
        (Order.stepBound (steps.map Step.id) dependencies)) .start := outcome_of_stack_nil rfl
  rw [hstart, order, Order.sort]
  cases (steps.map Step.id).foldlM (Order.Walk.visit (steps.map Step.id) dependencies
    (Order.stepBound (steps.map Step.id) dependencies)) .start <;> rfl

theorem Move.outcome_eq (hs : Kept steps dependencies s) (h : Move steps dependencies s s') :
    s.outcome steps dependencies = s'.outcome steps dependencies := by
  by_cases hstack : s.stack = []
  · rw [outcome_of_stack_nil hstack]
    cases h with
    | skip _ hwaiting hdone =>
      rw [outcome_of_stack_nil (by exact hstack), hwaiting, List.foldlM_cons, Order.Walk.visit,
        if_pos (by exact hdone)]
      rfl
    | visit _ hwaiting hdone =>
      rw [hwaiting, List.foldlM_cons, Order.Walk.visit, if_neg (by exact hdone)]
      rfl
    | descend hst => cases hstack.symm.trans hst
    | finish hst => cases hstack.symm.trans hst
  · obtain ⟨w, hleads, hne, hstep⟩ := h.leads hstack
    have hwaiting : s'.waiting = s.waiting := h.waiting_eq hstack
    rw [outcome, outcome, hwaiting, hleads.run_eq hs.work_le,
      Order.Walk.run_of_step hne hstep (hleads.work_le.trans hs.work_le)]

/-- An open id is on the path, and the part from its place on is what the walk takes. -/
theorem cycleFrom_eq {d : String} (hd : d ∈ s.path) :
    s.cycleFrom d = .obstacle (.cycle (s.path.dropWhile (· != d) ++ [d])) := by
  have hplace : s.path.idxOf? d = some (s.path.idxOf d) :=
    List.findIdx?_eq_some_iff_findIdx_eq.2 ⟨List.idxOf_lt_length_of_mem hd, rfl⟩
  have hdrop : s.path.dropWhile (· != d) = s.path.drop (s.path.idxOf d) := by
    simp only [List.dropWhile_eq_drop_findIdx_not, bne, Bool.not_not, List.idxOf]
  rw [cycleFrom, hplace, hdrop]

/-- A failure after the dependencies that are passed over. -/
theorem Kept.outcome_of_error (hs : Kept steps dependencies s) {id : String}
    {passed pending : List String} {rest : List (String × List String)}
    (hstack : s.stack = (id, passed ++ pending) :: rest) (hpassed : s.Passed steps passed)
    {o : Order.Obstacle String}
    (hstep : Order.Walk.step (steps.map Step.id) dependencies
      ⟨s.walk.marks, (id, pending) :: rest, s.walk.emitted⟩ = .error o) :
    s.outcome steps dependencies = .error o := by
  have hleads : Order.Walk.Leads (steps.map Step.id) dependencies s.walk
      ⟨s.walk.marks, (id, pending) :: rest, s.walk.emitted⟩ :=
    Order.Walk.leads_pass hpassed hstack
  rw [outcome, hleads.run_eq hs.work_le, Order.Walk.run_of_error (List.cons_ne_nil _ _) hstep
    (hleads.work_le.trans hs.work_le)]
  rfl

/-- A round fails only because there is no order: an open id is on the path, so that its place is
found, and an id on the stack is that of a step. -/
theorem Kept.obstacle_of_error {stop : Stop} (hs : Kept steps dependencies s)
    (h : s.next steps dependencies = .error stop) :
    ∃ o, stop = .obstacle o ∧ s.outcome steps dependencies = .error o := by
  obtain ⟨id, pending, rest, hstack, hcause⟩ := next_error h
  have hopen : id ∈ s.walk.openItems := by simp [Order.Walk.openItems, walk, hstack]
  rcases hcause with ⟨passed, d, after, rfl, hpassed, hcause⟩ | hpath | hstep
  · rcases hcause with ⟨hd, rfl⟩ | ⟨hd, hmark, rfl⟩
    · exact ⟨_, rfl, hs.outcome_of_error hstack hpassed (Order.Walk.step_unknown rfl hd)⟩
    · refine ⟨_, ?_, hs.outcome_of_error hstack hpassed (Order.Walk.step_cycle rfl hd hmark)⟩
      have hpath : s.path =
          Order.Walk.path ⟨s.walk.marks, (id, d :: after) :: rest, s.walk.emitted⟩ := by
        rw [hs.path_eq, Order.Walk.path, Order.Walk.path, walk, hstack]
        rfl
      rw [cycleFrom_eq ((hs.invariant.open_iff d).1 hmark), hpath]
      rfl
  · have hmem : id ∈ s.path := by
      rw [hs.path_eq]
      exact List.mem_reverse.2 hopen
    rw [hpath] at hmem
    cases hmem
  · obtain ⟨t, ht⟩ := exists_find? (hs.sound.open_listed id hopen)
    cases hstep.symm.trans ht

/-- What a search comes to is what the walk comes to. -/
theorem Kept.ends (hs : Kept steps dependencies s) :
    (∃ s', Ends steps dependencies s (.ok s') ∧ Kept steps dependencies s' ∧
        s.outcome steps dependencies = .ok s'.walk) ∨
      ∃ o, Ends steps dependencies s (.error (.obstacle o)) ∧
        s.outcome steps dependencies = .error o := by
  induction hn : s.waiting.length + s.walk.work (steps.map Step.id) dependencies
    using Nat.strong_induction_on generalizing s with
  | _ n ih =>
    by_cases hover : s.IsOver
    · refine .inl ⟨s, .over hover, hs, ?_⟩
      rw [outcome_of_stack_nil hover.1, hover.2]
      rfl
    · cases h : s.next steps dependencies with
      | error stop =>
        obtain ⟨o, rfl, ho⟩ := hs.obstacle_of_error h
        exact .inr ⟨o, .stop h, ho⟩
      | ok s' =>
        have hmove := move_of_next h hover
        rw [hmove.outcome_eq hs]
        rcases ih _ (hn ▸ hmove.rounds_lt hs) (hs.move hmove) rfl with
          ⟨last, hends, hlast, hout⟩ | ⟨o, hends, ho⟩
        · exact .inl ⟨last, .next hover h hends, hlast, hout⟩
        · exact .inr ⟨o, .next hover h hends, ho⟩

end

end Search

/-- A search for an order of any steps keeps its parts together, fails only because there is no
order, and ends. -/
theorem order_search (steps : List Step) (dependencies : String → List String) :
    (∀ s, Search.Reached steps dependencies s → s.Invariant steps dependencies ∧
      ∀ stop, s.next steps dependencies = .error stop → ∃ o, stop = .obstacle o) ∧
    ((∃ s, Search.Ends steps dependencies (.start steps) (.ok s) ∧
        order steps dependencies = .ok s.ordered) ∨
      ∃ o, Search.Ends steps dependencies (.start steps) (.error (.obstacle o)) ∧
        order steps dependencies = report (obstacleError o)) := by
  refine ⟨fun s hreached => ?_, ?_⟩
  · have hs := hreached.kept
    refine ⟨hs.invariant, fun stop h => ?_⟩
    obtain ⟨o, rfl, -⟩ := hs.obstacle_of_error h
    exact ⟨o, rfl⟩
  · rw [Search.order_eq_outcome]
    rcases (Search.Kept.start steps dependencies).ends with ⟨s, hends, hs, hout⟩ | ⟨o, hends, hout⟩
    · refine .inl ⟨s, hends, ?_⟩
      rw [hout]
      simp only [Search.walk, List.reverse_reverse, firsts_map_id hs.first]
    · refine .inr ⟨o, hends, ?_⟩
      rw [hout]

/-- `deploy` stands below `test`, which needs it; of what `deploy` needs, `build` is finished. -/
theorem order_search_cycle :
    let steps := ["deploy", "test", "build"].map (bare · "step")
    let dependencies := dependenciesIn [("deploy", ["build", "test"]), ("test", ["deploy"])]
    ∃ s, Search.Reached steps dependencies s ∧ s.path = ["deploy", "test"] ∧
      s.Invariant steps dependencies ∧
      s.next steps dependencies = .error (.obstacle (.cycle ["deploy", "test", "deploy"])) ∧
      ∃ o, Search.Ends steps dependencies (.start steps) (.error (.obstacle o)) := by
  intro steps dependencies
  have hreached : Search.Reached steps dependencies _ :=
    .next (.next (.next (.next .start rfl) rfl) rfl) rfl
  refine ⟨_, hreached, rfl, ((order_search steps dependencies).1 _ hreached).1, rfl, ?_⟩
  rcases (order_search steps dependencies).2 with ⟨s, -, hok⟩ | ⟨o, hends, -⟩
  · cases hok
  · exact ⟨o, hends⟩

end Step

end StepGraph
