import StepGraph.Proofs.Workflow.Order

/-!
# A search that looks things up

`Search` looks for the order of steps as `Step.order` does, with every part of its state in a list of
its own: the marks, the path of open ids, the stack, the ordered steps, and the ids at which it has
still to be started. The parts have to fit together. A search that meets an open id looks for its
place on the path, one that finishes an id takes the last one off the path and looks for its step, and
none of these need be there (`Stop`).

`Search.next` is one round: it looks at the pending dependencies of the innermost id up to the first
that has not been met, and enters that one or finishes the id. `Move` lists what a round can do
(`move_of_next`), and `next_error` how it can fail. `Reached` holds of every state that a search comes
to between two rounds, `Ends` of what it comes to at last, if it does.
-/

set_option autoImplicit false

namespace StepGraph.Step

structure Search where
  /-- The ids at which the search has still to be started. -/
  waiting : List String
  /-- The last mark set for an id counts. -/
  marks : List (String × Order.Visit)
  /-- Open ids, the outermost first. -/
  path : List String
  /-- Open ids, the innermost first, with the dependencies to look at. -/
  stack : List (String × List String)
  ordered : List Step
  /-- Every id that was entered, the first one first. Nothing looks at it. -/
  entered : List String

/-- Why a search fails. -/
inductive Stop
  /-- There is no order. -/
  | obstacle (o : Order.Obstacle String)
  /-- An open id is not on the path. -/
  | notOnPath (id : String)
  /-- There is an id on the stack, but none on the path. -/
  | emptyPath
  /-- An id on the stack is that of no step. -/
  | noStep (id : String)

namespace Search

def start (steps : List Step) : Search :=
  ⟨steps.map Step.id, [], [], [], [], []⟩

def mark? (s : Search) (id : String) : Option Order.Visit :=
  s.marks.lookup id

def enter (dependencies : String → List String) (id : String) (s : Search) : Search :=
  { s with
    marks := (id, .open) :: s.marks
    path := s.path ++ [id]
    stack := (id, dependencies id) :: s.stack
    entered := s.entered ++ [id] }

/-- The part of the path from an open id on, closed by the id. -/
def cycleFrom (s : Search) (id : String) : Stop :=
  match s.path.idxOf? id with
  | some place => .obstacle (.cycle (s.path.drop place ++ [id]))
  | none => .notOnPath id

/-- The first pending dependency of `id` that has not been met, with those after it. -/
def look (steps : List Step) (s : Search) (id : String) :
    List String → Except Stop (Option (String × List String))
  | [] => .ok none
  | d :: pending =>
    match steps.find? (·.id == d) with
    | none => .error (.obstacle (.unknown id d))
    | some _ =>
      match s.mark? d with
      | some .done => look steps s id pending
      | some .open => .error (s.cycleFrom d)
      | none => .ok (some (d, pending))

/-- The innermost id is closed, and its step comes next in the order. -/
def close (id : String) (step : Step) (rest : List (String × List String)) (s : Search) : Search :=
  { s with
    marks := (id, .done) :: s.marks
    path := s.path.dropLast
    stack := rest
    ordered := s.ordered ++ [step] }

def finish (steps : List Step) (id : String) (rest : List (String × List String)) (s : Search) :
    Except Stop Search :=
  if s.path.isEmpty then .error .emptyPath
  else
    match steps.find? (·.id == id) with
    | none => .error (.noStep id)
    | some step => .ok (s.close id step rest)

/-- One round while an id is open. The search is started at the next waiting id if none is. -/
def next (steps : List Step) (dependencies : String → List String) (s : Search) :
    Except Stop Search :=
  match s.stack with
  | (id, pending) :: rest =>
    match s.look steps id pending with
    | .error stop => .error stop
    | .ok none => s.finish steps id rest
    | .ok (some (d, pending)) =>
      .ok ({ s with stack := (id, pending) :: rest : Search }.enter dependencies d)
  | [] =>
    match s.waiting with
    | [] => .ok s
    | id :: waiting =>
      let s := { s with waiting := waiting }
      if s.mark? id = some .done then .ok s else .ok (s.enter dependencies id)

/-- Nothing is open and nothing waits. -/
def IsOver (s : Search) : Prop :=
  s.stack = [] ∧ s.waiting = []

section
variable (steps : List Step) (dependencies : String → List String)

/-- The states between two rounds. -/
inductive Reached : Search → Prop
  | start : Reached (start steps)
  | next {s s' : Search} (hs : Reached s) (h : s.next steps dependencies = .ok s') : Reached s'

/-- What a search comes to after finitely many rounds. -/
inductive Ends : Search → Except Stop Search → Prop
  | over {s : Search} (hover : s.IsOver) : Ends s (.ok s)
  | stop {s : Search} {stop : Stop} (h : s.next steps dependencies = .error stop) :
      Ends s (.error stop)
  | next {s s' : Search} {result : Except Stop Search} (hover : ¬ s.IsOver)
      (h : s.next steps dependencies = .ok s') (hends : Ends s' result) : Ends s result

/-- Dependencies that are passed over: they have a step, and this one is finished. -/
def Passed (s : Search) (ids : List String) : Prop :=
  ∀ d ∈ ids, d ∈ steps.map Step.id ∧ s.mark? d = some .done

/-- Everything that a round can do before the search is over. -/
inductive Move : Search → Search → Prop
  | skip {s : Search} {id : String} {waiting : List String} (hstack : s.stack = [])
      (hwaiting : s.waiting = id :: waiting) (hdone : s.mark? id = some .done) :
      Move s { s with waiting := waiting }
  | visit {s : Search} {id : String} {waiting : List String} (hstack : s.stack = [])
      (hwaiting : s.waiting = id :: waiting) (hdone : s.mark? id ≠ some .done) :
      Move s ({ s with waiting := waiting : Search }.enter dependencies id)
  | descend {s : Search} {id d : String} {passed pending : List String}
      {rest : List (String × List String)} (hstack : s.stack = (id, passed ++ d :: pending) :: rest)
      (hpassed : s.Passed steps passed) (hlisted : d ∈ steps.map Step.id)
      (hnew : s.mark? d = none) :
      Move s ({ s with stack := (id, pending) :: rest : Search }.enter dependencies d)
  | finish {s : Search} {id : String} {passed : List String} {rest : List (String × List String)}
      {step : Step} (hstack : s.stack = (id, passed) :: rest) (hpassed : s.Passed steps passed)
      (hstep : steps.find? (·.id == id) = some step) : Move s (s.close id step rest)

end

/-! ## Rounds -/

variable {steps : List Step} {dependencies : String → List String} {s s' : Search}

theorem Passed.cons {d : String} {ids : List String} (hlisted : d ∈ steps.map Step.id)
    (hdone : s.mark? d = some .done) (h : s.Passed steps ids) : s.Passed steps (d :: ids) :=
  List.forall_mem_cons.2 ⟨⟨hlisted, hdone⟩, h⟩

/-- Finished dependencies are passed over, up to the first other one. -/
theorem look_cases (steps : List Step) (s : Search) (id : String) (pending : List String) :
    (s.Passed steps pending ∧ s.look steps id pending = .ok none) ∨
      ∃ passed d rest, pending = passed ++ d :: rest ∧ s.Passed steps passed ∧
        ((d ∉ steps.map Step.id ∧
            s.look steps id pending = .error (.obstacle (.unknown id d))) ∨
          (d ∈ steps.map Step.id ∧ s.mark? d = some .open ∧
            s.look steps id pending = .error (s.cycleFrom d)) ∨
          (d ∈ steps.map Step.id ∧ s.mark? d = none ∧
            s.look steps id pending = .ok (some (d, rest)))) := by
  have hnone : s.Passed steps [] := List.forall_mem_nil _
  induction pending with
  | nil => exact .inl ⟨hnone, rfl⟩
  | cons d pending ih =>
    cases hfind : steps.find? (·.id == d) with
    | none =>
      have hd : d ∉ steps.map Step.id := fun hd => by
        obtain ⟨t, ht⟩ := exists_find? hd
        cases hfind.symm.trans ht
      exact .inr ⟨[], d, pending, rfl, hnone, .inl ⟨hd, by rw [look, hfind]⟩⟩
    | some t =>
      have hd := mem_ids_of_find? hfind
      cases hmark : s.mark? d with
      | none => exact .inr ⟨[], d, pending, rfl, hnone, .inr (.inr ⟨hd, hmark, by simp [look, *]⟩)⟩
      | some visit =>
        cases visit with
        | «open» =>
          exact .inr ⟨[], d, pending, rfl, hnone, .inr (.inl ⟨hd, hmark, by simp [look, *]⟩)⟩
        | done =>
          have hskip : s.look steps id (d :: pending) = s.look steps id pending := by
            simp [look, *]
          rw [hskip]
          rcases ih with ⟨hpassed, hlook⟩ | ⟨passed, e, rest, rfl, hpassed, hlook⟩
          · exact .inl ⟨hpassed.cons hd hmark, hlook⟩
          · exact .inr ⟨d :: passed, e, rest, rfl, hpassed.cons hd hmark, hlook⟩

theorem finish_eq_ok {id : String} {rest : List (String × List String)}
    (h : s.finish steps id rest = .ok s') :
    ∃ step, steps.find? (·.id == id) = some step ∧ s' = s.close id step rest := by
  unfold finish at h
  split at h
  · cases h
  · split at h
    · cases h
    · cases h
      exact ⟨_, ‹_›, rfl⟩

theorem finish_eq_error {id : String} {rest : List (String × List String)} {stop : Stop}
    (h : s.finish steps id rest = .error stop) :
    s.path = [] ∨ steps.find? (·.id == id) = none := by
  unfold finish at h
  split at h
  · exact .inl (List.isEmpty_iff.1 ‹_›)
  · split at h
    · exact .inr ‹_›
    · cases h

theorem move_of_next (h : s.next steps dependencies = .ok s') (hover : ¬ s.IsOver) :
    Move steps dependencies s s' := by
  unfold next at h
  split at h
  · rename_i id pending rest hstack
    rcases look_cases steps s id pending with
      ⟨hpassed, hlook⟩ | ⟨passed, d, after, rfl, hpassed, ⟨-, hlook⟩ | ⟨-, -, hlook⟩ | ⟨hd, hnew, hlook⟩⟩
    all_goals simp only [hlook] at h
    · obtain ⟨step, hstep, rfl⟩ := finish_eq_ok h
      exact .finish hstack hpassed hstep
    · cases h
    · cases h
    · cases h
      exact .descend hstack hpassed hd hnew
  · rename_i hstack
    split at h
    · exact absurd ⟨hstack, ‹_›⟩ hover
    · rename_i id waiting hwaiting
      dsimp only at h
      split at h
      · cases h
        exact .skip hstack hwaiting ‹_›
      · cases h
        exact .visit hstack hwaiting ‹_›

/-- Every way in which a round can fail. -/
theorem next_error {stop : Stop} (h : s.next steps dependencies = .error stop) :
    ∃ id pending rest, s.stack = (id, pending) :: rest ∧
      ((∃ passed d after, pending = passed ++ d :: after ∧ s.Passed steps passed ∧
        ((d ∉ steps.map Step.id ∧ stop = .obstacle (.unknown id d)) ∨
          (d ∈ steps.map Step.id ∧ s.mark? d = some .open ∧ stop = s.cycleFrom d))) ∨
      s.path = [] ∨ steps.find? (·.id == id) = none) := by
  unfold next at h
  split at h
  · rename_i id pending rest hstack
    refine ⟨id, pending, rest, hstack, ?_⟩
    rcases look_cases steps s id pending with
      ⟨-, hlook⟩ | ⟨passed, d, after, rfl, hpassed, ⟨hd, hlook⟩ | ⟨hd, hopen, hlook⟩ | ⟨-, -, hlook⟩⟩
    all_goals simp only [hlook] at h
    · exact .inr (finish_eq_error h)
    · cases h
      exact .inl ⟨passed, d, after, rfl, hpassed, .inl ⟨hd, rfl⟩⟩
    · cases h
      exact .inl ⟨passed, d, after, rfl, hpassed, .inr ⟨hd, hopen, rfl⟩⟩
    · cases h
  · split at h
    · cases h
    · dsimp only at h
      split at h <;> cases h

end Search

end StepGraph.Step
