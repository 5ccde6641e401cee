import StepGraph.Proofs.Graph.Position
import StepGraph.Proofs.Graph.ToWorkflow

/-!
# When saving a graph has an answer

Saving a graph breaks off for three reasons only. Nodes or edges may be something without items
(`HasItems`), a whole coordinate of a node may be beyond the doubles (`Number.Fits`), where it
cannot be tested for being finite, and the trigger may have a number in the place of its kind or of
a key that is too long to be written in a message (`Schema.TriggerCheckable`).

* `toWorkflow_answers`: otherwise a workflow comes out or an error is reported, however malformed
  the nodes, edges, trigger, metadata and version are.
-/

set_option autoImplicit false

namespace StepGraph

/-- A whole number is not beyond the doubles. -/
def Number.Fits (n : Number) : Prop :=
  ∀ i, n = .int i → (Double.ofInt i).isFinite = true

def Position.Fits (p : Position) : Prop :=
  p.x.Fits ∧ p.y.Fits

theorem Number.fits_of_isFinite {n : Number} (h : n.toDouble.isFinite = true) : n.Fits := by
  rintro i rfl
  exact h

theorem Number.Fits.isHuge {n : Number} (h : n.Fits) : n.isHuge = false := by
  cases n with
  | int i => simpa [Number.isHuge] using h i rfl
  | float d => rfl

/-- What an author may list things in: a list, a mapping or a text. -/
def Value.HasItems (v : Value) : Prop :=
  ∀ s, v = .scalar s → s.isString = true

namespace Graph

theorem itemsOf_answers {v : Value} (h : v.HasItems) : (itemsOf v).Answers := by
  unfold itemsOf
  split
  · exact Attempt.answers_ok _
  · exact Attempt.answers_ok _
  · exact Attempt.answers_ok _
  · rename_i hlist hmap htext
    cases v with
    | list items => exact absurd rfl (hlist items)
    | map entries => exact absurd rfl (hmap entries)
    | scalar s =>
      cases s with
      | str s => exact absurd rfl (htext s)
      | null => cases h _ rfl
      | bool b => cases h _ rfl
      | num n => cases h _ rfl

theorem read_answers {nodes edges : Value} (hn : nodes.HasItems) (he : edges.HasItems) :
    (read nodes edges).Answers := by
  apply (itemsOf_answers hn).bind
  intro nodeItems _
  apply (itemsOf_answers he).bind
  intro edgeItems _
  dsimp only
  split
  · exact Attempt.answers_ok _
  · exact Attempt.answers_report _

/-! ## Positions -/

theorem isFinite_answers {n : Number} (h : n.Fits) : (isFinite n).Answers := by
  cases n with
  | int i =>
    rw [isFinite, if_pos (h i rfl)]
    exact Attempt.answers_ok _
  | float d => exact Attempt.answers_ok _

theorem storedPosition_answers (round : Bool) {p : Position} (h : p.Fits) :
    (storedPosition round p).Answers := by
  cases round with
  | false => exact Attempt.answers_ok p
  | true =>
    apply (isFinite_answers h.1).bind
    intro x _
    cases x with
    | false => exact Attempt.answers_ok p
    | true =>
      apply (isFinite_answers h.2).bind
      intro y _
      cases y <;> exact Attempt.answers_ok _

theorem storedPosition_fits {round : Bool} {p p' : Position} (hp : p.Fits)
    (h : storedPosition round p = .ok p') : p'.Fits := by
  rcases storedPosition_eq_ok h with ⟨-, hf, rfl⟩ | ⟨-, rfl⟩
  · exact ⟨Number.fits_of_isFinite (isFinite_roundHalfUp hf.1),
      Number.fits_of_isFinite (isFinite_roundHalfUp hf.2)⟩
  · exact hp

/-! ## The stages -/

section
variable {config : Config} {raw : RawGraph}

theorem stepsOfNodes_answers {found : List (String × List String)} {nodes : List Node}
    (h : ∀ n ∈ nodes, n.position.Fits) : (stepsOfNodes config found nodes).Answers := by
  induction nodes with
  | nil => exact Attempt.answers_ok []
  | cons n nodes ih =>
    obtain ⟨hn, hnodes⟩ := List.forall_mem_cons.1 h
    have hstep : (stepOfNode config (found.lookup n.id) n).Answers :=
      (storedPosition_answers config.roundPositions hn).bind fun p _ => Attempt.answers_ok _
    apply hstep.bind
    intro s _
    exact (ih hnodes).bind fun steps _ => Attempt.answers_ok _

/-- Saving a graph has an answer if nodes and edges have items, the trigger can be checked and no
whole coordinate is beyond the doubles. -/
theorem toWorkflow_answers (hnodes : raw.nodes.HasItems) (hedges : raw.edges.HasItems)
    (htrigger : Schema.TriggerCheckable raw.trigger)
    (hfits : ∀ nodes edges, read raw.nodes raw.edges = .ok (nodes, edges) →
      ∀ n ∈ nodes, n.position.Fits) : (toWorkflow config raw).Answers := by
  apply (read_answers hnodes hedges).bind
  rintro ⟨nodes, edges⟩ hread
  have hn := hfits nodes edges hread
  apply (stepsOfNodes_answers hn).bind
  intro steps hsteps
  apply (Step.assertDistinctIds_answers steps).bind
  intro _ _
  apply (Step.orderByDependencies_answers steps).bind
  intro ordered hordered
  apply Workflow.ofValue_answers
  refine (checkable_rawWorkflow_iff config raw ordered).2 ⟨htrigger, fun s hs => ?_⟩
  refine Schema.stepCheckable_toValue.2 fun p hp => ?_
  obtain ⟨n, hmem, hs⟩ := mem_of_stepsOfNodes hsteps (Step.mem_of_order hordered hs)
  obtain ⟨q, hq, rfl⟩ := stepOfNode_eq_ok.1 hs
  cases hp
  have hfit := storedPosition_fits (hn n hmem) hq
  exact ⟨hfit.1.isHuge, hfit.2.isHuge⟩

end

/-- One node, its position as given. -/
def single (position : Position) : RawGraph where
  nodes := .list [Node.toValue ⟨"start", "log", position, "Start", []⟩]
  edges := .list []
  trigger := (⟨.form, []⟩ : Trigger).toValue
  metadata := .null
  version := .null

/-- An infinite coordinate is reported. -/
example : toWorkflow .standard (single ⟨.float (.infinity false), .int 0⟩) =
    report (.invalid .workflow
      [⟨[.name "steps", .index 0, .name "position", .name "x"], .notFinite⟩]) := by
  rfl

/-- A whole coordinate beyond the doubles has no answer. -/
example : ((toWorkflow .standard (single ⟨.int (2 ^ 1024), .int 0⟩)).succeeded : Result Bool) =
    breakOff .tooLarge := by
  decide +kernel

end Graph

end StepGraph
