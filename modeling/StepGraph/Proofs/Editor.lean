import StepGraph.Editor
import StepGraph.Proofs.Graph.Saved
import StepGraph.Proofs.Graph.Shown

/-!
# Sessions of the editor

An action opens a document, saves the canvas, checks it or changes it (`Does`, `does_of_perform`).
`after` is the editor that a session leaves, and `run_kept` the induction over a session: what every
action that succeeds keeps holds at the end, and its answers have what each of them is shown to
have.

* `run_sound`: every graph that is answered shows a workflow, and every text that is saved is that
  of a workflow in dependency order.
* `run_reload`: to reload is to open what the last answered text says.
* `run_load_save`: a document that is opened and saved becomes what a round trip converts it to.
-/

set_option autoImplicit false

namespace StepGraph.Editor

variable {env : Config.Environment} {e next : Editor} {action : Action} {answer : Answer}

/-! ## One action -/

/-- What an action that succeeds answers and leaves. -/
inductive Does (env : Config.Environment) (e : Editor) : Action → Answer → Editor → Prop
  | opened {action : Action} {text : String} {source : Legacy.Source} {opened : Opened}
      {next : Editor}
      (hasked : action = .load text source ∨
        action = .reload ∧ text = e.saved ∧ source = .none)
      (hopened : Document.toGraph text.toList source = .ok opened)
      (hcanvas : next.toRaw = opened.toRaw) (hsaved : next.saved = e.saved) :
      Does env e action (.graph opened.graph) next
  | saved {config : Config} {text : String} (hconfig : Config.ofEnvironment env = .ok config)
      (hsave : e.toRaw.save config = .ok text) :
      Does env e .save (.text text) { e with saved := text }
  | checked {config : Config} {report : Report} (hconfig : Config.ofEnvironment env = .ok config)
      (hcheck : e.toRaw.roundTrip config = .ok report) : Does env e .check (.report report) e
  | changed {action : Action} {next : Editor} (hsaved : next.saved = e.saved)
      (hdone : e.perform env action = .ok next.changed) :
      Does env e action (.counts next.nodes.length next.edges.length) next

theorem does_of_openDocument {text : String} {source : Legacy.Source}
    (hasked : action = .load text source ∨ action = .reload ∧ text = e.saved ∧ source = .none)
    (h : e.openDocument text source = .ok (answer, next)) : Does env e action answer next := by
  obtain ⟨opened, hopened, h⟩ := Attempt.bind_eq_ok.1 h
  cases h
  exact .opened hasked hopened rfl rfl

theorem does_of_perform (h : e.perform env action = .ok (answer, next)) :
    Does env e action answer next := by
  cases action with
  | load text source => exact does_of_openDocument (.inl rfl) h
  | reload => exact does_of_openDocument (.inr ⟨rfl, rfl, rfl⟩) h
  | save =>
    obtain ⟨config, hconfig, h⟩ := Attempt.bind_eq_ok.1 h
    obtain ⟨text, hsave, h⟩ := Attempt.bind_eq_ok.1 h
    cases h
    exact .saved hconfig hsave
  | check =>
    obtain ⟨config, hconfig, h⟩ := Attempt.bind_eq_ok.1 h
    obtain ⟨report, hcheck, h⟩ := Attempt.bind_eq_ok.1 h
    cases h
    exact .checked hconfig hcheck
  | _ =>
    cases h
    exact .changed rfl rfl

/-! ## Sessions -/

/-- The editor after a sequence of actions. Those that fail leave it as it was. -/
def after (env : Config.Environment) : Editor → List Action → Editor
  | e, [] => e
  | e, action :: rest =>
    match e.perform env action with
    | .ok (_, next) => after env next rest
    | .error _ => after env e rest

theorem run_append (e : Editor) (actions others : List Action) :
    run env e (actions ++ others) = run env e actions ++ run env (after env e actions) others := by
  induction actions generalizing e with
  | nil => rfl
  | cons action rest ih =>
    rw [List.cons_append, run, run, after]
    split <;> simp only [*, List.cons_append]

/-- What actions that succeed keep, and what their answers have, holds of whole sessions. -/
theorem run_kept {Inv : Editor → Prop} {P : Action → Answer → Prop}
    (hstep : ∀ e action answer next, Inv e → Does env e action answer next →
      Inv next ∧ P action answer)
    (h : Inv e) (actions : List Action) :
    Inv (after env e actions) ∧ List.Forall₂
      (fun action result => ∀ answer, result = .ok answer → P action answer)
      actions (run env e actions) := by
  induction actions generalizing e with
  | nil => exact ⟨h, .nil⟩
  | cons action rest ih =>
    rw [after, run]
    cases hdone : e.perform env action with
    | ok done =>
      obtain ⟨answer, next⟩ := done
      obtain ⟨hnext, hanswer⟩ := hstep e action answer next h (does_of_perform hdone)
      obtain ⟨hend, hanswers⟩ := ih hnext
      exact ⟨hend, .cons (fun _ he => by cases he; exact hanswer) hanswers⟩
    | error failure =>
      obtain ⟨hend, hanswers⟩ := ih h
      exact ⟨hend, .cons (fun _ he => by cases he) hanswers⟩

/-! ## What answers are -/

/-- The text of a workflow whose steps have distinct ids and are in dependency order. -/
def Written (text : String) : Prop :=
  ∃ config w, w.Valid ∧ w.stepIds.Nodup ∧ Step.orderByDependencies w.steps = .ok w.steps ∧
    Document.write config w = .ok text

theorem written_of_save {raw : RawGraph} {config : Config} {text : String}
    (h : raw.save config = .ok text) : Written text := by
  obtain ⟨w, hw, hwritten⟩ := Attempt.bind_eq_ok.1 h
  obtain ⟨nodes, edges, steps, -, -, hids, hordered, -⟩ :=
    Graph.orderByDependencies_of_toWorkflow hw
  exact ⟨config, w, Graph.valid_of_toWorkflow hw, (Step.map_id_of_order hordered).1,
    Step.orderByDependencies_again hids hordered, hwritten⟩

/-- The text that the editor reloads: nothing, or a text that was written. -/
def Kept (e : Editor) : Prop :=
  e.saved = "" ∨ Written e.saved

/-- What an answer is: the graph of a document, which shows its workflow; the text of a workflow;
what a check has shown; or how many nodes and edges there are. -/
inductive Sound : Action → Answer → Prop
  | load {text : String} {source : Legacy.Source} {opened : Opened}
      (hopened : Document.toGraph text.toList source = .ok opened)
      (hshows : opened.graph.Shows opened.workflow) :
      Sound (.load text source) (.graph opened.graph)
  | reload {text : String} {opened : Opened} (hkept : text = "" ∨ Written text)
      (hopened : Document.toGraph text.toList .none = .ok opened)
      (hshows : opened.graph.Shows opened.workflow) : Sound .reload (.graph opened.graph)
  | save {text : String} (h : Written text) : Sound .save (.text text)
  | check (report : Report) : Sound .check (.report report)
  | change (action : Action) (nodes edges : Nat) : Sound action (.counts nodes edges)

theorem shows_of_toGraph {text : List Char} {source : Legacy.Source} {opened : Opened}
    (h : Document.toGraph text source = .ok opened) : opened.graph.Shows opened.workflow := by
  obtain ⟨reading, hread, rfl⟩ := Document.toGraph_eq_ok.1 h
  exact Document.shows_of_readChecked .vertical hread

/-- One action answers soundly, and what it leaves can be reloaded. -/
theorem Does.sound (hkept : e.Kept) (h : Does env e action answer next) :
    next.Kept ∧ Sound action answer := by
  cases h with
  | opened hasked hopened hcanvas hsaved =>
    refine ⟨?_, ?_⟩
    · rwa [Kept, hsaved]
    · rcases hasked with rfl | ⟨rfl, rfl, rfl⟩
      · exact .load hopened (shows_of_toGraph hopened)
      · exact .reload hkept hopened (shows_of_toGraph hopened)
  | saved hconfig hsave =>
    have hwritten := written_of_save hsave
    exact ⟨.inr hwritten, .save hwritten⟩
  | checked hconfig hcheck => exact ⟨hkept, .check _⟩
  | changed hsaved hdone => exact ⟨by rwa [Kept, hsaved], .change action _ _⟩

/-- Whatever is done in a session, each graph that is answered shows the workflow of its document,
and each text that is saved is that of a sound workflow. -/
theorem run_sound (env : Config.Environment) (actions : List Action) :
    (after env .empty actions).Kept ∧ List.Forall₂
      (fun action result => ∀ answer, result = .ok answer → Sound action answer)
      actions (run env .empty actions) :=
  run_kept (fun _ _ _ _ hkept h => h.sound hkept) (.inl rfl) actions

/-! ## What is reloaded -/

/-- The last text among some answers, or else another one. -/
def lastText (other : String) : List (Result Answer) → String
  | [] => other
  | .ok (.text s) :: rest => lastText s rest
  | _ :: rest => lastText other rest

theorem lastText_of_does (h : Does env e action answer next) (rest : List (Result Answer)) :
    lastText e.saved (.ok answer :: rest) = lastText next.saved rest := by
  cases h with
  | opened hasked hopened hcanvas hsaved => rw [hsaved]; rfl
  | saved hconfig hsave => rfl
  | checked hconfig hcheck => rfl
  | changed hsaved hdone => rw [hsaved]; rfl

/-- The editor keeps the text that it answered last. -/
theorem saved_after (e : Editor) (actions : List Action) :
    (after env e actions).saved = lastText e.saved (run env e actions) := by
  induction actions generalizing e with
  | nil => rfl
  | cons action rest ih =>
    rw [after, run]
    cases hdone : e.perform env action with
    | ok done => exact (ih _).trans (lastText_of_does (does_of_perform hdone) _).symm
    | error failure => exact ih e

/-- At the end of a session, to reload is to open the text that was answered last. -/
theorem run_reload (env : Config.Environment) (actions : List Action) :
    run env .empty (actions ++ [.reload]) = run env .empty (actions ++
      [.load (lastText "" (run env .empty actions)) .none]) := by
  have hsaved : (after env .empty actions).saved = lastText "" (run env .empty actions) :=
    saved_after .empty actions
  rw [run_append, run_append, ← hsaved]
  rfl

/-! ## What is saved -/

/-- A document that is opened is handed over again as it was opened. -/
theorem perform_load {text : String} {source : Legacy.Source} {opened : Opened}
    (h : Document.toGraph text.toList source = .ok opened) (e : Editor) :
    ∃ next, e.perform env (.load text source) = .ok (.graph opened.graph, next) ∧
      next.toRaw = opened.toRaw :=
  ⟨_, Attempt.bind_eq_ok.2 ⟨opened, h, rfl⟩, rfl⟩

theorem perform_save {config : Config} (hconfig : Config.ofEnvironment env = .ok config)
    {text : String} (h : e.toRaw.save config = .ok text) :
    e.perform env .save = .ok (.text text, { e with saved := text }) :=
  Attempt.bind_eq_ok.2 ⟨config, hconfig, Attempt.bind_eq_ok.2 ⟨text, h, rfl⟩⟩

/-- A document that is opened and saved becomes the text that a round trip converts it to. -/
theorem run_load_save {config : Config} {text : String} {report : Report}
    (hconfig : Config.ofEnvironment env = .ok config)
    (h : Document.roundTrip config text = .ok report) (e : Editor) :
    ∃ opened, Document.toGraph text.toList .none = .ok opened ∧
      run env e [.load text .none, .save] =
        [.ok (.graph opened.graph), .ok (.text report.converted)] := by
  obtain ⟨opened, hopened, h⟩ := Attempt.bind_eq_ok.1 h
  obtain ⟨converted, hsave, h⟩ := Attempt.bind_eq_ok.1 h
  obtain ⟨differences, -, h⟩ := Attempt.bind_eq_ok.1 h
  cases h
  obtain ⟨next, hload, hcanvas⟩ := perform_load hopened e
  rw [← hcanvas] at hsave
  refine ⟨opened, hopened, ?_⟩
  rw [run, hload]
  dsimp only
  rw [run, perform_save hconfig hsave]
  rfl

end StepGraph.Editor
