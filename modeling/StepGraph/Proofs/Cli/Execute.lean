import StepGraph.Cli.World
import StepGraph.Proofs.Cli.Folder
import StepGraph.Proofs.Fault
import StepGraph.Proofs.Value.Writable

/-!
# A run, step by step

All that a command does before its answer is known is reading its file, and then it does what the
answer tells (`Deed.Done`). Only a round trip does something in between: it prints the differences
one by one, and a line that cannot be written comes after the lines before it.

* `execute_matches_run`: a run has the effects that `run` tells.
-/

set_option autoImplicit false

namespace StepGraph.Cli

/-! ## Steps -/

namespace Deed

section
variable {α β : Type} {w : World}

theorem ext {d d' : Deed α} (h : ∀ w, d.on w = d'.on w) : d = d' :=
  funext h

theorem on_get : (get : Deed World).on w = (.ok w, w) :=
  rfl

theorem on_bind (d : Deed α) (f : α → Deed β) : (d >>= f).on w =
    match d.on w with
    | (.ok a, after) => (f a).on after
    | (.error e, after) => (.error e, after) := by
  simp only [on, ExceptT.run_bind, StateT.run_bind]
  generalize (ExceptT.run d).run w = r
  obtain ⟨_ | _, _⟩ := r <;> rfl

/-- A complaint is all that a failure shows. -/
theorem on_complain (message : String) : ((complain message).on w).2 =
    ⟨w.folder, w.out ++ (Outcome.failure message).out, w.err ++ (Outcome.failure message).err⟩ := by
  show (⟨_, w.out, _⟩ : World) = ⟨_, w.out ++ "", _⟩
  rw [String.append_empty]
  rfl

theorem on_readText (path : String) : (readText path).on w =
    match w.folder.read path with
    | .error problem => (.error (.file path problem), w)
    | .ok octets =>
      match Text.Utf8.decode octets with
      | .error _ => (.error .notText, w)
      | .ok text => (.ok (Text.unifyLineEnds text), w) := by
  rw [readText, on_bind, on_get]
  dsimp only
  cases w.folder.read path with
  | error problem => rfl
  | ok octets =>
    dsimp only
    cases Text.Utf8.decode octets <;> rfl

theorem on_setContent (path : String) (octets : List Nat) : (setContent path octets).on w =
    match w.folder.write path octets with
    | .error problem => (.error (.file path problem), w)
    | .ok (after, _) => (.ok (), { w with folder := after }) := by
  rw [setContent, on_bind, on_get]
  dsimp only
  cases w.folder.write path octets <;> rfl

/-- A file that could be opened can be filled. -/
theorem on_writeFile (path text : String) : (writeFile path text).on w =
    match w.folder.write path (octetsOf text) with
    | .error problem => (.error (.file path problem), w)
    | .ok (after, _) => (.ok (), { w with folder := after }) := by
  rw [writeFile, on_bind, on_setContent]
  cases hopen : w.folder.write path [] with
  | error problem => rw [Folder.write_eq_error hopen]
  | ok opened =>
    obtain ⟨opened, name⟩ := opened
    dsimp only
    rw [on_setContent, Folder.write_write hopen]
    obtain ⟨htakes, -⟩ := Folder.write_eq_ok.1 hopen
    rw [Folder.write_eq_ok.2 ⟨htakes, rfl⟩]

theorem printOut_append (first second : String) :
    printOut (first ++ second) = (do printOut first; printOut second) := by
  refine ext fun w => ?_
  show (_, { w with out := _ }) = (_, { w with out := _ })
  rw [String.append_assoc]

theorem printOut_empty : printOut "" = pure () := by
  refine ext fun w => ?_
  show (_, { w with out := _ }) = (_, w)
  rw [String.append_empty]

theorem printErr_empty : printErr "" = pure () := by
  refine ext fun w => ?_
  show (_, { w with err := _ }) = (_, w)
  rw [String.append_empty]

end

/-- Carries out what a command answers. -/
def carryOut (outcome : Outcome) : Deed Nat := do
  if let some (path, text) := outcome.output then writeFile path text
  printOut outcome.out
  printErr outcome.err
  return outcome.exit

theorem on_carryOut (outcome : Outcome) (w : World) : (carryOut outcome).on w =
    match outcome.output with
    | none => (.ok outcome.exit, ⟨w.folder, w.out ++ outcome.out, w.err ++ outcome.err⟩)
    | some (path, text) =>
      match w.folder.write path (octetsOf text) with
      | .error problem => (.error (.file path problem), w)
      | .ok (after, _) => (.ok outcome.exit, ⟨after, w.out ++ outcome.out, w.err ++ outcome.err⟩) := by
  obtain ⟨exit, out, err, output⟩ := outcome
  cases output with
  | none => rfl
  | some file =>
    obtain ⟨path, text⟩ := file
    show (writeFile path text >>= _).on w = _
    rw [on_bind, on_writeFile]
    dsimp only
    cases w.folder.write path (octetsOf text) <;> rfl

theorem carryOut_printed (text : String) :
    carryOut (.printed text) = do printOut text; return 0 := by
  simp [carryOut, Outcome.printed, printErr_empty]

theorem carryOut_failureAfter (out message : String) :
    carryOut (.failureAfter out message) = do printOut out; complain message; return 1 := by
  simp [carryOut, Outcome.failureAfter, complain]

theorem carryOut_failure (message : String) :
    carryOut (.failure message) = do complain message; return 1 := by
  simp [Outcome.failure, carryOut_failureAfter, printOut_empty]

theorem carryOut_ofText (text : String) (output : Option String) :
    carryOut (.ofText text output) = do writeOutput text output; return 0 := by
  have hprinted : carryOut
      (.printed (if text.toList.getLast? = some '\n' then text else text ++ "\n")) =
        (do writeOutput text none; return 0) := by
    rw [carryOut_printed, writeOutput]
    split <;> simp [printOut_append]
  unfold Outcome.ofText
  split
  · exact hprinted
  · exact hprinted
  · simp [carryOut, writeOutput, printOut_empty, printErr_empty]

/-! ## Answers -/

/-- A line about a difference is written, or there is a number in it that cannot be. -/
theorem describeLine_cases (d : Difference) :
    (∃ line, describeLine d = .ok line) ∨ describeLine d = breakOff .notANumber := by
  unfold describeLine Difference.shown
  rcases @Value.assertWritable_cases Error d.expected with h | h
  · rcases @Value.assertWritable_cases Error d.actual with h' | h'
    · exact .inl ⟨_, by rw [h, h']; rfl⟩
    · exact .inr (by rw [h, h']; rfl)
  · exact .inr (by rw [h]; rfl)

/-- Lines are printed all at once, or as far as they can be written. -/
theorem on_printLines (differences : List Difference) (w : World) :
    (∃ lines, differences.mapM describeLine = .ok lines ∧
      (printLines differences).on w = (.ok (), { w with out := w.out ++ String.join lines })) ∨
    (differences.mapM describeLine = breakOff .notANumber ∧ ∃ printed,
      (printLines differences).on w
        = (.error (.fault .notANumber), { w with out := w.out ++ printed })) := by
  induction differences generalizing w with
  | nil => exact .inl ⟨[], rfl, by rw [String.join_nil, String.append_empty]; rfl⟩
  | cons d rest ih =>
    have hfirst : printLines (d :: rest) =
        (attempt (describeLine d) >>= fun line => printOut line >>= fun _ => printLines rest) := by
      show ((attempt (describeLine d) >>= printOut) >>= fun _ => printLines rest) = _
      rw [bind_assoc]
    rcases describeLine_cases d with ⟨line, hline⟩ | hline
    · have hprint : (printLines (d :: rest)).on w
          = (printLines rest).on { w with out := w.out ++ line } := by
        rw [hfirst, hline]
        rfl
      rw [List.mapM_cons, hline, hprint]
      rcases ih { w with out := w.out ++ line } with ⟨lines, hlines, hon⟩ | ⟨hlines, printed, hon⟩
      · refine .inl ⟨line :: lines, by rw [hlines]; rfl, ?_⟩
        rw [hon, String.join_cons, String.append_assoc]
      · refine .inr ⟨by rw [hlines]; rfl, line ++ printed, ?_⟩
        rw [hon, String.append_assoc]
    · refine .inr ⟨by rw [List.mapM_cons, hline]; rfl, "", ?_⟩
      rw [hfirst, hline, String.append_empty]
      rfl

/-- What a command has done, given its answer. A round trip that breaks off may have printed
something. -/
inductive Done (command : Command) (w : World) : Result Outcome → Except Escape Nat × World → Prop
  | answered (outcome : Outcome) : Done command w (.ok outcome) ((carryOut outcome).on w)
  | refused (e : Error) : Done command w (report e) (.error (.refused e), w)
  | broken (f : Fault) (printed : String)
      (hquiet : (∀ file, command ≠ .roundTrip file) → printed = "") :
      Done command w (breakOff f) (.error (.fault f), { w with out := w.out ++ printed })

section
variable {α : Type} {command : Command} {w : World}

theorem Done.of_eq {outcome : Outcome} {deed : Deed Nat} (h : carryOut outcome = deed) :
    Done command w (.ok outcome) (deed.on w) :=
  h ▸ .answered outcome

/-- An attempt prints nothing. What comes after it happens if it succeeds. -/
theorem Done.attempt_bind {x : Result α} {answer : α → Result Outcome} {deed : α → Deed Nat}
    (h : ∀ a, Done command w (answer a) ((deed a).on w)) :
    Done command w (x >>= answer) ((attempt x >>= deed).on w) := by
  cases x with
  | ok a => exact h a
  | error failure =>
    cases failure with
    | error e => exact .refused e
    | fault f =>
      have hbroken := @Done.broken command w f "" fun _ => rfl
      rwa [String.append_empty] at hbroken

end

end Deed

open Deed

/-- What comes after the lines of a round trip. -/
theorem carryOut_roundTrip (file lines : String) (isFaithful : Bool) :
    carryOut (if isFaithful then .printed (lines ++ "✓ " ++ file ++ " round-trips without loss\n")
      else .failureAfter lines (file ++ " lost information in the round trip")) = (do
        printOut lines
        if isFaithful then
          confirm (file ++ " round-trips without loss")
          return 0
        else
          complain (file ++ " lost information in the round trip")
          return 1) := by
  cases isFaithful with
  | true =>
    have htext : lines ++ "✓ " ++ file ++ " round-trips without loss\n" =
        lines ++ ("✓ " ++ (file ++ " round-trips without loss") ++ "\n") := by
      have hend : " round-trips without loss\n" = " round-trips without loss" ++ "\n" := by decide
      simp only [hend, String.append_assoc]
    rw [if_pos rfl, carryOut_printed, htext, printOut_append, bind_assoc]
    rfl
  | false => exact carryOut_failureAfter _ _

theorem done_act (env : Config.Environment) (text : List Char) (command : Command) (w : World) :
    Done command w (command.answer env text) ((command.act env text).on w) := by
  cases command with
  | validate file source =>
    refine .attempt_bind fun refusal => ?_
    cases refusal with
    | none => exact .of_eq (carryOut_printed _)
    | some e => exact .of_eq (carryOut_failure _)
  | toGraph file source output =>
    refine .attempt_bind fun opened => .attempt_bind fun written => ?_
    exact .of_eq (carryOut_ofText written output)
  | toYaml file output =>
    rw [Command.answer, runToYaml, Command.act]
    cases Json.read text with
    | error failure =>
      cases failure with
      | error e => exact .of_eq (carryOut_failure _)
      | fault f => exact @Done.attempt_bind _ _ w (breakOff f) _ _ fun outcome => .answered outcome
    | ok v =>
      cases v with
      | map fields =>
        refine .attempt_bind fun config => .attempt_bind fun saved => ?_
        exact .of_eq (carryOut_ofText saved output)
      | scalar s => exact .of_eq (carryOut_failure _)
      | list items => exact .of_eq (carryOut_failure _)
  | roundTrip file =>
    refine .attempt_bind fun config => .attempt_bind fun report => ?_
    rw [on_bind]
    rcases on_printLines report.differences w with ⟨lines, hlines, hon⟩ | ⟨hlines, printed, hon⟩
    · have hcarry := carryOut_roundTrip file (String.join lines) report.isFaithful
      have hdone := @Done.of_eq (.roundTrip file) w _ _ hcarry
      rw [hlines, hon]
      cases hfaithful : report.isFaithful with
      | true => rw [hfaithful] at hdone; exact hdone
      | false => rw [hfaithful] at hdone; exact hdone
    · rw [hlines, hon]
      exact .broken _ printed fun hquiet => absurd rfl (hquiet file)

/-! ## Runs -/

/-- A run with the effects that an ending tells. What a command has printed before it breaks off
stays printed. -/
def Ending.Matches (w : World) (result : Except Fault Nat) (after : World) : Ending → Prop
  | .stopped _ => False
  | .broken fault =>
    result = .error fault ∧ ∃ printed, after = { w with out := w.out ++ printed }
  | .finished _ outcome folder _ =>
    result = .ok outcome.exit ∧ after = ⟨folder, w.out ++ outcome.out, w.err ++ outcome.err⟩

theorem execute_matches_run {arguments : List String} {request : Request}
    (hparse : parse arguments = .ok request) (env : Config.Environment) (w : World) :
    (run w.folder env arguments).Matches w (request.execute env w).1 (request.execute env w).2 ∧
      ((∀ file, request.command ≠ .roundTrip file) →
        ∀ fault, (request.execute env w).1 = .error fault → (request.execute env w).2 = w) := by
  unfold Request.execute run
  rw [hparse, Command.perform, on_bind, on_readText]
  dsimp only [Command.respond]
  cases hread : w.folder.read request.command.file with
  | error problem => exact ⟨⟨rfl, on_complain _⟩, fun _ _ h => by cases h⟩
  | ok octets =>
    dsimp only
    cases hdecode : Text.Utf8.decode octets with
    | error flaw => exact ⟨⟨rfl, on_complain _⟩, fun _ _ h => by cases h⟩
    | ok text =>
      dsimp only
      have hdone := done_act env (Text.unifyLineEnds text) request.command w
      generalize request.command.answer env (Text.unifyLineEnds text) = answer at hdone
      generalize (request.command.act env (Text.unifyLineEnds text)).on w = done at hdone
      cases hdone with
      | refused e => exact ⟨⟨rfl, on_complain _⟩, fun _ _ h => by cases h⟩
      | broken f printed hquiet =>
        refine ⟨⟨rfl, printed, rfl⟩, fun hcommand fault _ => ?_⟩
        rw [hquiet hcommand]
        show ({ w with out := w.out ++ "" } : World) = w
        rw [String.append_empty]
      | answered outcome =>
        rw [on_carryOut]
        dsimp only
        cases outcome.output with
        | none => exact ⟨⟨rfl, rfl⟩, fun _ _ h => by cases h⟩
        | some file =>
          obtain ⟨path, text⟩ := file
          dsimp only
          cases w.folder.write path (octetsOf text) with
          | error problem => exact ⟨⟨rfl, on_complain _⟩, fun _ _ h => by cases h⟩
          | ok written => exact ⟨⟨rfl, rfl⟩, fun _ _ h => by cases h⟩

end StepGraph.Cli
