import StepGraph.Proofs.Cli.Execute
import StepGraph.Proofs.Fault

/-!
# What a run leaves as it was

Checking and converting a file answers with a failure, with a success that names no file, or with the
text that the file converts to (`answer_cases`). So such a run that fails, whatever it fails at,
prints nothing and leaves every file as it was; one that succeeds writes at most the file that it was
asked to write, and the whole text of it (`execute_keeps_or_saves`).
-/

set_option autoImplicit false

namespace StepGraph.Cli

namespace Command

/-- The file that a command is asked to write. -/
def output? : Command → Option String
  | .toGraph _ _ output | .toYaml _ output => output
  | .validate .. | .roundTrip _ => none

/-- What a command converts the text of its file to. -/
inductive Converts (env : Config.Environment) (input : List Char) : Command → String → Prop
  | toGraph {file text : String} {source output : Option String} {opened : Opened}
      (hopened : Document.toGraph input ⟨source, none⟩ = .ok opened)
      (htext : (Json.write (graphValue opened) : Result String) = .ok text) :
      Converts env input (.toGraph file source output) text
  | toYaml {file text : String} {output : Option String} {fields : Entries} {config : Config}
      (hjson : Json.read input = .ok (.map fields)) (hconfig : Config.ofEnvironment env = .ok config)
      (hsave : (graphOfFields fields).save config = .ok text) :
      Converts env input (.toYaml file output) text

end Command

section
variable {env : Config.Environment} {command : Command} {input : List Char} {outcome : Outcome}

theorem answer_cases (hcommand : ∀ file, command ≠ .roundTrip file)
    (h : command.answer env input = .ok outcome) :
    (∃ message, outcome = .failure message) ∨
    (∃ message, outcome = .success message ∧ command.output? = none) ∨
    ∃ text, outcome = .ofText text command.output? ∧ command.Converts env input text := by
  cases command with
  | validate file source =>
    obtain ⟨refusal, -, h⟩ := Attempt.bind_eq_ok.1 h
    cases refusal with
    | none => cases h; exact .inr (.inl ⟨_, rfl, rfl⟩)
    | some e => cases h; exact .inl ⟨_, rfl⟩
  | toGraph file source output =>
    obtain ⟨opened, hopened, h⟩ := Attempt.bind_eq_ok.1 h
    obtain ⟨text, htext, h⟩ := Attempt.bind_eq_ok.1 h
    cases h
    exact .inr (.inr ⟨_, rfl, .toGraph hopened htext⟩)
  | toYaml file output =>
    rw [Command.answer, runToYaml] at h
    cases hjson : Json.read input with
    | error failure =>
      rw [hjson] at h
      cases failure with
      | error e => cases h; exact .inl ⟨_, rfl⟩
      | fault f => cases h
    | ok value =>
      rw [hjson] at h
      cases value with
      | scalar s => cases h; exact .inl ⟨_, rfl⟩
      | list items => cases h; exact .inl ⟨_, rfl⟩
      | map fields =>
        obtain ⟨config, hconfig, h⟩ := Attempt.bind_eq_ok.1 h
        obtain ⟨text, hsave, h⟩ := Attempt.bind_eq_ok.1 h
        cases h
        exact .inr (.inr ⟨_, rfl, .toYaml hjson hconfig hsave⟩)
  | roundTrip file => exact absurd rfl (hcommand file)

end

/-- The output file, and no other, has a new content: the whole text that the file of the command
converts to. -/
inductive Request.Saved (env : Config.Environment) (request : Request) (before after : Folder) : Prop
  | mk {path name text : String} {octets : List Nat} {input : List Char}
      (hread : before.read request.command.file = .ok octets)
      (hdecode : Text.Utf8.decode octets = .ok input)
      (hconverts : request.command.Converts env (Text.unifyLineEnds input) text)
      (hpath : request.command.output? = some path) (hne : path ≠ "")
      (hplace : (before.locate path).Takes name)
      (hstored : after.read path = .ok (octetsOf text))
      (hchanged : Folder.Changed before after name (octetsOf text))

/-- How a run that checks or converts a file ends. -/
inductive Request.Ends (env : Config.Environment) (request : Request) (folder : Folder) :
    Ending → Prop
  | broken (fault : Fault) : Ends env request folder (.broken fault)
  | failed (message : String) :
      Ends env request folder (.finished request (.failure message) folder none)
  | printed (text : String)
      (hpath : request.command.output? = none ∨ request.command.output? = some "") :
      Ends env request folder (.finished request (.printed text) folder none)
  | saved {path text name : String} {after : Folder} (h : request.Saved env folder after) :
      Ends env request folder (.finished request ⟨0, "", "", some (path, text)⟩ after (some name))

section
variable {env : Config.Environment} {request : Request} {folder : Folder} {outcome : Outcome}

theorem respond_cases (hcommand : ∀ file, request.command ≠ .roundTrip file)
    (h : request.command.respond env (folder.read request.command.file) = .ok outcome) :
    (∃ message, outcome = .failure message) ∨
    (∃ message, outcome = .success message ∧ request.command.output? = none) ∨
    ∃ octets input text, outcome = .ofText text request.command.output? ∧
      folder.read request.command.file = .ok octets ∧ Text.Utf8.decode octets = .ok input ∧
      request.command.Converts env (Text.unifyLineEnds input) text := by
  unfold Command.respond at h
  cases hread : folder.read request.command.file with
  | error problem =>
    rw [hread] at h
    cases h
    exact .inl ⟨_, rfl⟩
  | ok octets =>
    rw [hread] at h
    dsimp only at h
    cases hdecode : Text.Utf8.decode octets with
    | error flaw =>
      rw [hdecode] at h
      cases h
      exact .inl ⟨_, rfl⟩
    | ok input =>
      rw [hdecode] at h
      dsimp only at h
      split at h
      · rename_i answer hanswer
        cases h
        rcases answer_cases hcommand hanswer with hfailed | hchecked | ⟨text, htext, hconverts⟩
        · exact .inl hfailed
        · exact .inr (.inl hchecked)
        · exact .inr (.inr ⟨octets, input, text, htext, rfl, hdecode, hconverts⟩)
      · cases h
        exact .inl ⟨_, rfl⟩
      · cases h

theorem ofText_of_ne {path : String} (text : String) (hne : path ≠ "") :
    Outcome.ofText text (some path) = ⟨0, "", "", some (path, text)⟩ := by
  unfold Outcome.ofText
  split <;> simp_all

theorem ends_of_parse {arguments : List String} (hparse : parse arguments = .ok request)
    (hcommand : ∀ file, request.command ≠ .roundTrip file) (env : Config.Environment)
    (folder : Folder) : request.Ends env folder (run folder env arguments) := by
  unfold run
  rw [hparse]
  dsimp only
  cases hrespond : request.command.respond env (folder.read request.command.file) with
  | error fault => exact .broken fault
  | ok outcome =>
    dsimp only
    rcases respond_cases hcommand hrespond with
      ⟨message, rfl⟩ | ⟨message, rfl, houtput⟩ | ⟨octets, input, text, rfl, hread, hdecode, hconverts⟩
    · exact .failed message
    · exact .printed _ (.inl houtput)
    match houtput : request.command.output? with
    | none => exact .printed _ (.inl houtput)
    | some path =>
      by_cases hne : path = ""
      · subst hne
        exact .printed _ (.inr houtput)
      rw [ofText_of_ne text hne]
      dsimp only
      cases hwrite : folder.write path (octetsOf text) with
      | error problem => exact .failed _
      | ok written =>
        exact .saved (.mk hread hdecode hconverts houtput hne (Folder.write_eq_ok.1 hwrite).1
          (Folder.read_of_write hwrite) (Folder.changed_of_write hwrite))

end

/-- A run that checks or converts a file has the effects that `run` tells. If it fails, or a fault
escapes from it, it has printed nothing and no file is new or different. If it succeeds, the output
file has the whole text and all other files are as they were; all files are if none is named. -/
theorem execute_keeps_or_saves {arguments : List String} {request : Request}
    (hparse : parse arguments = .ok request)
    (hcommand : ∀ file, request.command ≠ .roundTrip file) (env : Config.Environment) (w : World) :
    let result := (request.execute env w).1
    let after := (request.execute env w).2
    (run w.folder env arguments).Matches w result after ∧
      (result ≠ .ok 0 → after.out = w.out ∧ after.folder = w.folder) ∧
      (result = .ok 0 → request.Saved env w.folder after.folder ∧ after.out = w.out ∨
        after.folder = w.folder ∧
          (request.command.output? = none ∨ request.command.output? = some "")) := by
  intro result after
  obtain ⟨hmatches, hquiet⟩ : (run w.folder env arguments).Matches w result after ∧
      ((∀ file, request.command ≠ .roundTrip file) → ∀ fault, result = .error fault → after = w) :=
    execute_matches_run hparse env w
  have hends := ends_of_parse hparse hcommand env w.folder
  refine ⟨hmatches, ?_⟩
  clear_value result after
  generalize run w.folder env arguments = ending at hmatches hends
  cases hends with
  | broken fault =>
    obtain ⟨rfl, -⟩ := hmatches
    obtain rfl := hquiet hcommand fault rfl
    exact ⟨fun _ => ⟨rfl, rfl⟩, fun h => by cases h⟩
  | failed message =>
    obtain ⟨rfl, rfl⟩ := hmatches
    exact ⟨fun _ => ⟨String.append_empty, rfl⟩, fun h => by cases h⟩
  | printed text hpath =>
    obtain ⟨rfl, rfl⟩ := hmatches
    exact ⟨fun h => absurd rfl h, fun _ => .inr ⟨rfl, hpath⟩⟩
  | saved h =>
    obtain ⟨rfl, rfl⟩ := hmatches
    exact ⟨fun hfailed => absurd rfl hfailed, fun _ => .inl ⟨h, String.append_empty⟩⟩

/-- A graph file that is converted onto itself: it stays if it has no graph, and is replaced if it has
one. -/
theorem execute_onto_itself :
    let request : Request := ⟨false, .toYaml "g.json" (some "g.json")⟩
    let holding (text : String) : World :=
      ⟨[("g.json", .file (text.toList.map Char.toNat))], "", ""⟩
    let graph := "\x7b\"trigger\": \x7b\"type\": \"form\", \"config\": \x7b\x7d\x7d\x7d"
    parse ["to-yaml", "g.json", "-o", "g.json"] = .ok request ∧
      (request.execute [] (holding "[]")).1 = .ok 1 ∧
      (request.execute [] (holding "[]")).2.folder = (holding "[]").folder ∧
      (request.execute [] (holding graph)).1 = .ok 0 ∧
      request.Saved [] (holding graph).folder (request.execute [] (holding graph)).2.folder := by
  intro request holding graph
  have hparse : parse ["to-yaml", "g.json", "-o", "g.json"] = .ok request := by decide +kernel
  have hcommand (file : String) : request.command ≠ .roundTrip file := by simp [request]
  have hfailed : (request.execute [] (holding "[]")).1 = .ok 1 := by decide +kernel
  have hdone : (request.execute [] (holding graph)).1 = .ok 0 := by decide +kernel
  obtain ⟨-, hkept, -⟩ := execute_keeps_or_saves hparse hcommand [] (holding "[]")
  obtain ⟨-, -, hsaved⟩ := execute_keeps_or_saves hparse hcommand [] (holding graph)
  refine ⟨hparse, hfailed, (hkept (by simp [hfailed])).2, hdone, ?_⟩
  rcases hsaved hdone with ⟨hsaved, -⟩ | ⟨-, hunnamed⟩
  · exact hsaved
  · exact absurd hunnamed (by decide)

end StepGraph.Cli
