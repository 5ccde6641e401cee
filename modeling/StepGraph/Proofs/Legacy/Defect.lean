import StepGraph.Proofs.Legacy.Dependency
import StepGraph.Proofs.Workflow.Places

/-!
# What the format refuses of a block

The conversion takes name, type and input over from a block and makes the rest of its step itself.
`Defect` says, apart from any check, what of the former the format does not take.

* `isStepId_stepId`: the ids of a stage's steps are well formed, whatever the stage is called.
* `checkSettings_settings`: the format finds the same in the settings of a step as in the input.
* `brokenStep_iff`: the step of a block breaks the format where the block has a defect.
-/

set_option autoImplicit false

namespace StepGraph.Legacy

open Value

/-! ## Defects -/

/-- A place in the step of a block that the format refuses for what the block itself holds: a name
that is given and no text, a type that is no text or an empty one, an input that is given and no
mapping, or a key of the input that is no text. -/
inductive Defect (block : Entries) : Path → Prop
  | name (hgiven : (fieldOf block "name").isGiven = true)
      (hno : ∀ s, fieldOf block "name" ≠ .str s) : Defect block [.name "name"]
  | type (hno : ∀ s, fieldOf block "type" = .str s → s = "") : Defect block [.name "type"]
  | input (hgiven : (fieldOf block "input").isGiven = true)
      (hno : ∀ entries, fieldOf block "input" ≠ .map entries) : Defect block [.name "config"]
  | key {entries : Entries} {entry : Scalar × Value} (hinput : fieldOf block "input" = .map entries)
      (hentry : entry ∈ entries) (hkey : entry.1.isString = false) :
      Defect block [.name "config", .name entry.1.label]

/-! ## Ids -/

theorem isIdChar_sanitized (text : String) : ∀ c ∈ (sanitized text).toList,
    Schema.isIdChar c = true := by
  intro c hc
  simp only [sanitized, String.toList_ofList, List.mem_map] at hc
  obtain ⟨d, -, rfl⟩ := hc
  by_cases hd : Schema.isIdChar d = true
  · rwa [if_pos hd]
  · rw [if_neg hd]; rfl

theorem isIdChar_digit {c : Char} (h : c.isDigit = true) : Schema.isIdChar c = true := by
  simp [Schema.isIdChar, Char.isAlphanum, h]

/-- Whatever the name of a stage is, the ids of its steps are well formed. -/
theorem isStepId_stepId (text : String) (number : Nat) :
    Schema.isStepId (stepId (sanitized text) number) = true := by
  have hlist : (stepId (sanitized text) number).toList =
      (sanitized text).toList ++ '_' :: Nat.toDigits 10 number := by simp [stepId]
  have hne : stepId (sanitized text) number ≠ "" := by
    intro h
    rw [h] at hlist
    simp at hlist
  rw [Schema.isStepId, Bool.and_eq_true, bne_iff_ne, List.all_eq_true, hlist]
  refine ⟨hne, fun c hc => ?_⟩
  rcases List.mem_append.1 hc with hc | hc
  · exact isIdChar_sanitized text c hc
  · rcases List.mem_cons.1 hc with rfl | hc
    · rfl
    · exact isIdChar_digit (Nat.isDigit_of_mem_toDigits (by decide) (by decide) hc)

/-! ## The step of a block -/

/-- A step as the conversion makes it of a block. -/
structure FromBlock (block : Value) (d : Draft) : Prop where
  id : Schema.isStepId d.id = true
  dependsOn : ∀ id ∈ d.dependsOn.getD [], Schema.isStepId id = true
  fields : ∃ fields number, block = .map fields ∧
    d.name = orElse (fieldOf fields "name") (.str ("step_" ++ toString (number : Nat))) ∧
    d.type = stepType (fieldOf fields "type") ∧
    settings (fieldOf fields "type") (orElse (fieldOf fields "input") (.map [])) = .ok d.config

theorem IsStep.fromBlock {text : String} {previous : Option String} {number : Nat} {p : Placed}
    {d : Draft} (hprevious : ∀ id ∈ previous, Schema.isStepId id = true)
    (h : IsStep (sanitized text) previous number p d) : FromBlock p.block d where
  id := h.id ▸ isStepId_stepId text number
  dependsOn id hid := by
    rw [h.dependsOn] at hid
    cases hparent : p.parent with
    | some parent =>
      rw [hparent] at hid
      obtain rfl := List.mem_singleton.1 hid
      exact isStepId_stepId text parent
    | none =>
      rw [hparent, needs] at hid
      split at hid
      · cases previous with
        | none => cases hid
        | some last =>
          obtain rfl := List.mem_singleton.1 hid
          exact hprevious _ rfl
      · cases hid
  fields := by
    obtain ⟨fields, hblock, hname, htype, hconfig⟩ := h.block
    exact ⟨fields, number, hblock, hname, htype, hconfig⟩

theorem StageSteps.fromBlocks {index : Nat} {previous : Option String} {stage : Value}
    {drafts : List Draft} (hprevious : ∀ id ∈ previous, Schema.isStepId id = true)
    (h : StageSteps index previous stage drafts) :
    List.Forall₂ FromBlock ((preorder 0 (forestOf stage)).map Placed.block) drafts := by
  rw [← List.zipIdx_map_fst 1 (preorder 0 (forestOf stage)), List.map_map,
    List.forall₂_map_left_iff]
  exact h.imp fun _ _ hstep => hstep.fromBlock hprevious

/-! ## Settings of a step -/

theorem isString_of_sameKey {k : Scalar} {name : String} (h : k.sameKey (.str name) = true) :
    k.isString = true := by
  cases k with
  | str s => rfl
  | null => cases h
  | bool b => cases b <;> cases h
  | num n => simp [Scalar.sameKey, Scalar.asKey] at h

/-- The entries whose key is no text. -/
def unnamed (entries : Entries) : Entries :=
  entries.filter (!·.1.isString)

theorem unnamed_cons_of_isString {entry : Scalar × Value} (h : entry.1.isString = true)
    (entries : Entries) : unnamed (entry :: entries) = unnamed entries :=
  List.filter_cons_of_neg (by simp [h])

theorem unnamed_insert (name : String) (v : Value) (entries : Entries) :
    unnamed (entries.insert (.str name) v) = unnamed entries := by
  induction entries with
  | nil => rfl
  | cons entry entries ih =>
    obtain ⟨k, old⟩ := entry
    rw [Entries.insert]
    by_cases hk : k.sameKey (.str name) = true
    · have hstr := isString_of_sameKey hk
      rw [if_pos hk, unnamed_cons_of_isString hstr, unnamed_cons_of_isString hstr]
    · unfold unnamed at ih ⊢
      rw [if_neg hk, List.filter_cons, List.filter_cons, ih]

theorem unnamed_erase (name : String) (entries : Entries) :
    unnamed (entries.erase (.str name)) = unnamed entries := by
  rw [unnamed, Entries.erase, List.filter_filter]
  refine List.filter_congr fun entry _ => ?_
  cases hk : entry.1.sameKey (.str name) with
  | false => simp
  | true => simp [isString_of_sameKey hk]

theorem unnamed_rename (old new : String) (entries : Entries) :
    unnamed (rename old new entries) = unnamed entries := by
  unfold rename
  split
  · rw [unnamed_insert, unnamed_erase]
  · rfl

/-- Renaming keys leaves those alone that are no texts. -/
theorem unnamed_foldl_rename (renames : List (String × String)) (entries : Entries) :
    unnamed (renames.foldl (fun entries pair => rename pair.1 pair.2 entries) entries) =
      unnamed entries := by
  induction renames generalizing entries with
  | nil => rfl
  | cons pair renames ih => rw [List.foldl_cons, ih, unnamed_rename]

/-- The format finds the same in the settings of a step as in the input of its block. -/
theorem checkSettings_settings {type input config : Value} (h : settings type input = .ok config)
    (path : Path) : Schema.checkSettings path config = Schema.checkSettings path input := by
  cases input with
  | map entries =>
    obtain ⟨renames, -, h⟩ := Attempt.bind_eq_ok.1 h
    cases h
    have hkeys := unnamed_foldl_rename renames entries
    simp only [unnamed] at hkeys
    simp only [Schema.checkSettings, hkeys]
  | scalar s => cases h; rfl
  | list items => cases h; rfl

/-- The keys that the format names in messages are the same. -/
theorem keysWritable_settings {type input config : Value} (h : settings type input = .ok config) :
    Schema.KeysWritable config ↔ Schema.KeysWritable input := by
  cases input with
  | map entries =>
    obtain ⟨renames, -, h⟩ := Attempt.bind_eq_ok.1 h
    cases h
    have hkeys := unnamed_foldl_rename renames entries
    simp only [unnamed] at hkeys
    rw [← Schema.settingsFaults_eq_nil, ← Schema.settingsFaults_eq_nil, Schema.settingsFaults,
      Schema.settingsFaults, Schema.entriesOf, Schema.entriesOf, hkeys]
  | scalar s => cases h; rfl
  | list items => cases h; rfl

theorem brokenSettings_settings {type input config : Value} {path : Path}
    (h : settings type input = .ok config) :
    Schema.BrokenSettings config path ↔ Schema.BrokenSettings input path := by
  rw [← Schema.reports_settings.places [], ← Schema.reports_settings.places [],
    checkSettings_settings h]

/-! ## Where the step of a block breaks the format -/

/-- What the format says of a field that is there. -/
theorem required_iff {B : Value → Path → Prop} {fields : Fields} {name : String} {v : Value}
    {path : Path} (h : fields.lookup name = some v) : Schema.Required B name fields.entries path ↔
      ∃ rest, B v rest ∧ path = .name name :: rest := by
  rw [Schema.Required, get?_entries, h]
  simp

theorem required_failing_iff {P : Value → Prop} {fields : Fields} {name : String} {v : Value}
    {path : Path} (h : fields.lookup name = some v) :
    Schema.Required (Schema.Failing P) name fields.entries path ↔ ¬ P v ∧ path = [.name name] := by
  rw [required_iff h]
  constructor
  · rintro ⟨_, ⟨rfl, hno⟩, rfl⟩
    exact ⟨hno, rfl⟩
  · rintro ⟨hno, rfl⟩
    exact ⟨[], ⟨rfl, hno⟩, rfl⟩

/-- A name that is made up is a text, and a text that is given is not empty. -/
theorem isNonempty_name_iff {v : Value} {number : Nat} :
    Schema.IsNonempty (orElse v (.str ("step_" ++ toString number))) ↔
      (v.isGiven = true → ∃ s, v = .str s) := by
  unfold orElse
  split
  · rename_i hgiven
    constructor
    · rintro ⟨s, hs, -⟩ _
      exact ⟨s, hs⟩
    · intro h
      obtain ⟨s, rfl⟩ := h hgiven
      exact ⟨s, rfl, by simpa [isGiven] using hgiven⟩
  · rename_i hgiven
    have hne : "step_" ++ toString number ≠ "" := by
      intro h
      have := congrArg String.toList h
      simp at this
    exact iff_of_true ⟨_, rfl, hne⟩ fun h => absurd h hgiven

/-- A type is not made empty, nor an empty one filled, by the renaming of types. -/
theorem isNonempty_stepType_iff {v : Value} :
    Schema.IsNonempty (stepType v) ↔ Schema.IsNonempty v := by
  cases v with
  | scalar s =>
    cases s with
    | str s =>
      simp only [stepType, renamedTypes, lookup_cons_if, Schema.IsNonempty, Value.scalar.injEq,
        Scalar.str.injEq]
      by_cases hs : s = "table" <;> simp [hs]
    | _ => rfl
  | list items => rfl
  | map entries => rfl

/-- Settings that count as not given are replaced by empty ones, which have no keys. -/
theorem brokenSettings_orElse_iff {v : Value} {path : Path} :
    Schema.BrokenSettings (orElse v (.map [])) path ↔
      (v.isGiven = true ∧ (∀ entries, v ≠ .map entries) ∧ path = []) ∨
        ∃ entries, v = .map entries ∧
          ∃ entry ∈ entries, entry.1.isString = false ∧ path = [.name entry.1.label] := by
  by_cases hgiven : v.isGiven = true
  · rw [orElse, if_pos hgiven, Schema.BrokenSettings, Schema.Mapping, Schema.Failing, not_exists,
      and_comm (a := path = [])]
    simp only [hgiven, true_and, ne_eq]
  · have hempty : ∀ entries, v = .map entries → entries = [] := by
      rintro entries rfl
      simpa [isGiven] using hgiven
    rw [orElse, if_neg hgiven]
    refine iff_of_false ?_ ?_
    · rintro (⟨-, hno⟩ | ⟨entries, he, entry, hentry, -⟩)
      · exact hno ⟨[], rfl⟩
      · cases he
        cases hentry
    · rintro (⟨hg, -⟩ | ⟨entries, he, entry, hentry, -⟩)
      · exact hgiven hg
      · rw [hempty entries he] at hentry
        cases hentry

section
variable {d : Draft} {path : Path}

theorem not_broken_dependsOn (h : ∀ id ∈ d.dependsOn.getD [], Schema.isStepId id = true) :
    ¬ Schema.Optional (Schema.Items (Schema.Failing Schema.IsNonempty)) "depends_on"
      d.fields.entries path := by
  rintro ⟨v, rest, hv, hbroken, -⟩
  rw [d.field?_dependsOn, Option.map_eq_some_iff] at hv
  obtain ⟨ids, hids, rfl⟩ := hv
  rcases hbroken with ⟨-, hno⟩ | ⟨items, i, item, _, hitems, hi, ⟨-, hno⟩, -⟩
  · exact hno ⟨_, rfl⟩
  · cases hitems
    obtain ⟨id, hid, rfl⟩ := List.mem_map.1 (List.mem_of_getElem? hi)
    have hsound := h id (by rwa [hids])
    exact hno ⟨id, rfl, (Schema.isStepId_iff.1 hsound).1⟩

theorem not_broken_position : ¬ Schema.Optional Schema.BrokenPosition "position"
    d.fields.entries path := by
  rintro ⟨v, rest, hv, -⟩
  have hnone : d.fields.lookup "position" = none := by
    simp [Draft.fields, lookup_cons_if, lookup_optionalField]
  rw [field?, get?_entries, hnone] at hv
  cases hv

/-- Where a converted step breaks the format. -/
theorem brokenStep_toValue_iff (hid : Schema.isStepId d.id = true)
    (hdependsOn : ∀ id ∈ d.dependsOn.getD [], Schema.isStepId id = true) :
    Schema.BrokenStep d.toValue path ↔
      (¬ Schema.IsNonempty d.name ∧ path = [.name "name"] ∨
        ¬ Schema.IsNonempty d.type ∧ path = [.name "type"]) ∨
        ∃ rest, Schema.BrokenSettings d.config rest ∧ path = .name "config" :: rest := by
  have hsound : Schema.IsId (.str d.id) := ⟨d.id, rfl, hid⟩
  rw [Draft.toValue_eq, Schema.BrokenStep, Schema.Mapping, Schema.Failing]
  simp only [Value.map.injEq, exists_eq', exists_eq_left', not_true_eq_false, and_false, false_or,
    not_broken_dependsOn hdependsOn, not_broken_position, or_false]
  rw [required_failing_iff (v := .str d.id) rfl, required_failing_iff (v := d.name) rfl,
    required_failing_iff (v := d.type) rfl, required_iff (v := d.config) rfl]
  simp only [hsound, not_true_eq_false, false_and, false_or]

/-- The step of a block breaks the format where the block has a defect. -/
theorem brokenStep_iff {block : Entries} (h : FromBlock (.map block) d) :
    Schema.BrokenStep d.toValue path ↔ Defect block path := by
  obtain ⟨fields, number, hblock, hname, htype, hconfig⟩ := h.fields
  cases hblock
  rw [brokenStep_toValue_iff h.id h.dependsOn, hname, htype, isNonempty_name_iff,
    isNonempty_stepType_iff]
  simp only [brokenSettings_settings hconfig, brokenSettings_orElse_iff]
  constructor
  · rintro ((⟨hno, rfl⟩ | ⟨hno, rfl⟩) |
      ⟨_, ⟨hgiven, hno, rfl⟩ | ⟨entries, hinput, entry, hentry, hkey, rfl⟩, rfl⟩)
    · obtain ⟨hgiven, hno⟩ := Classical.not_imp.1 hno
      exact .name hgiven (not_exists.1 hno)
    · exact .type fun s hs => by_contra fun hne => hno ⟨s, hs, hne⟩
    · exact .input hgiven hno
    · exact .key hinput hentry hkey
  · intro hdefect
    cases hdefect with
    | name hgiven hno => exact .inl (.inl ⟨fun h => not_exists.2 hno (h hgiven), rfl⟩)
    | type hno => exact .inl (.inr ⟨fun ⟨s, hs, hne⟩ => hne (hno s hs), rfl⟩)
    | input hgiven hno => exact .inr ⟨[], .inl ⟨hgiven, hno, rfl⟩, rfl⟩
    | key hinput hentry hkey => exact .inr ⟨_, .inr ⟨_, hinput, _, hentry, hkey, rfl⟩, rfl⟩

end

end StepGraph.Legacy
