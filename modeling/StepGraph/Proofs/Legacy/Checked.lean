import StepGraph.Proofs.Legacy.Defect
import StepGraph.Proofs.Workflow.Issues

/-!
# The issues of converted documents

A step breaks the format where its block has a defect, and the settings of the trigger where the
parameters of the source have a key that is no text (`DefectIn`). The version, the kind of the
trigger, ids, the names that are made up and dependencies always pass (`WellMade`).

* `Flattened.fromBlocks`: the steps of a document are those of its blocks, one by one.
* `broken_converted_iff`: where a converted document can break the format.
* `checkable_converted_iff`: a converted document can be checked if its keys are `Nameable`.
* `issuesOf_convert`: the issues of a converted document are at the defects, and nowhere else.
-/

set_option autoImplicit false

namespace StepGraph.Legacy

open Value

/-! ## Blocks and steps -/

/-- The blocks of a document in the order of their steps. -/
def documentBlocks (stageList : List Value) : List Value :=
  stageList.flatMap fun stage => (preorder 0 (forestOf stage)).map Placed.block

/-- The steps of a document are those of its blocks, one by one. -/
theorem Flattened.fromBlocks {index : Nat} {previous : Option String} {stageList : List Value}
    {parts : List (List Draft)} (hprevious : ∀ id ∈ previous, Schema.isStepId id = true)
    (h : Flattened index previous stageList parts) :
    List.Forall₂ FromBlock (documentBlocks stageList) parts.flatten := by
  induction h with
  | nil => exact .nil
  | @cons index previous stage rest part parts first others ih =>
    refine List.rel_append (first.fromBlocks hprevious) (ih fun id hid => ?_)
    rcases Option.or_eq_some_iff.1 hid with hlast | ⟨-, hid⟩
    · rw [lastId_eq, first.map_id] at hlast
      obtain ⟨number, -, rfl⟩ := List.mem_map.1 (List.mem_of_getLast? hlast)
      exact isStepId_stepId _ number
    · exact hprevious id hid

/-! ## Defects of a document -/

/-- A place in a converted document that the format refuses for what a block holds, or for a key of
the parameters that is no text. -/
inductive DefectIn (stageList : List Value) (source : Source) : Path → Prop
  | block {i : Nat} {block : Entries} {rest : Path}
      (hblock : (documentBlocks stageList)[i]? = some (.map block)) (h : Defect block rest) :
      DefectIn stageList source (.name "steps" :: .index i :: rest)
  | key {entries : Entries} {entry : Scalar × Value} (hparams : source.params = some (.map entries))
      (hentry : entry ∈ entries) (hkey : entry.1.isString = false) :
      DefectIn stageList source [.name "trigger", .name "config", .name entry.1.label]

/-- The keys that may have to be named in messages can be written: those of the blocks' inputs and
those of the parameters. -/
structure Nameable (stageList : List Value) (source : Source) : Prop where
  inputs : ∀ block ∈ documentBlocks stageList, Schema.KeysWritable (Schema.get block "input")
  params : Schema.KeysWritable (source.params.getD .null)

/-- The parameters of a source are a mapping, if there are any. -/
def Source.IsProper (source : Source) : Prop :=
  ∀ params, source.params = some params → params = .null ∨ ∃ entries, params = .map entries

/-! ## Converted documents -/

section
variable {stageList : List Value} {source : Source} {parts : List (List Draft)} {v : Value}

theorem brokenStep_placeholder (path : Path) : ¬ Schema.BrokenStep placeholder.toValue path := by
  rw [brokenStep_toValue_iff rfl (by simp [placeholder])]
  rintro ((⟨hno, -⟩ | ⟨hno, -⟩) | ⟨rest, hconfig, -⟩)
  · exact hno ⟨_, rfl, by decide⟩
  · exact hno ⟨_, rfl, by decide⟩
  · rw [← Schema.reports_settings.places []] at hconfig
    obtain ⟨i, hi, -⟩ := hconfig
    cases hi

theorem brokenTrigger_iff {kind : TriggerKind} {params : Value} {path : Path} :
    Schema.BrokenTrigger (.record [("type", .str kind.word), ("config", params)]) path ↔
      ∃ rest, Schema.BrokenSettings params rest ∧ path = .name "config" :: rest := by
  let fields : Fields := [("type", .str kind.word), ("config", params)]
  have hkind : Schema.IsTriggerKind (.str kind.word) := ⟨kind, rfl⟩
  change Schema.BrokenTrigger (.map fields.entries) path ↔ _
  rw [Schema.BrokenTrigger, Schema.Mapping, Schema.Failing]
  simp only [Value.map.injEq, exists_eq', exists_eq_left', not_true_eq_false, and_false, false_or]
  rw [required_failing_iff (v := .str kind.word) rfl, required_iff (v := params) rfl]
  simp only [hkind, not_true_eq_false, false_and, false_or]

theorem brokenSteps_iff {drafts : List Draft} {path : Path} :
    Schema.Items Schema.BrokenStep (.list (drafts.map Draft.toValue)) path ↔
      ∃ (i : Nat) (d : Draft) (rest : Path), drafts[i]? = some d ∧
        Schema.BrokenStep d.toValue rest ∧ path = .index i :: rest := by
  constructor
  · rintro (⟨-, hno⟩ | ⟨items, i, item, rest, hitems, hi, hbroken, rfl⟩)
    · exact absurd ⟨_, rfl⟩ hno
    · cases hitems
      rw [List.getElem?_map, Option.map_eq_some_iff] at hi
      obtain ⟨d, hd, rfl⟩ := hi
      exact ⟨i, d, rest, hd, hbroken, rfl⟩
  · rintro ⟨i, d, rest, hd, hbroken, rfl⟩
    exact .inr ⟨_, i, d.toValue, rest, rfl, by rw [List.getElem?_map, hd]; rfl, hbroken, rfl⟩

/-- A converted document breaks the format in its steps and in the settings of its trigger only. -/
theorem broken_converted_iff {drafts : List Draft} {path : Path} :
    Schema.Broken (converted source drafts) path ↔
      (∃ rest, Schema.BrokenSettings (orElse (source.params.getD .null) (.map [])) rest ∧
        path = .name "trigger" :: .name "config" :: rest) ∨
      ∃ (i : Nat) (d : Draft) (rest : Path), drafts[i]? = some d ∧
        Schema.BrokenStep d.toValue rest ∧ path = .name "steps" :: .index i :: rest := by
  let fields : Fields := [("version", .str "1.0"),
    ("trigger", .record [("type", .str (triggerKind source.type).word),
      ("config", orElse (source.params.getD .null) (.map []))]),
    ("steps", .list (drafts.map Draft.toValue))]
  have hversion : Schema.IsText (.str "1.0") := ⟨_, rfl⟩
  have hmetadata : ¬ Schema.Optional Schema.BrokenMetadata "metadata" fields.entries path := by
    rintro ⟨v, rest, hv, -⟩
    rw [field?, get?_entries] at hv
    cases hv
  change Schema.Broken (.map fields.entries) path ↔ _
  rw [Schema.Broken, Schema.Mapping, Schema.Failing]
  simp only [Value.map.injEq, exists_eq', exists_eq_left', not_true_eq_false, and_false, false_or,
    hmetadata, or_false]
  rw [required_failing_iff (v := .str "1.0") rfl,
    required_iff (show fields.lookup "trigger" = some _ from rfl),
    required_iff (v := .list (drafts.map Draft.toValue)) rfl]
  simp only [hversion, not_true_eq_false, false_and, false_or, brokenTrigger_iff, brokenSteps_iff]
  constructor
  · rintro (⟨_, ⟨rest, hparams, rfl⟩, rfl⟩ | ⟨_, ⟨i, d, rest, hd, hbroken, rfl⟩, rfl⟩)
    · exact .inl ⟨rest, hparams, rfl⟩
    · exact .inr ⟨i, d, rest, hd, hbroken, rfl⟩
  · rintro (⟨rest, hparams, rfl⟩ | ⟨i, d, rest, hd, hbroken, rfl⟩)
    · exact .inl ⟨_, ⟨rest, hparams, rfl⟩, rfl⟩
    · exact .inr ⟨_, ⟨i, d, rest, hd, hbroken, rfl⟩, rfl⟩

/-- The blocks of a document and its steps, if it has any. -/
theorem getElem?_written (h : Flattened 0 none stageList parts) {i : Nat} {d : Draft}
    (hd : (written parts)[i]? = some d) :
    d = placeholder ∨ ∃ block, (documentBlocks stageList)[i]? = some (.map block) ∧
      FromBlock (.map block) d := by
  rw [written] at hd
  split at hd
  · exact .inl (List.mem_singleton.1 (List.mem_of_getElem? hd))
  · obtain ⟨block, hblock, hfrom⟩ := exists_getElem?_of_forall₂ (h.fromBlocks (by simp)) hd
    obtain ⟨fields, -, rfl, -⟩ := hfrom.fields
    exact .inr ⟨fields, hblock, hfrom⟩

theorem getElem?_documentBlocks (h : Flattened 0 none stageList parts) {i : Nat} {block : Value}
    (hblock : (documentBlocks stageList)[i]? = some block) :
    ∃ d, (written parts)[i]? = some d ∧ FromBlock block d := by
  obtain ⟨d, hd, hfrom⟩ := exists_getElem?_of_forall₂ (h.fromBlocks (by simp)).flip hblock
  refine ⟨d, ?_, hfrom⟩
  rw [written, if_neg]
  · exact hd
  · intro hempty
    rw [List.isEmpty_iff.1 hempty] at hd
    cases hd

theorem broken_params_iff (hparams : source.IsProper) {path : Path} :
    (∃ rest, Schema.BrokenSettings (orElse (source.params.getD .null) (.map [])) rest ∧
        path = .name "trigger" :: .name "config" :: rest) ↔
      ∃ entries entry, source.params = some (.map entries) ∧ entry ∈ entries ∧
        entry.1.isString = false ∧ path = [.name "trigger", .name "config", .name entry.1.label] := by
  simp only [brokenSettings_orElse_iff]
  constructor
  · rintro ⟨_, ⟨hgiven, hno, -⟩ | ⟨entries, hmap, entry, hentry, hkey, rfl⟩, rfl⟩
    · cases hsource : source.params with
      | none => rw [hsource] at hgiven; cases hgiven
      | some params =>
        rw [hsource, Option.getD_some] at hgiven hno
        rcases hparams params hsource with rfl | ⟨entries, rfl⟩
        · cases hgiven
        · exact absurd rfl (hno entries)
    · refine ⟨entries, entry, ?_, hentry, hkey, rfl⟩
      cases hsource : source.params with
      | none => rw [hsource] at hmap; cases hmap
      | some params => rw [hsource] at hmap; exact congrArg some hmap
  · rintro ⟨entries, entry, hsource, hentry, hkey, rfl⟩
    exact ⟨_, .inr ⟨entries, by rw [hsource]; rfl, entry, hentry, hkey, rfl⟩, rfl⟩

theorem broken_convert_iff (hparams : source.IsProper) (h : Flattened 0 none stageList parts)
    {path : Path} :
    Schema.Broken (converted source (written parts)) path ↔ DefectIn stageList source path := by
  rw [broken_converted_iff, broken_params_iff hparams]
  constructor
  · rintro (⟨entries, entry, hsource, hentry, hkey, rfl⟩ | ⟨i, d, rest, hd, hbroken, rfl⟩)
    · exact .key hsource hentry hkey
    · rcases getElem?_written h hd with rfl | ⟨block, hblock, hfrom⟩
      · exact absurd hbroken (brokenStep_placeholder rest)
      · exact .block hblock ((brokenStep_iff hfrom).1 hbroken)
  · intro hdefect
    cases hdefect with
    | block hblock hrest =>
      obtain ⟨d, hd, hfrom⟩ := getElem?_documentBlocks h hblock
      exact .inr ⟨_, d, _, hd, (brokenStep_iff hfrom).2 hrest, rfl⟩
    | key hsource hentry hkey => exact .inl ⟨_, _, hsource, hentry, hkey, rfl⟩

/-! ## Whether a converted document can be checked -/

theorem keysWritable_orElse_iff {v : Value} :
    Schema.KeysWritable (orElse v (.map [])) ↔ Schema.KeysWritable v := by
  unfold orElse
  split
  · rfl
  · rename_i hgiven
    have hempty : Schema.entriesOf v = [] := by
      cases v with
      | map entries => simpa [isGiven, Schema.entriesOf] using hgiven
      | scalar s => rfl
      | list items => rfl
    rw [Schema.KeysWritable, Schema.KeysWritable, hempty]
    rfl

theorem keysWritable_config_iff {block : Value} {d : Draft} (h : FromBlock block d) :
    Schema.KeysWritable d.config ↔ Schema.KeysWritable (Schema.get block "input") := by
  obtain ⟨fields, -, rfl, -, -, hconfig⟩ := h.fields
  rw [keysWritable_settings hconfig, keysWritable_orElse_iff]
  rfl

theorem Draft.get_config (d : Draft) : Schema.get d.toValue "config" = d.config := by
  have hconfig : d.fields.lookup "config" = some d.config := rfl
  rw [d.toValue_eq, Schema.get_entries, hconfig]; rfl

/-- Converted steps have no positions. -/
theorem Draft.get_position (d : Draft) : Schema.get d.toValue "position" = .null := by
  rw [Draft.toValue, Schema.get_record]
  simp [lookup_cons_if, lookup_optionalField]

theorem stepCheckable_toValue_iff {d : Draft} :
    Schema.StepCheckable d.toValue ↔ Schema.KeysWritable d.config := by
  constructor
  · intro h
    have hkeys := h.keys
    rwa [d.get_config] at hkeys
  · intro h
    refine ⟨by rwa [d.get_config], ?_, ?_⟩
    all_goals rw [d.get_position]; exact Schema.testable_null

/-- A converted document can be checked if its keys can be named. -/
theorem checkable_converted_iff (h : Flattened 0 none stageList parts) :
    Schema.Checkable (converted source (written parts)) ↔ Nameable stageList source := by
  have hparams : Schema.get (Schema.get (converted source (written parts)) "trigger") "config" =
      orElse (source.params.getD .null) (.map []) := rfl
  constructor
  · intro hc
    have hkeys := hc.trigger.keys
    have hsteps := hc.steps
    rw [hparams, keysWritable_orElse_iff] at hkeys
    rw [get_converted] at hsteps
    refine ⟨fun block hblock => ?_, hkeys⟩
    obtain ⟨i, hi⟩ := List.mem_iff_getElem?.1 hblock
    obtain ⟨d, hd, hfrom⟩ := getElem?_documentBlocks h hi
    have hd' := hsteps _ (List.mem_map_of_mem (List.mem_of_getElem? hd))
    exact (keysWritable_config_iff hfrom).1 (stepCheckable_toValue_iff.1 hd')
  · intro hn
    refine ⟨⟨rfl, ?_⟩, ?_⟩
    · rw [hparams, keysWritable_orElse_iff]
      exact hn.params
    · rw [get_converted]
      intro step hstep
      obtain ⟨d, hd, rfl⟩ := List.mem_map.1 hstep
      obtain ⟨i, hi⟩ := List.mem_iff_getElem?.1 hd
      refine stepCheckable_toValue_iff.2 ?_
      rcases getElem?_written h hi with rfl | ⟨block, hblock, hfrom⟩
      · exact Schema.keysWritable_record _
      · exact (keysWritable_config_iff hfrom).2 (hn.inputs _ (List.mem_of_getElem? hblock))

/-- Without defects all keys are texts. -/
theorem nameable_of_no_defects (hno : ∀ path, ¬ DefectIn stageList source path) :
    Nameable stageList source := by
  constructor
  · intro block hblock
    obtain ⟨i, hi⟩ := List.mem_iff_getElem?.1 hblock
    refine Schema.keysWritable_of_isString fun entry hentry => ?_
    by_contra hkey
    cases block with
    | map fields =>
      cases hinput : fieldOf fields "input" with
      | map entries =>
        have hmem : entry ∈ entries := by
          rw [show Schema.get (.map fields) "input" = fieldOf fields "input" from rfl, hinput]
            at hentry
          exact hentry
        exact hno _ (.block hi (.key hinput hmem (by simpa using hkey)))
      | _ =>
        rw [show Schema.get (.map fields) "input" = fieldOf fields "input" from rfl, hinput]
          at hentry
        cases hentry
    | _ => cases hentry
  · refine Schema.keysWritable_of_isString fun entry hentry => ?_
    by_contra hkey
    cases hparams : source.params with
    | none => rw [hparams] at hentry; cases hentry
    | some params =>
      rw [hparams, Option.getD_some] at hentry
      cases params with
      | map entries => exact hno _ (.key hparams hentry (by simpa using hkey))
      | _ => cases hentry

/-! ## What the conversion makes itself -/

/-- What the conversion makes itself is as the format wants it, whatever the document is: the version,
the kind of the trigger, ids, the names of blocks without one, and dependencies, which name steps. -/
structure WellMade (stageList : List Value) (v : Value) : Prop where
  version : ∃ s, Schema.get v "version" = .str s
  kind : ∃ kind, Schema.get (Schema.get v "trigger") "type" = .str (TriggerKind.word kind)
  id : ∀ step ∈ Schema.itemsOf (Schema.get v "steps"), ∃ id, Schema.get step "id" = .str id ∧
    id ≠ "" ∧ ∀ c ∈ id.toList, c.isAlphanum ∨ c = '_' ∨ c = '-'
  name : ∀ (i : Nat) block step, (documentBlocks stageList)[i]? = some (.map block) →
    (Schema.itemsOf (Schema.get v "steps"))[i]? = some step →
    (fieldOf block "name").isGiven = false →
    ∃ number : Nat, Schema.get step "name" = .str ("step_" ++ toString number)
  dependsOn : ∀ step ∈ Schema.itemsOf (Schema.get v "steps"), ∀ found,
    field? (Schema.entriesOf step) "depends_on" = some found →
    ∃ ids, found = texts ids ∧
      ∀ id ∈ ids, ∃ other ∈ Schema.itemsOf (Schema.get v "steps"), Schema.get other "id" = .str id

theorem isStepId_of_written (h : Flattened 0 none stageList parts) {d : Draft}
    (hd : d ∈ written parts) : Schema.isStepId d.id = true := by
  obtain ⟨i, hi⟩ := List.mem_iff_getElem?.1 hd
  rcases getElem?_written h hi with rfl | ⟨block, -, hfrom⟩
  · rfl
  · exact hfrom.id

theorem Draft.get_id (d : Draft) : Schema.get d.toValue "id" = .str d.id := by
  have hid : d.fields.lookup "id" = some (.str d.id) := rfl
  rw [d.toValue_eq, Schema.get_entries, hid]; rfl

theorem Draft.get_name (d : Draft) : Schema.get d.toValue "name" = d.name := by
  have hname : d.fields.lookup "name" = some d.name := rfl
  rw [d.toValue_eq, Schema.get_entries, hname]; rfl

theorem wellMade_converted (h : Flattened 0 none stageList parts) :
    WellMade stageList (converted source (written parts)) where
  version := ⟨"1.0", rfl⟩
  kind := ⟨triggerKind source.type, rfl⟩
  id step hstep := by
    rw [get_converted] at hstep
    obtain ⟨d, hd, rfl⟩ := List.mem_map.1 hstep
    exact ⟨d.id, d.get_id, Schema.isStepId_iff.1 (isStepId_of_written h hd)⟩
  name i block step hblock hstep hgiven := by
    obtain ⟨d, hd, hfrom⟩ := getElem?_documentBlocks h hblock
    rw [get_converted, Schema.itemsOf, List.getElem?_map, hd] at hstep
    cases hstep
    obtain ⟨fields, number, hfields, hname, -⟩ := hfrom.fields
    cases hfields
    refine ⟨number, ?_⟩
    rw [d.get_name, hname, orElse, if_neg (by simp [hgiven])]
  dependsOn step hstep found hfound := by
    rw [get_converted] at hstep ⊢
    obtain ⟨d, hd, rfl⟩ := List.mem_map.1 hstep
    rw [d.toValue_eq, Schema.entriesOf, d.field?_dependsOn, Option.map_eq_some_iff] at hfound
    obtain ⟨ids, hids, rfl⟩ := hfound
    refine ⟨ids, rfl, fun id hid => ?_⟩
    obtain ⟨before, after, hsplit⟩ := List.append_of_mem hd
    obtain ⟨e, he, rfl⟩ := earlier_written h hsplit (by rwa [hids])
    exact ⟨e.toValue, List.mem_map_of_mem (hsplit ▸ List.mem_append_left _ he), e.get_id⟩

/-- The issues of a converted document are at the defects of its blocks and of the parameters, and it
is accepted if there are none; what the conversion makes itself has no issues. The check breaks off
only at a key that cannot be named. -/
theorem issuesOf_convert (hparams : source.IsProper) (h : convert stageList source = .ok v) :
    (Nameable stageList source → ∃ found, Workflow.issuesOf v = .ok found ∧
      ∀ path, (∃ i ∈ found, i.path = path) ↔ DefectIn stageList source path) ∧
    (¬ Nameable stageList source → Workflow.issuesOf v = breakOff .notANumber) ∧
    ((∀ path, ¬ DefectIn stageList source path) →
      Workflow.ofValue v = .ok (Schema.read v)) ∧
    WellMade stageList v := by
  obtain ⟨parts, hparts, rfl⟩ := convert_ok h
  have hcheck := @checkable_converted_iff stageList source parts hparts
  have hplaces : ∀ path, (∃ i ∈ Schema.issues (converted source (written parts)), i.path = path) ↔
      DefectIn stageList source path := fun path =>
    (Schema.mem_issues_iff _ path).trans (broken_convert_iff hparams hparts)
  refine ⟨fun hn => ⟨_, Workflow.issuesOf_eq_ok.2 ⟨hcheck.2 hn, rfl⟩, hplaces⟩, fun hn => ?_,
    fun hno => ?_, wellMade_converted hparts⟩
  · refine Workflow.issuesOf_eq_notANumber (mt hcheck.1 hn) fun step hstep => ?_
    rw [get_converted] at hstep
    obtain ⟨d, -, rfl⟩ := List.mem_map.1 hstep
    rw [d.get_position]
    exact ⟨Schema.testable_null, Schema.testable_null⟩
  · refine Workflow.ofValue_eq_ok.2 ⟨hcheck.2 (nameable_of_no_defects hno), ?_, rfl⟩
    exact List.eq_nil_iff_forall_not_mem.2 fun i hi =>
      hno i.path ((hplaces i.path).1 ⟨i, hi, rfl⟩)

end

/-- A block whose name, type and input the format refuses, and one with a key that is no text. -/
def sloppy : List Value := [
  .record [("name", .str "naïve plan"), ("blocks", .list [
    .record [("name", .bool true), ("type", .str ""), ("input", .list [.null]),
      ("then", .list [.record [("type", .str "loop"),
        ("input", .map [(.str "array", .null), (.null, .null)])]])]])]]

def sloppySource : Source :=
  ⟨some "SCHEDULE", some (.map [(.bool true, .null)])⟩

def sloppySteps : List Draft := [
  ⟨"na_ve_plan_1", .bool true, .str "", .list [.null], none⟩,
  ⟨"na_ve_plan_2", .str "step_2", .str "loop", .map [(.null, .null), (.str "items", .null)],
    some ["na_ve_plan_1"]⟩]

theorem issuesOf_convert_sloppy :
    sloppySource.IsProper ∧
    convert sloppy sloppySource = .ok (converted sloppySource sloppySteps) ∧
    ∃ found, Workflow.issuesOf (converted sloppySource sloppySteps) = .ok found ∧
      found.map Issue.dotted = ["trigger.config.True", "steps.0.name", "steps.0.type",
        "steps.0.config", "steps.1.config.None"] ∧
      (∀ path, (∃ i ∈ found, i.path = path) ↔ DefectIn sloppy sloppySource path) ∧
      WellMade sloppy (converted sloppySource sloppySteps) := by
  have hparams : sloppySource.IsProper := fun params h => .inr ⟨_, (Option.some.inj h).symm⟩
  have h : convert sloppy sloppySource = .ok (converted sloppySource sloppySteps) := by rfl
  obtain ⟨hnamed, -, -, hmade⟩ := issuesOf_convert hparams h
  obtain ⟨found, hfound, hplaces⟩ := hnamed ⟨by decide +kernel, by decide +kernel⟩
  obtain ⟨-, rfl⟩ := Workflow.issuesOf_eq_ok.1 hfound
  exact ⟨hparams, h, _, hfound, by decide +kernel, hplaces, hmade⟩

end StepGraph.Legacy
