import StepGraph.Proofs.Workflow.Faults

/-!
# The stored form of a workflow

Reading undoes writing (`Schema.read_toValue`), whatever the workflow. `Workflow.Valid` is what the
format adds to the types: ids of the right characters, names, types and dependencies that are not
empty, and coordinates that are finite as doubles.

* `valid_of_ofValue`: a workflow that was read from a value is valid.
* `ofValue_toValue`: the stored form of a valid workflow has no issues and is read as the workflow.
-/

set_option autoImplicit false

namespace StepGraph

open Value

/-- Both coordinates are finite as doubles. -/
def Position.IsFinite (p : Position) : Prop :=
  p.x.toDouble.isFinite = true ∧ p.y.toDouble.isFinite = true

instance (p : Position) : Decidable p.IsFinite :=
  inferInstanceAs (Decidable (_ ∧ _))

structure Step.Valid (s : Step) : Prop where
  id : Schema.isStepId s.id = true
  name : s.name ≠ ""
  type : s.type ≠ ""
  dependsOn : ∀ ids, s.dependsOn = some ids → ∀ d ∈ ids, d ≠ ""
  position : ∀ p, s.position = some p → p.IsFinite

def Workflow.Valid (w : Workflow) : Prop :=
  ∀ s ∈ w.steps, s.Valid

theorem Step.Valid.id_ne {s : Step} (h : s.Valid) : s.id ≠ "" :=
  (Schema.isStepId_iff.1 h.id).1

theorem Step.Valid.ne_of_mem {s : Step} (h : s.Valid) {d : String}
    (hd : d ∈ s.dependsOn.getD []) : d ≠ "" := by
  cases hids : s.dependsOn with
  | none => simp [hids] at hd
  | some ids => exact h.dependsOn ids hids d (by simpa [hids] using hd)

/-! ## The entries of the stored form -/

def Step.fields (s : Step) : Fields :=
  [("id", .str s.id), ("name", .str s.name), ("type", .str s.type), ("config", .record s.config)]
    ++ optionalField "depends_on" texts s.dependsOn
    ++ optionalField "position" Position.toValue s.position

def Metadata.fields (m : Metadata) : Fields :=
  optionalField "description" Value.str m.description ++ optionalField "tags" texts m.tags

def Workflow.fields (w : Workflow) : Fields :=
  [("version", .str w.version), ("trigger", w.trigger.toValue),
      ("steps", .list (w.steps.map Step.toValue))]
    ++ optionalField "metadata" Metadata.toValue w.metadata

theorem Step.toValue_eq (s : Step) : s.toValue = .map s.fields.entries := rfl

theorem Metadata.toValue_eq (m : Metadata) : m.toValue = .map m.fields.entries := rfl

theorem Workflow.toValue_eq (w : Workflow) : w.toValue = .map w.fields.entries := rfl

theorem Step.lookup_fields (s : Step) :
    s.fields.lookup "id" = some (.str s.id) ∧ s.fields.lookup "name" = some (.str s.name) ∧
      s.fields.lookup "type" = some (.str s.type) ∧
      s.fields.lookup "config" = some (.record s.config) ∧
      s.fields.lookup "depends_on" = s.dependsOn.map texts ∧
      s.fields.lookup "position" = s.position.map Position.toValue := by
  simp [Step.fields, List.lookup_append, lookup_cons_if, lookup_optionalField]

theorem Metadata.lookup_fields (m : Metadata) :
    m.fields.lookup "description" = m.description.map Value.str ∧
      m.fields.lookup "tags" = m.tags.map texts := by
  simp [Metadata.fields, List.lookup_append, lookup_optionalField]

theorem Workflow.lookup_fields (w : Workflow) :
    w.fields.lookup "version" = some (.str w.version) ∧
      w.fields.lookup "trigger" = some w.trigger.toValue ∧
      w.fields.lookup "steps" = some (.list (w.steps.map Step.toValue)) ∧
      w.fields.lookup "metadata" = w.metadata.map Metadata.toValue := by
  simp [Workflow.fields, lookup_cons_if, lookup_optionalField]

theorem Step.field?_dependsOn (s : Step) :
    field? s.fields.entries "depends_on" = s.dependsOn.map texts :=
  field?_entries _ s.lookup_fields.2.2.2.2.1 fun _ => by simp [texts]

theorem Step.field?_position (s : Step) :
    field? s.fields.entries "position" = s.position.map Position.toValue :=
  field?_entries _ s.lookup_fields.2.2.2.2.2 fun _ => by simp [Position.toValue, record]

theorem Metadata.field?_description (m : Metadata) :
    field? m.fields.entries "description" = m.description.map Value.str :=
  field?_entries _ m.lookup_fields.1 fun _ => by simp

theorem Metadata.field?_tags (m : Metadata) :
    field? m.fields.entries "tags" = m.tags.map texts :=
  field?_entries _ m.lookup_fields.2 fun _ => by simp [texts]

theorem Workflow.field?_metadata (w : Workflow) :
    field? w.fields.entries "metadata" = w.metadata.map Metadata.toValue :=
  field?_entries _ w.lookup_fields.2.2.2 fun _ => by simp [Metadata.toValue, record]

/-! ## Reading undoes writing -/

namespace Schema

theorem readTexts_texts (items : List String) : readTexts (texts items) = items := by
  simp [readTexts, texts, itemsOf, textOf, Function.comp_def]

theorem readPosition_toValue (p : Position) : readPosition p.toValue = p := by
  simp [readPosition, Position.toValue, get_record, lookup_cons_if, numberOf]

theorem readTrigger_toValue (t : Trigger) : readTrigger t.toValue = t := by
  simp [readTrigger, Trigger.toValue, get_record, lookup_cons_if, textOf, readFields_record,
    TriggerKind.ofWord?_eq_some.2 rfl]

theorem map_readTexts (x : Option (List String)) : (x.map texts).map readTexts = x := by
  cases x <;> simp [readTexts_texts]

theorem readStep_toValue (s : Step) : readStep s.toValue = s := by
  obtain ⟨hid, hname, htype, hconfig, -, -⟩ := s.lookup_fields
  have hpos : (s.position.map Position.toValue).map readPosition = s.position := by
    cases s.position <;> simp [readPosition_toValue]
  simp only [readStep, Step.toValue_eq, get_entries, hid, hname, htype, hconfig, Option.getD_some,
    textOf, readFields_record, entriesOf, s.field?_dependsOn, s.field?_position, map_readTexts,
    hpos]

theorem readMetadata_toValue (m : Metadata) : readMetadata m.toValue = m := by
  have hd : (m.description.map Value.str).map textOf = m.description := by
    cases m.description <;> rfl
  rw [readMetadata, Metadata.toValue_eq, entriesOf, m.field?_description, m.field?_tags, hd,
    map_readTexts]

theorem map_readStep (steps : List Step) : (steps.map Step.toValue).map readStep = steps := by
  simp [readStep_toValue, Function.comp_def]

theorem read_toValue (w : Workflow) : read w.toValue = w := by
  obtain ⟨hversion, htrigger, hsteps, -⟩ := w.lookup_fields
  have hm : (w.metadata.map Metadata.toValue).map readMetadata = w.metadata := by
    cases w.metadata <;> simp [readMetadata_toValue]
  simp only [read, Workflow.toValue_eq, get_entries, hversion, htrigger, hsteps, Option.getD_some,
    textOf, itemsOf, readTrigger_toValue, map_readStep, entriesOf, w.field?_metadata, hm]

/-! ## What was read is valid -/

theorem get?_of_field? {entries : Entries} {name : String} {v : Value}
    (h : field? entries name = some v) : entries.get? name = some v := by
  unfold field? at h
  split at h
  · cases h
  · exact h

theorem get_map {entries : Entries} {name : String} {v : Value} (h : entries.get? name = some v) :
    get (.map entries) name = v := by
  simp [get, entriesOf, h]

theorem IsNumber.isFinite {v : Value} (h : IsNumber v) (ht : Testable v) :
    (numberOf v).toDouble.isFinite = true := by
  obtain ⟨n, rfl, hn⟩ := h
  cases n with
  | int n =>
    change (Double.ofInt n).isFinite = true
    simpa [Number.isHuge] using testable_num.1 ht
  | float d => exact hn d rfl

theorem IsPosition.isFinite {entries : Entries} (h : IsPosition entries)
    (hx : Testable (get (.map entries) "x")) (hy : Testable (get (.map entries) "y")) :
    (readPosition (.map entries)).IsFinite := by
  obtain ⟨⟨x, ex, hx'⟩, ⟨y, ey, hy'⟩⟩ := h
  rw [get_map ex] at hx
  rw [get_map ey] at hy
  simp only [readPosition, get_map ex, get_map ey]
  exact ⟨hx'.isFinite hx, hy'.isFinite hy⟩

theorem IsStep.valid {entries : Entries} (h : IsStep entries)
    (hc : StepCheckable (.map entries)) : (readStep (.map entries)).Valid := by
  obtain ⟨⟨s, es, hs⟩, ⟨n, en, hn⟩, ⟨t, et, ht⟩, -, hd, hp⟩ := h
  refine ⟨?_, ?_, ?_, fun ids hids d hmem => ?_, fun p hpos => ?_⟩
  · simpa [readStep, get_map es, textOf] using hs
  · simpa [readStep, get_map en, textOf] using hn
  · simpa [readStep, get_map et, textOf] using ht
  · obtain ⟨v, hv, rfl⟩ := Option.map_eq_some_iff.1 hids
    obtain ⟨items, rfl, hitems⟩ := hd v hv
    obtain ⟨item, hitem, rfl⟩ := List.mem_map.1 hmem
    obtain ⟨s, rfl, hs⟩ := hitems item hitem
    exact hs
  · obtain ⟨v, hv, rfl⟩ := Option.map_eq_some_iff.1 hpos
    change field? entries "position" = some v at hv
    have hx := hc.x
    have hy := hc.y
    rw [get_map (get?_of_field? hv)] at hx hy
    obtain ⟨es, rfl, hes⟩ := hp v hv
    exact hes.isFinite hx hy

theorem valid_read {v : Value} (h : issues v = []) (hc : Checkable v) : (read v).Valid := by
  obtain ⟨entries, rfl, -, -, ⟨items, hi, hitems⟩, -⟩ := issues_eq_nil.1 h
  intro s hs
  have hsteps := hc.steps
  simp only [read, get_map hi, itemsOf] at hs hsteps
  obtain ⟨item, hitem, rfl⟩ := List.mem_map.1 hs
  obtain ⟨es, rfl, hes⟩ := hitems item hitem
  exact hes.valid (hsteps _ hitem)

/-! ## What is valid can be read -/

theorem isSettings_record (fields : Fields) : IsSettings (.record fields) :=
  ⟨fields.entries, rfl, fun _ => isString_of_mem_entries⟩

theorem isTrigger_toValue (t : Trigger) :
    ∃ entries, t.toValue = .map entries ∧ IsTrigger entries := by
  refine ⟨Fields.entries [("type", .str t.kind.word), ("config", .record t.config)], rfl, ?_, ?_⟩
  · exact ⟨t.kind, by simp [get?_entries]⟩
  · exact ⟨.record t.config, by simp [get?_entries, lookup_cons_if], isSettings_record _⟩

theorem isNumber_num {n : Number} (h : n.toDouble.isFinite = true) : IsNumber (.num n) :=
  ⟨n, rfl, by rintro d rfl; exact h⟩

theorem isHuge_of_isFinite {n : Number} (h : n.toDouble.isFinite = true) : n.isHuge = false := by
  cases n with
  | int n =>
    change (Double.ofInt n).isFinite = true at h
    simpa [Number.isHuge] using h
  | float d => rfl

theorem isPosition_toValue {p : Position} (h : p.IsFinite) :
    ∃ entries, p.toValue = .map entries ∧ IsPosition entries := by
  refine ⟨Fields.entries [("x", .num p.x), ("y", .num p.y)], rfl, ?_, ?_⟩
  · exact ⟨.num p.x, by simp [get?_entries], isNumber_num h.1⟩
  · exact ⟨.num p.y, by simp [get?_entries, lookup_cons_if], isNumber_num h.2⟩

theorem isStep_fields {s : Step} (h : s.Valid) : IsStep s.fields.entries := by
  obtain ⟨hid, hname, htype, hconfig, -, -⟩ := s.lookup_fields
  rw [← get?_entries] at hid hname htype hconfig
  refine ⟨⟨_, hid, h.id⟩, ⟨_, hname, h.name⟩, ⟨_, htype, h.type⟩, ⟨_, hconfig, isSettings_record _⟩,
    fun v hv => ?_, fun v hv => ?_⟩
  · rw [s.field?_dependsOn] at hv
    obtain ⟨ids, hids, rfl⟩ := Option.map_eq_some_iff.1 hv
    refine ⟨ids.map Value.str, rfl, fun item hitem => ?_⟩
    obtain ⟨d, hd, rfl⟩ := List.mem_map.1 hitem
    exact ⟨d, rfl, h.dependsOn ids hids d hd⟩
  · rw [s.field?_position] at hv
    obtain ⟨p, hp, rfl⟩ := Option.map_eq_some_iff.1 hv
    exact isPosition_toValue (h.position p hp)

theorem isMetadata_fields (m : Metadata) : IsMetadata m.fields.entries := by
  refine ⟨fun v hv => ?_, fun v hv => ?_⟩
  · rw [m.field?_description] at hv
    obtain ⟨s, -, rfl⟩ := Option.map_eq_some_iff.1 hv
    exact ⟨s, rfl⟩
  · rw [m.field?_tags] at hv
    obtain ⟨tags, -, rfl⟩ := Option.map_eq_some_iff.1 hv
    refine ⟨tags.map Value.str, rfl, fun item hitem => ?_⟩
    obtain ⟨s, -, rfl⟩ := List.mem_map.1 hitem
    exact ⟨s, rfl⟩

theorem issues_toValue {w : Workflow} (h : w.Valid) : issues w.toValue = [] := by
  obtain ⟨hversion, htrigger, hsteps, -⟩ := w.lookup_fields
  rw [← get?_entries] at hversion htrigger hsteps
  refine issues_eq_nil.2 ⟨w.fields.entries, rfl, ⟨_, hversion⟩, ?_, ⟨_, hsteps, fun item hi => ?_⟩,
    fun v hv => ?_⟩
  · obtain ⟨es, he, hes⟩ := isTrigger_toValue w.trigger
    exact ⟨es, he ▸ htrigger, hes⟩
  · obtain ⟨s, hs, rfl⟩ := List.mem_map.1 hi
    exact ⟨s.fields.entries, rfl, isStep_fields (h s hs)⟩
  · rw [w.field?_metadata] at hv
    obtain ⟨m, -, rfl⟩ := Option.map_eq_some_iff.1 hv
    exact ⟨m.fields.entries, rfl, isMetadata_fields m⟩

/-- A step as it is stored can be checked unless a coordinate is beyond the doubles. -/
theorem stepCheckable_toValue {s : Step} : StepCheckable s.toValue ↔
    ∀ p, s.position = some p → p.x.isHuge = false ∧ p.y.isHuge = false := by
  obtain ⟨-, -, -, hconfig, -, hposition⟩ := s.lookup_fields
  have hkeys : KeysWritable (get s.toValue "config") := by
    rw [Step.toValue_eq, get_entries, hconfig]
    exact keysWritable_record s.config
  have hplace : get s.toValue "position" = (s.position.map Position.toValue).getD .null := by
    rw [Step.toValue_eq, get_entries, hposition]
  cases hp : s.position with
  | none =>
    rw [hp] at hplace
    refine iff_of_true ⟨hkeys, ?_, ?_⟩ fun p h => by cases h
    all_goals rw [hplace]; exact testable_null
  | some p =>
    rw [hp, Option.map_some, Option.getD_some] at hplace
    have hx : get p.toValue "x" = .num p.x := by simp [Position.toValue, get_record]
    have hy : get p.toValue "y" = .num p.y := by
      simp [Position.toValue, get_record, lookup_cons_if]
    constructor
    · rintro ⟨-, htx, hty⟩ q hq
      obtain rfl := Option.some.inj hq
      rw [hplace, hx] at htx
      rw [hplace, hy] at hty
      exact ⟨testable_num.1 htx, testable_num.1 hty⟩
    · intro h
      refine ⟨hkeys, ?_, ?_⟩
      · rw [hplace, hx]
        exact testable_num.2 (h p rfl).1
      · rw [hplace, hy]
        exact testable_num.2 (h p rfl).2

theorem stepCheckable_of_valid {s : Step} (h : s.Valid) : StepCheckable s.toValue :=
  stepCheckable_toValue.2 fun p hp =>
    ⟨isHuge_of_isFinite (h.position p hp).1, isHuge_of_isFinite (h.position p hp).2⟩

theorem triggerCheckable_toValue (t : Trigger) : TriggerCheckable t.toValue := by
  constructor
  · rw [Trigger.toValue, get_record, lookup_cons_if, if_pos rfl]
    rfl
  · rw [Trigger.toValue, get_record]
    exact keysWritable_record t.config

theorem checkable_toValue {w : Workflow} (h : w.Valid) : Checkable w.toValue := by
  obtain ⟨-, htrigger, hsteps, -⟩ := w.lookup_fields
  have ht : get w.toValue "trigger" = w.trigger.toValue := by
    rw [Workflow.toValue_eq, get_entries, htrigger, Option.getD_some]
  have hs : get w.toValue "steps" = .list (w.steps.map Step.toValue) := by
    rw [Workflow.toValue_eq, get_entries, hsteps, Option.getD_some]
  refine ⟨ht ▸ triggerCheckable_toValue w.trigger, ?_⟩
  rw [hs]
  intro item hitem
  obtain ⟨s, hmem, rfl⟩ := List.mem_map.1 hitem
  exact stepCheckable_of_valid (h s hmem)

end Schema

namespace Workflow

theorem valid_of_ofValue {raw : Value} {w : Workflow} (h : ofValue raw = .ok w) : w.Valid := by
  obtain ⟨hc, hi, rfl⟩ := ofValue_eq_ok.1 h
  exact Schema.valid_read hi hc

theorem issuesOf_toValue {w : Workflow} (h : w.Valid) : issuesOf w.toValue = .ok [] :=
  issuesOf_eq_ok.2 ⟨Schema.checkable_toValue h, (Schema.issues_toValue h).symm⟩

theorem ofValue_toValue {w : Workflow} (h : w.Valid) : ofValue w.toValue = .ok w :=
  ofValue_eq_ok.2 ⟨Schema.checkable_toValue h, Schema.issues_toValue h,
    (Schema.read_toValue w).symm⟩

end Workflow

end StepGraph
