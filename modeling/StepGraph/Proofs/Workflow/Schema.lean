import StepGraph.Workflow.Schema

/-!
# When the format has nothing to say

`Schema.IsWorkflow` is the format of a workflow as a condition on the entries of a mapping, part by
part (`IsTrigger`, `IsStep`, `IsMetadata`). `issues_eq_nil`: a value has no issues exactly if it is
such a mapping. Each check has a lemma of this kind; none depends on the path under which the
check reports.
-/

set_option autoImplicit false

namespace StepGraph

theorem TriggerKind.ofWord?_eq_some {word : String} {kind : TriggerKind} :
    TriggerKind.ofWord? word = some kind ↔ word = kind.word := by
  constructor
  · intro h
    unfold ofWord? at h
    have hw := List.find?_some h
    simpa using (beq_iff_eq.1 hw).symm
  · rintro rfl
    cases kind <;> rfl

namespace Schema

open Value

/-! ## The format -/

def IsSettings (v : Value) : Prop :=
  ∃ entries, v = .map entries ∧ ∀ entry ∈ entries, entry.1.isString = true

/-- A number that is finite if it is a double. -/
def IsNumber (v : Value) : Prop :=
  ∃ n, v = .num n ∧ ∀ d, n = .float d → d.isFinite = true

structure IsTrigger (entries : Entries) : Prop where
  kind : ∃ kind, entries.get? "type" = some (.str (TriggerKind.word kind))
  config : ∃ v, entries.get? "config" = some v ∧ IsSettings v

structure IsPosition (entries : Entries) : Prop where
  x : ∃ v, entries.get? "x" = some v ∧ IsNumber v
  y : ∃ v, entries.get? "y" = some v ∧ IsNumber v

structure IsStep (entries : Entries) : Prop where
  id : ∃ s, entries.get? "id" = some (.str s) ∧ isStepId s = true
  name : ∃ s, entries.get? "name" = some (.str s) ∧ s ≠ ""
  type : ∃ s, entries.get? "type" = some (.str s) ∧ s ≠ ""
  config : ∃ v, entries.get? "config" = some v ∧ IsSettings v
  dependsOn : ∀ v, field? entries "depends_on" = some v →
    ∃ items, v = .list items ∧ ∀ item ∈ items, ∃ s, item = .str s ∧ s ≠ ""
  position : ∀ v, field? entries "position" = some v → ∃ es, v = .map es ∧ IsPosition es

structure IsMetadata (entries : Entries) : Prop where
  description : ∀ v, field? entries "description" = some v → ∃ s, v = .str s
  tags : ∀ v, field? entries "tags" = some v →
    ∃ items, v = .list items ∧ ∀ item ∈ items, ∃ s, item = .str s

structure IsWorkflow (entries : Entries) : Prop where
  version : ∃ s, entries.get? "version" = some (.str s)
  trigger : ∃ es, entries.get? "trigger" = some (.map es) ∧ IsTrigger es
  steps : ∃ items, entries.get? "steps" = some (.list items) ∧
    ∀ item ∈ items, ∃ es, item = .map es ∧ IsStep es
  metadata : ∀ v, field? entries "metadata" = some v → ∃ es, v = .map es ∧ IsMetadata es

theorem isStepId_iff {id : String} : isStepId id = true ↔
    id ≠ "" ∧ ∀ c ∈ id.toList, c.isAlphanum ∨ c = '_' ∨ c = '-' := by
  simp [isStepId, isIdChar, or_assoc]

/-! ## The checks -/

section
variable {entries : Entries} {name what : String} {path : Path} {v : Value}
  {check : Path → Value → List Issue}

theorem checkRequired_eq_nil : checkRequired entries name path check = [] ↔
    ∃ v, entries.get? name = some v ∧ check (path ++ [.name name]) v = [] := by
  unfold checkRequired
  cases h : entries.get? name <;> simp

theorem checkOptional_eq_nil : checkOptional entries name path check = [] ↔
    ∀ v, field? entries name = some v → check (path ++ [.name name]) v = [] := by
  unfold checkOptional
  cases h : field? entries name <;> simp

theorem checkList_eq_nil {P : Value → Prop} (h : ∀ path x, check path x = [] ↔ P x) :
    checkList check path v = [] ↔ ∃ items, v = .list items ∧ ∀ item ∈ items, P item := by
  unfold checkList
  split
  · rename_i items
    simp only [List.flatMap_eq_nil_iff, Value.list.injEq, exists_eq_left', h]
    constructor
    · intro hall item hitem
      obtain ⟨i, hi⟩ := List.mem_iff_getElem?.1 hitem
      exact hall (item, i) (List.mem_zipIdx_iff_getElem?.2 hi)
    · rintro hall ⟨item, i⟩ hmem
      exact hall item (List.mem_of_getElem? (List.mem_zipIdx_iff_getElem?.1 hmem))
  · rename_i hno
    simp only [List.cons_ne_nil, false_iff]
    rintro ⟨items, rfl, -⟩
    exact hno items rfl

theorem checkText_eq_nil : checkText path v = [] ↔ ∃ s, v = .str s := by
  unfold checkText
  split <;> simp_all

theorem checkNonempty_eq_nil : checkNonempty what path v = [] ↔ ∃ s, v = .str s ∧ s ≠ "" := by
  unfold checkNonempty
  split <;> simp_all

theorem checkTexts_eq_nil : checkList checkText path v = [] ↔
    ∃ items, v = .list items ∧ ∀ item ∈ items, ∃ s, item = .str s :=
  checkList_eq_nil fun _ _ => checkText_eq_nil

theorem checkNonempties_eq_nil : checkList (checkNonempty what) path v = [] ↔
    ∃ items, v = .list items ∧ ∀ item ∈ items, ∃ s, item = .str s ∧ s ≠ "" :=
  checkList_eq_nil fun _ _ => checkNonempty_eq_nil

theorem checkId_eq_nil : checkId path v = [] ↔ ∃ s, v = .str s ∧ isStepId s = true := by
  have hne : ∀ s, isStepId s = true → s ≠ "" := by rintro _ h rfl; cases h
  unfold checkId
  rw [List.append_eq_nil_iff, checkNonempty_eq_nil]
  split
  · rename_i s
    constructor
    · rintro ⟨⟨s', hs', hs⟩, h⟩
      cases hs'
      refine ⟨s, rfl, ?_⟩
      simpa [hs] using h
    · rintro ⟨s', hs', hs⟩
      cases hs'
      exact ⟨⟨s, rfl, hne s hs⟩, by simp [hs]⟩
  · rename_i hno
    exact ⟨fun ⟨⟨s, hs, _⟩, _⟩ => absurd hs (hno s), fun ⟨s, hs, _⟩ => absurd hs (hno s)⟩

theorem checkSettings_eq_nil : checkSettings path v = [] ↔ IsSettings v := by
  unfold checkSettings IsSettings
  split
  · simp [List.filter_eq_nil_iff]
  · simp_all

theorem checkTriggerKind_eq_nil :
    checkTriggerKind path v = [] ↔ ∃ kind, v = .str (TriggerKind.word kind) := by
  unfold checkTriggerKind
  split
  · rename_i s
    simp [Option.isSome_iff_exists, TriggerKind.ofWord?_eq_some]
  · simp_all

theorem checkCoordinate_eq_nil : checkCoordinate path v = [] ↔ IsNumber v := by
  unfold checkCoordinate IsNumber
  split
  · simp
  · simp
  · rename_i hi hd
    simp only [List.cons_ne_nil, false_iff]
    rintro ⟨n, rfl, -⟩
    cases n with
    | int n => exact hi n rfl
    | float d => exact hd d rfl

theorem checkTrigger_eq_nil :
    checkTrigger path v = [] ↔ ∃ entries, v = .map entries ∧ IsTrigger entries := by
  unfold checkTrigger
  split
  · simp only [List.append_eq_nil_iff, checkRequired_eq_nil, checkTriggerKind_eq_nil,
      checkSettings_eq_nil, Value.map.injEq, exists_eq_left']
    exact ⟨fun ⟨⟨_, h, k, hk⟩, hc⟩ => ⟨⟨k, hk ▸ h⟩, hc⟩, fun ⟨⟨k, hk⟩, hc⟩ => ⟨⟨_, hk, k, rfl⟩, hc⟩⟩
  · simp_all

theorem checkPosition_eq_nil :
    checkPosition path v = [] ↔ ∃ entries, v = .map entries ∧ IsPosition entries := by
  unfold checkPosition
  split
  · simp only [List.append_eq_nil_iff, checkRequired_eq_nil, checkCoordinate_eq_nil,
      Value.map.injEq, exists_eq_left']
    exact ⟨fun ⟨hx, hy⟩ => ⟨hx, hy⟩, fun ⟨hx, hy⟩ => ⟨hx, hy⟩⟩
  · simp_all

theorem checkStep_eq_nil :
    checkStep path v = [] ↔ ∃ entries, v = .map entries ∧ IsStep entries := by
  unfold checkStep
  split
  · rename_i entries
    simp only [List.append_eq_nil_iff, checkRequired_eq_nil, checkOptional_eq_nil, checkId_eq_nil,
      checkNonempty_eq_nil, checkSettings_eq_nil, checkNonempties_eq_nil,
      checkPosition_eq_nil, Value.map.injEq, exists_eq_left']
    constructor
    · rintro ⟨⟨⟨⟨⟨⟨_, hi, s, rfl, hs⟩, _, hn, n, rfl, hn'⟩, _, ht, t, rfl, ht'⟩, hc⟩, hd⟩, hp⟩
      exact ⟨⟨s, hi, hs⟩, ⟨n, hn, hn'⟩, ⟨t, ht, ht'⟩, hc, hd, hp⟩
    · rintro ⟨⟨s, hi, hs⟩, ⟨n, hn, hn'⟩, ⟨t, ht, ht'⟩, hc, hd, hp⟩
      exact ⟨⟨⟨⟨⟨⟨_, hi, s, rfl, hs⟩, _, hn, n, rfl, hn'⟩, _, ht, t, rfl, ht'⟩, hc⟩, hd⟩, hp⟩
  · simp_all

theorem checkSteps_eq_nil : checkList checkStep path v = [] ↔
    ∃ items, v = .list items ∧ ∀ item ∈ items, ∃ entries, item = .map entries ∧ IsStep entries :=
  checkList_eq_nil fun _ _ => checkStep_eq_nil

theorem checkMetadata_eq_nil :
    checkMetadata path v = [] ↔ ∃ entries, v = .map entries ∧ IsMetadata entries := by
  unfold checkMetadata
  split
  · simp only [List.append_eq_nil_iff, checkOptional_eq_nil, checkText_eq_nil, checkTexts_eq_nil,
      Value.map.injEq, exists_eq_left']
    exact ⟨fun ⟨hd, ht⟩ => ⟨hd, ht⟩, fun ⟨hd, ht⟩ => ⟨hd, ht⟩⟩
  · simp_all

/-- A value has no issues exactly if it is a mapping in the format. -/
theorem issues_eq_nil : issues v = [] ↔ ∃ entries, v = .map entries ∧ IsWorkflow entries := by
  unfold issues
  split
  · simp only [List.append_eq_nil_iff, checkRequired_eq_nil, checkOptional_eq_nil,
      checkText_eq_nil, checkTrigger_eq_nil, checkSteps_eq_nil, checkMetadata_eq_nil,
      Value.map.injEq, exists_eq_left']
    constructor
    · rintro ⟨⟨⟨⟨_, hv, s, rfl⟩, _, ht, es, rfl, ht'⟩, _, hs, items, rfl, hs'⟩, hm⟩
      exact ⟨⟨s, hv⟩, ⟨es, ht, ht'⟩, ⟨items, hs, hs'⟩, hm⟩
    · rintro ⟨⟨s, hv⟩, ⟨es, ht, ht'⟩, ⟨items, hs, hs'⟩, hm⟩
      exact ⟨⟨⟨⟨_, hv, s, rfl⟩, _, ht, es, rfl, ht'⟩, _, hs, items, rfl, hs'⟩, hm⟩
  · simp_all

end

end Schema

end StepGraph
