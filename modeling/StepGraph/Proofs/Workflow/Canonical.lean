import Mathlib.Data.List.Basic
import StepGraph.Proofs.Workflow.Stored

/-!
# The canonical form of a stored workflow

`Schema.canonical` says, apart from any workflow, what is kept of a value: of a mapping in the
format the fields that the format knows, in the order of the format, as far as they are there and
not null (`onlyFields`), and in a field that is no mapping of the format whatever stands there. A
field of the canonical form is that of the value in its own form (`field?_onlyFields`), so taking it
twice changes nothing (`canonical_canonical`).

* `toValue_read`: a value in the format is stored as its canonical form.
-/

set_option autoImplicit false

namespace StepGraph.Schema

open Value

/-! ## Forms -/

/-- These fields alone, in this order, each in its own form, where they are there and not null. -/
def onlyFields (forms : List (String × (Value → Value))) : Value → Value
  | .map entries =>
    .record (forms.flatMap fun form => optionalField form.1 form.2 (field? entries form.1))
  | v => v

/-- Each item of a list in a form. -/
def eachItem (form : Value → Value) : Value → Value
  | .list items => .list (items.map form)
  | v => v

def canonicalTrigger : Value → Value :=
  onlyFields [("type", id), ("config", id)]

def canonicalPosition : Value → Value :=
  onlyFields [("x", id), ("y", id)]

def canonicalStep : Value → Value :=
  onlyFields [("id", id), ("name", id), ("type", id), ("config", id), ("depends_on", id),
    ("position", canonicalPosition)]

def canonicalMetadata : Value → Value :=
  onlyFields [("description", id), ("tags", id)]

/-- What is kept of a value that is read as a workflow. -/
def canonical : Value → Value :=
  onlyFields [("version", id), ("trigger", canonicalTrigger), ("steps", eachItem canonicalStep),
    ("metadata", canonicalMetadata)]

/-! ## Fields of a form -/

section
variable {forms : List (String × (Value → Value))} {form : Value → Value} {name : String}
  {entries : Entries}

theorem field?_ne_null {v : Value} (h : field? entries name = some v) : v ≠ .null := by
  rintro rfl
  unfold field? at h
  split at h
  · cases h
  · rename_i hne
    exact hne h

theorem field?_of_get? {v : Value} (h : entries.get? name = some v) (hv : v ≠ .null) :
    field? entries name = some v := by
  unfold field?
  split
  · rename_i hn
    exact absurd (Option.some.inj (h.symm.trans hn)) hv
  · exact h

theorem lookup_onlyFields_of_notMem (h : name ∉ forms.map Prod.fst) :
    (forms.flatMap fun form => optionalField form.1 form.2 (field? entries form.1)).lookup name
      = none := by
  induction forms with
  | nil => rfl
  | cons first forms ih =>
    rw [List.map_cons, List.mem_cons, not_or] at h
    rw [List.flatMap_cons, List.lookup_append, lookup_optionalField, if_neg h.1, ih h.2]
    rfl

theorem lookup_onlyFields (hnd : (forms.map Prod.fst).Nodup) (h : (name, form) ∈ forms) :
    (forms.flatMap fun form => optionalField form.1 form.2 (field? entries form.1)).lookup name
      = (field? entries name).map form := by
  induction forms with
  | nil => cases h
  | cons first forms ih =>
    rw [List.map_cons, List.nodup_cons] at hnd
    rw [List.flatMap_cons, List.lookup_append, lookup_optionalField]
    rcases List.mem_cons.1 h with rfl | h
    · rw [if_pos rfl, lookup_onlyFields_of_notMem hnd.1, Option.or_none]
    · have hne : name ≠ first.1 := fun he => hnd.1 (he ▸ List.mem_map_of_mem h)
      rw [if_neg hne, ih hnd.2 h, Option.none_or]

/-- A field that is kept is found in its form, and no other field is. -/
theorem field?_onlyFields (entries : Entries) (hnd : (forms.map Prod.fst).Nodup)
    (hnull : ∀ form ∈ forms, ∀ v, v ≠ .null → form.2 v ≠ .null) :
    (∀ form ∈ forms, field? (entriesOf (onlyFields forms (.map entries))) form.1
      = (field? entries form.1).map form.2) ∧
    ∀ name ∉ forms.map Prod.fst,
      (entriesOf (onlyFields forms (.map entries))).get? name = none := by
  have hentries : entriesOf (onlyFields forms (.map entries)) = Fields.entries
      (forms.flatMap fun form => optionalField form.1 form.2 (field? entries form.1)) := rfl
  refine ⟨fun form hform => ?_, fun name hname => ?_⟩
  · have hget : (entriesOf (onlyFields forms (.map entries))).get? form.1
        = (field? entries form.1).map form.2 := by
      rw [hentries, get?_entries, lookup_onlyFields hnd hform]
    cases hv : field? entries form.1 with
    | none =>
      rw [hv] at hget
      rw [field?, hget]
      rfl
    | some v =>
      rw [hv] at hget
      exact field?_of_get? hget (hnull form hform v (field?_ne_null hv))
  · rw [hentries, get?_entries, lookup_onlyFields_of_notMem hname]

end

/-! ## Taking a form twice -/

/-- Taking the form twice is taking it once, and it makes nothing null. -/
structure Keeps (form : Value → Value) : Prop where
  again : ∀ v, form (form v) = form v
  null : ∀ v, v ≠ .null → form v ≠ .null

theorem keeps_id : Keeps id :=
  ⟨fun _ => rfl, fun _ h => h⟩

theorem Keeps.eachItem {form : Value → Value} (h : Keeps form) : Keeps (eachItem form) := by
  refine ⟨fun v => ?_, fun v hv => ?_⟩
  · cases v with
    | list items => simp [Schema.eachItem, h.again]
    | _ => rfl
  · cases v with
    | list items => simp [Schema.eachItem]
    | _ => exact hv

theorem Keeps.onlyFields {forms : List (String × (Value → Value))}
    (hnd : (forms.map Prod.fst).Nodup) (h : ∀ form ∈ forms, Keeps form.2) :
    Keeps (onlyFields forms) := by
  refine ⟨fun v => ?_, fun v hv => ?_⟩
  · cases v with
    | map entries =>
      have hfield := (field?_onlyFields entries hnd fun form hform => (h form hform).null).1
      have hsame : ∀ form ∈ forms, optionalField form.1 form.2
          (field? (entriesOf (Schema.onlyFields forms (.map entries))) form.1)
            = optionalField form.1 form.2 (field? entries form.1) := by
        intro form hform
        rw [hfield form hform]
        cases field? entries form.1 with
        | none => rfl
        | some v => simp [optionalField, (h form hform).again]
      exact congrArg Value.record (List.flatMap_congr hsame)
    | _ => rfl
  · cases v with
    | map entries => simp [Schema.onlyFields, record]
    | _ => exact hv

theorem keeps_canonicalStep : Keeps canonicalStep := by
  have hposition : Keeps canonicalPosition := .onlyFields (by decide) (by simp [keeps_id])
  exact .onlyFields (by decide) (by simp [keeps_id, hposition])

theorem canonical_canonical (v : Value) : canonical (canonical v) = canonical v := by
  have htrigger : Keeps canonicalTrigger := .onlyFields (by decide) (by simp [keeps_id])
  have hmetadata : Keeps canonicalMetadata := .onlyFields (by decide) (by simp [keeps_id])
  have h : Keeps canonical :=
    .onlyFields (by decide) (by simp [keeps_id, htrigger, keeps_canonicalStep.eachItem, hmetadata])
  exact h.again v

/-! ## The stored form of what was read -/

theorem optionalField_some {α : Type} (name : String) (write : α → Value) (x : α) :
    optionalField name write (some x) = [(name, write x)] := rfl

theorem optionalField_map {α : Type} {read : Value → α} {write : α → Value} {form : Value → Value}
    {x : Option Value} (name : String) (h : ∀ v, x = some v → write (read v) = form v) :
    optionalField name write (x.map read) = optionalField name form x := by
  cases x with
  | none => rfl
  | some v => simp [optionalField, h v rfl]

theorem record_readFields {v : Value} (h : IsSettings v) : record (readFields v) = v := by
  obtain ⟨entries, rfl, hkeys⟩ := h
  exact (record_fields entries).trans (congrArg Value.map (List.filter_eq_self.2 hkeys))

theorem texts_readTexts {v : Value}
    (h : ∃ items, v = .list items ∧ ∀ item ∈ items, ∃ s, item = .str s) :
    texts (readTexts v) = v := by
  obtain ⟨items, rfl, hitems⟩ := h
  have hsame : ∀ item ∈ items, Value.str (textOf item) = item := by
    intro item hitem
    obtain ⟨s, rfl⟩ := hitems item hitem
    rfl
  rw [texts, readTexts, itemsOf, List.map_map]
  exact congrArg Value.list ((List.map_congr_left hsame).trans (List.map_id items))

theorem field?_of_settings {entries : Entries} {name : String}
    (h : ∃ v, entries.get? name = some v ∧ IsSettings v) :
    field? entries name = some (.record (readFields (get (.map entries) name))) := by
  obtain ⟨v, hv, hs⟩ := h
  rw [get_map hv, record_readFields hs]
  refine field?_of_get? hv ?_
  obtain ⟨es, rfl, -⟩ := hs
  exact Value.noConfusion

theorem field?_of_text {entries : Entries} {name s : String}
    (h : entries.get? name = some (.str s)) :
    field? entries name = some (.str (textOf (get (.map entries) name))) := by
  rw [get_map h]
  exact field?_of_get? h (by simp)

theorem field?_of_number {entries : Entries} {name : String}
    (h : ∃ v, entries.get? name = some v ∧ IsNumber v) :
    field? entries name = some (.num (numberOf (get (.map entries) name))) := by
  obtain ⟨_, hv, n, rfl, -⟩ := h
  rw [get_map hv]
  exact field?_of_get? hv (by simp)

section
variable {entries : Entries}

theorem toValue_readTrigger (h : IsTrigger entries) :
    (readTrigger (.map entries)).toValue = canonicalTrigger (.map entries) := by
  obtain ⟨⟨kind, hkind⟩, hconfig⟩ := h
  have hword : TriggerKind.ofWord? kind.word = some kind := TriggerKind.ofWord?_eq_some.2 rfl
  have htype := field?_of_text hkind
  rw [get_map hkind, textOf] at htype
  simp only [canonicalTrigger, onlyFields, List.flatMap_cons, List.flatMap_nil, htype,
    field?_of_settings hconfig, optionalField_some, readTrigger, Trigger.toValue, get_map hkind,
    textOf, hword, Option.getD_some, id, List.append_nil, List.singleton_append]

theorem toValue_readPosition (h : IsPosition entries) :
    (readPosition (.map entries)).toValue = canonicalPosition (.map entries) := by
  simp only [canonicalPosition, onlyFields, List.flatMap_cons, List.flatMap_nil,
    field?_of_number h.x, field?_of_number h.y, optionalField_some, readPosition,
    Position.toValue, id, List.append_nil, List.singleton_append]

theorem toValue_readStep (h : IsStep entries) :
    (readStep (.map entries)).toValue = canonicalStep (.map entries) := by
  obtain ⟨⟨s, hid, -⟩, ⟨n, hname, -⟩, ⟨t, htype, -⟩, hconfig, hdeps, hpos⟩ := h
  have hdeps' : ∀ v, field? entries "depends_on" = some v → texts (readTexts v) = id v := by
    intro v hv
    obtain ⟨items, rfl, hitems⟩ := hdeps v hv
    exact texts_readTexts ⟨items, rfl, fun item hi => (hitems item hi).imp fun _ h => h.1⟩
  have hpos' : ∀ v, field? entries "position" = some v →
      (readPosition v).toValue = canonicalPosition v := by
    intro v hv
    obtain ⟨es, rfl, hes⟩ := hpos v hv
    exact toValue_readPosition hes
  simp only [canonicalStep, onlyFields, List.flatMap_cons, List.flatMap_nil, field?_of_text hid,
    field?_of_text hname, field?_of_text htype, field?_of_settings hconfig,
    ← optionalField_map "depends_on" hdeps', ← optionalField_map "position" hpos', readStep,
    Step.toValue, entriesOf, optionalField_some, id, List.append_nil, List.cons_append,
    List.nil_append]

theorem toValue_readMetadata (h : IsMetadata entries) :
    (readMetadata (.map entries)).toValue = canonicalMetadata (.map entries) := by
  have hdescription : ∀ v, field? entries "description" = some v → Value.str (textOf v) = id v := by
    intro v hv
    obtain ⟨s, rfl⟩ := h.description v hv
    rfl
  have htags : ∀ v, field? entries "tags" = some v → texts (readTexts v) = id v := fun v hv =>
    texts_readTexts (h.tags v hv)
  simp only [canonicalMetadata, onlyFields, List.flatMap_cons, List.flatMap_nil,
    ← optionalField_map "description" hdescription, ← optionalField_map "tags" htags, readMetadata,
    Metadata.toValue, entriesOf, List.append_nil]

end

theorem toValue_read {v : Value} (h : issues v = []) : (read v).toValue = canonical v := by
  obtain ⟨entries, rfl, ⟨s, hversion⟩, ⟨es, htrigger, hes⟩, ⟨items, hsteps, hitems⟩, hmetadata⟩ :=
    issues_eq_nil.1 h
  have hmetadata' : ∀ v, field? entries "metadata" = some v →
      (readMetadata v).toValue = canonicalMetadata v := by
    intro v hv
    obtain ⟨es, rfl, hes⟩ := hmetadata v hv
    exact toValue_readMetadata hes
  have hitems' : ∀ item ∈ items, (readStep item).toValue = canonicalStep item := by
    intro item hitem
    obtain ⟨es, rfl, hes⟩ := hitems item hitem
    exact toValue_readStep hes
  have hsteps' : field? entries "steps" = some (.list items) := field?_of_get? hsteps (by simp)
  have htrigger' : field? entries "trigger" = some (.map es) := field?_of_get? htrigger (by simp)
  simp only [canonical, onlyFields, List.flatMap_cons, List.flatMap_nil, field?_of_text hversion,
    htrigger', hsteps', ← optionalField_map "metadata" hmetadata', eachItem,
    ← List.map_congr_left hitems', ← toValue_readTrigger hes, read, Workflow.toValue,
    get_map htrigger, get_map hsteps, itemsOf, entriesOf, optionalField_some, id, List.map_map,
    Function.comp_def, List.append_nil, List.cons_append, List.nil_append]

end StepGraph.Schema
