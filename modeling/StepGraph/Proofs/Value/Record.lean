import StepGraph.Workflow.Schema

/-!
# Mappings with text keys

Looking a name up in a `Value.record` is looking it up among the fields (`get?_entries`,
`Schema.get_record`), and the settings read from a record are its fields (`fields_entries`). A
field that is optional is found exactly if it is set (`lookup_optionalField`, `field?_entries`).
-/

set_option autoImplicit false

namespace StepGraph

theorem lookup_cons_if {κ α : Type} [DecidableEq κ] (key k : κ) (x : α) (l : List (κ × α)) :
    ((k, x) :: l).lookup key = if key = k then some x else l.lookup key := by
  rw [List.lookup_cons]
  cases h : key == k <;> simp_all

/-- The entries of a record. -/
def Fields.entries (fields : Fields) : Entries :=
  fields.map fun field => (.str field.1, field.2)

theorem Scalar.sameKey_str (a b : String) : Scalar.sameKey (.str a) (.str b) = (b == a) := by
  by_cases h : a = b
  · simp [sameKey, asKey, h]
  · rw [beq_eq_false_iff_ne.2 (Ne.symm h)]
    simpa [sameKey, asKey] using h

namespace Value

theorem get?_entries (fields : Fields) (name : String) :
    Entries.get? fields.entries name = fields.lookup name := by
  induction fields with
  | nil => rfl
  | cons field fields ih =>
    rw [lookup_cons_if, ← ih]
    simp only [Fields.entries, List.map_cons, Entries.get?, Entries.find?, Scalar.sameKey_str,
      beq_iff_eq]

theorem fields_entries (fields : Fields) : Entries.fields fields.entries = fields := by
  induction fields with
  | nil => rfl
  | cons field fields ih =>
    simp only [Fields.entries, Entries.fields, List.map_cons, List.filterMap_cons] at ih ⊢
    rw [ih]

/-- The entries of a mapping that have a text key. -/
theorem record_fields (entries : Entries) :
    record entries.fields = .map (entries.filter (·.1.isString)) := by
  refine congrArg Value.map ?_
  change entries.fields.entries = _
  induction entries with
  | nil => rfl
  | cons entry entries ih =>
    obtain ⟨k, v⟩ := entry
    cases k with
    | str name => exact congrArg ((.str name, v) :: ·) ih
    | _ => exact ih

theorem isString_of_mem_entries {fields : Fields} {entry : Scalar × Value}
    (h : entry ∈ fields.entries) : entry.1.isString = true := by
  obtain ⟨field, -, rfl⟩ := List.mem_map.1 h
  rfl

/-! ## Optional fields -/

section
variable {α : Type} (write : α → Value)

theorem lookup_optionalField (name key : String) (x : Option α) :
    (optionalField name write x).lookup key = if key = name then x.map write else none := by
  cases x with
  | none => simp [optionalField]
  | some x =>
    rw [optionalField, lookup_cons_if]; rfl

theorem field?_entries {fields : Fields} {name : String} {x : Option α}
    (h : fields.lookup name = x.map write) (hw : ∀ x, write x ≠ .null) :
    field? fields.entries name = x.map write := by
  rw [field?, get?_entries, h]
  cases x with
  | none => rfl
  | some x =>
    rw [Option.map_some]
    split
    · rename_i hn
      exact absurd (Option.some.inj hn) (hw x)
    · rfl

end

end Value

namespace Schema

theorem get_entries (fields : Fields) (name : String) :
    get (.map fields.entries) name = (fields.lookup name).getD .null := by
  rw [get, entriesOf, Value.get?_entries]

theorem get_record (fields : Fields) (name : String) :
    get (.record fields) name = (fields.lookup name).getD .null :=
  get_entries fields name

theorem readFields_record (fields : Fields) : readFields (.record fields) = fields :=
  Value.fields_entries fields

end Schema

end StepGraph
