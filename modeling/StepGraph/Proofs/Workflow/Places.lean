import Mathlib.Data.List.Nodup
import StepGraph.Proofs.Workflow.Schema

/-!
# Where a value breaks the format

`Schema.Broken` says, apart from any check, at which paths a value breaks the format of a workflow:
a field is missing, or what stands there is of the wrong kind. Each check reports exactly the places
below the path that it is given (`Reports`, `ReportsIn`), and a mapping's fields are checked under
different names, so their reports do not meet (`ReportsIn.append`). There is one `reports_` lemma for
each check.
-/

set_option autoImplicit false

namespace StepGraph.Schema

open Value

/-! ## Broken places -/

/-- The place of a value that is not as it should be is the value itself. -/
def Failing (P : Value → Prop) (v : Value) (path : Path) : Prop :=
  path = [] ∧ ¬ P v

/-- A field that must be there. -/
def Required (B : Value → Path → Prop) (name : String) (entries : Entries) (path : Path) : Prop :=
  (entries.get? name = none ∧ path = [.name name]) ∨
    ∃ v rest, entries.get? name = some v ∧ B v rest ∧ path = .name name :: rest

/-- A field that may be missing or null. -/
def Optional (B : Value → Path → Prop) (name : String) (entries : Entries) (path : Path) : Prop :=
  ∃ v rest, field? entries name = some v ∧ B v rest ∧ path = .name name :: rest

def Items (B : Value → Path → Prop) (v : Value) (path : Path) : Prop :=
  Failing (fun v => ∃ items, v = .list items) v path ∨
    ∃ items i x rest, v = .list items ∧ items[i]? = some x ∧ B x rest ∧
      path = .index (i : Nat) :: rest

def Mapping (B : Entries → Path → Prop) (v : Value) (path : Path) : Prop :=
  Failing (fun v => ∃ entries, v = .map entries) v path ∨ ∃ entries, v = .map entries ∧ B entries path

def IsText (v : Value) : Prop :=
  ∃ s, v = .str s

def IsNonempty (v : Value) : Prop :=
  ∃ s, v = .str s ∧ s ≠ ""

def IsId (v : Value) : Prop :=
  ∃ s, v = .str s ∧ isStepId s = true

def IsTriggerKind (v : Value) : Prop :=
  ∃ kind, v = .str (TriggerKind.word kind)

def BrokenSettings : Value → Path → Prop :=
  Mapping fun entries path =>
    ∃ entry ∈ entries, entry.1.isString = false ∧ path = [.name entry.1.label]

def BrokenTrigger : Value → Path → Prop :=
  Mapping fun entries path =>
    Required (Failing IsTriggerKind) "type" entries path ∨
      Required BrokenSettings "config" entries path

def BrokenPosition : Value → Path → Prop :=
  Mapping fun entries path =>
    Required (Failing IsNumber) "x" entries path ∨ Required (Failing IsNumber) "y" entries path

def BrokenStep : Value → Path → Prop :=
  Mapping fun entries path =>
    ((((Required (Failing IsId) "id" entries path ∨
      Required (Failing IsNonempty) "name" entries path) ∨
      Required (Failing IsNonempty) "type" entries path) ∨
      Required BrokenSettings "config" entries path) ∨
      Optional (Items (Failing IsNonempty)) "depends_on" entries path) ∨
      Optional BrokenPosition "position" entries path

def BrokenMetadata : Value → Path → Prop :=
  Mapping fun entries path =>
    Optional (Failing IsText) "description" entries path ∨
      Optional (Items (Failing IsText)) "tags" entries path

/-- The paths at which a value breaks the format of a workflow. -/
def Broken : Value → Path → Prop :=
  Mapping fun entries path =>
    ((Required (Failing IsText) "version" entries path ∨
      Required BrokenTrigger "trigger" entries path) ∨
      Required (Items BrokenStep) "steps" entries path) ∨
      Optional BrokenMetadata "metadata" entries path

/-! ## What a check reports -/

/-- Of two issues at one path both are about keys that are no texts. -/
def Once (found : List Issue) : Prop :=
  found.Pairwise fun a b => a.path = b.path → a.breach = .keyNotText ∧ b.breach = .keyNotText

/-- A check reports the broken places in what it looks at, under the path that it is given. -/
structure Reports {α : Type} (check : Path → α → List Issue) (B : α → Path → Prop) : Prop where
  below : ∀ base x, ∀ i ∈ check base x, ∃ rest, i.path = base ++ rest
  places : ∀ base x path, (∃ i ∈ check base x, i.path = base ++ path) ↔ B x path
  once : ∀ base x, Once (check base x)

/-- A check of fields reports under their names. -/
structure ReportsIn (names : List String) (check : Path → Entries → List Issue)
    (B : Entries → Path → Prop) : Prop extends Reports check B where
  named : ∀ base entries, ∀ i ∈ check base entries, ∃ name ∈ names, ∃ rest,
    i.path = base ++ .name name :: rest

section
variable {check : Path → Value → List Issue} {B : Value → Path → Prop}

theorem Reports.of_single {P : Value → Prop} (hn : ∀ base v, check base v = [] ↔ P v)
    (hs : ∀ base v, check base v = [] ∨ ∃ b, check base v = [⟨base, b⟩]) :
    Reports check (Failing P) where
  below base v i hi := by
    rcases hs base v with h | ⟨b, h⟩
    · rw [h] at hi; cases hi
    · rw [h] at hi
      obtain rfl := List.mem_singleton.1 hi
      exact ⟨[], by simp⟩
  places base v path := by
    rw [Failing, ← hn base]
    rcases hs base v with h | ⟨b, h⟩ <;> simp [h, eq_comm]
  once base v := by
    rcases hs base v with h | ⟨b, h⟩ <;> simp [Once, h]

theorem Reports.required (h : Reports check B) (name : String) :
    ReportsIn [name] (fun base entries => checkRequired entries name base check)
      (Required B name) := by
  have hnamed : ∀ base entries, ∀ i ∈ checkRequired entries name base check,
      ∃ rest, i.path = base ++ .name name :: rest := by
    intro base entries i hi
    unfold checkRequired at hi
    split at hi
    · obtain rfl := List.mem_singleton.1 hi
      exact ⟨[], rfl⟩
    · obtain ⟨rest, hrest⟩ := h.below _ _ i hi
      exact ⟨rest, by rw [hrest, List.append_assoc]; rfl⟩
  refine ⟨⟨fun base entries i hi => ?_, fun base entries path => ?_, fun base entries => ?_⟩,
    fun base entries i hi => ⟨name, List.mem_singleton_self name, hnamed base entries i hi⟩⟩
  · obtain ⟨rest, hrest⟩ := hnamed base entries i hi
    exact ⟨_, hrest⟩
  · unfold checkRequired Required
    split
    · rename_i hg
      simp [hg, eq_comm]
    · rename_i v hg
      constructor
      · rintro ⟨i, hi, hp⟩
        obtain ⟨rest, hrest⟩ := h.below _ _ i hi
        have hpath : path = .name name :: rest := by
          rw [hrest, List.append_assoc] at hp
          exact (List.append_cancel_left hp).symm
        exact .inr ⟨v, rest, hg, (h.places _ v rest).1 ⟨i, hi, hrest⟩, hpath⟩
      · rintro (⟨hno, -⟩ | ⟨w, rest, hw, hb, rfl⟩)
        · rw [hg] at hno; cases hno
        · obtain rfl : v = w := Option.some.inj (hg.symm.trans hw)
          obtain ⟨i, hi, hp⟩ := (h.places (base ++ [.name name]) v rest).2 hb
          exact ⟨i, hi, by rw [hp, List.append_assoc]; rfl⟩
  · unfold checkRequired
    split
    · exact List.pairwise_singleton _ _
    · exact h.once _ _

theorem Reports.optional (h : Reports check B) (name : String) :
    ReportsIn [name] (fun base entries => checkOptional entries name base check)
      (Optional B name) := by
  have hnamed : ∀ base entries, ∀ i ∈ checkOptional entries name base check,
      ∃ rest, i.path = base ++ .name name :: rest := by
    intro base entries i hi
    unfold checkOptional at hi
    split at hi
    · cases hi
    · obtain ⟨rest, hrest⟩ := h.below _ _ i hi
      exact ⟨rest, by rw [hrest, List.append_assoc]; rfl⟩
  refine ⟨⟨fun base entries i hi => ?_, fun base entries path => ?_, fun base entries => ?_⟩,
    fun base entries i hi => ⟨name, List.mem_singleton_self name, hnamed base entries i hi⟩⟩
  · obtain ⟨rest, hrest⟩ := hnamed base entries i hi
    exact ⟨_, hrest⟩
  · unfold checkOptional Optional
    split
    · rename_i hf
      simp [hf]
    · rename_i v hf
      constructor
      · rintro ⟨i, hi, hp⟩
        obtain ⟨rest, hrest⟩ := h.below _ _ i hi
        refine ⟨v, rest, hf, (h.places _ v rest).1 ⟨i, hi, hrest⟩, ?_⟩
        rw [hrest, List.append_assoc] at hp
        exact (List.append_cancel_left hp).symm
      · rintro ⟨w, rest, hw, hb, rfl⟩
        obtain rfl : v = w := Option.some.inj (hf.symm.trans hw)
        obtain ⟨i, hi, hp⟩ := (h.places (base ++ [.name name]) v rest).2 hb
        exact ⟨i, hi, by rw [hp, List.append_assoc]; rfl⟩
  · unfold checkOptional
    split
    · exact List.Pairwise.nil
    · exact h.once _ _

theorem Reports.items (h : Reports check B) : Reports (checkList check) (Items B) where
  below base v i hi := by
    unfold checkList at hi
    split at hi
    · obtain ⟨⟨x, k⟩, -, hi⟩ := List.mem_flatMap.1 hi
      obtain ⟨rest, hrest⟩ := h.below _ _ i hi
      exact ⟨.index (k : Nat) :: rest, by rw [hrest, List.append_assoc]; rfl⟩
    · obtain rfl := List.mem_singleton.1 hi
      exact ⟨[], (List.append_nil base).symm⟩
  places base v path := by
    unfold checkList Items
    split
    · rename_i items
      constructor
      · rintro ⟨i, hi, hp⟩
        obtain ⟨⟨x, k⟩, hmem, hi⟩ := List.mem_flatMap.1 hi
        obtain ⟨rest, hrest⟩ := h.below _ _ i hi
        refine .inr ⟨items, k, x, rest, rfl, List.mem_zipIdx_iff_getElem?.1 hmem,
          (h.places _ x rest).1 ⟨i, hi, hrest⟩, ?_⟩
        rw [hrest, List.append_assoc] at hp
        exact (List.append_cancel_left hp).symm
      · rintro (⟨-, hno⟩ | ⟨items', k, x, rest, he, hx, hb, rfl⟩)
        · exact absurd ⟨items, rfl⟩ hno
        · cases he
          obtain ⟨i, hi, hp⟩ := (h.places (base ++ [.index (k : Nat)]) x rest).2 hb
          refine ⟨i, List.mem_flatMap.2 ⟨(x, k), List.mem_zipIdx_iff_getElem?.2 hx, hi⟩, ?_⟩
          rw [hp, List.append_assoc]; rfl
    · rename_i hno
      constructor
      · rintro ⟨i, hi, hp⟩
        obtain rfl := List.mem_singleton.1 hi
        exact .inl ⟨(List.append_right_eq_self.1 hp.symm), fun ⟨items, he⟩ => hno items he⟩
      · rintro (⟨rfl, -⟩ | ⟨items, k, x, rest, he, -⟩)
        · exact ⟨_, List.mem_singleton_self _, (List.append_nil base).symm⟩
        · exact absurd he (hno items)
  once base v := by
    unfold checkList
    split
    · rename_i items
      refine List.pairwise_flatMap.2 ⟨fun _ _ => h.once _ _, ?_⟩
      have hnd : (items.zipIdx.map Prod.snd).Nodup := by
        rw [List.zipIdx_map_snd]
        exact List.nodup_range'
      refine (List.pairwise_map.1 hnd).imp fun hne i hi j hj hij => ?_
      obtain ⟨p, hp⟩ := h.below _ _ i hi
      obtain ⟨q, hq⟩ := h.below _ _ j hj
      rw [hp, hq, List.append_assoc, List.append_assoc] at hij
      have hparts := List.append_cancel_left hij
      simp only [List.singleton_append, List.cons.injEq, PathPart.index.injEq] at hparts
      exact absurd (Int.ofNat.inj hparts.1) hne
    · exact List.pairwise_singleton _ _

end

section
variable {names more : List String} {f g : Path → Entries → List Issue}
  {A B : Entries → Path → Prop}

/-- Fields of different names are reported at different paths. -/
theorem ReportsIn.append (hf : ReportsIn names f A) (hg : ReportsIn more g B)
    (hd : ∀ name ∈ names, name ∉ more) :
    ReportsIn (names ++ more) (fun base entries => f base entries ++ g base entries)
      (fun entries path => A entries path ∨ B entries path) where
  below base entries i hi := by
    rcases List.mem_append.1 hi with hi | hi
    · exact hf.below _ _ i hi
    · exact hg.below _ _ i hi
  named base entries i hi := by
    rcases List.mem_append.1 hi with hi | hi
    · obtain ⟨name, hn, h⟩ := hf.named _ _ i hi
      exact ⟨name, List.mem_append_left _ hn, h⟩
    · obtain ⟨name, hn, h⟩ := hg.named _ _ i hi
      exact ⟨name, List.mem_append_right _ hn, h⟩
  places base entries path := by
    rw [← hf.places base, ← hg.places base]
    simp only [List.mem_append, or_and_right, exists_or]
  once base entries := by
    refine List.pairwise_append.2 ⟨hf.once _ _, hg.once _ _, fun i hi j hj hij => ?_⟩
    obtain ⟨n, hn, p, hp⟩ := hf.named _ _ i hi
    obtain ⟨m, hm, q, hq⟩ := hg.named _ _ j hj
    rw [hp, hq] at hij
    have hparts := List.append_cancel_left hij
    simp only [List.cons.injEq, PathPart.name.injEq] at hparts
    exact absurd (hparts.1 ▸ hm) (hd n hn)

theorem Reports.mapping (hf : Reports f A) {check : Path → Value → List Issue}
    (hmap : ∀ base entries, check base (.map entries) = f base entries)
    (hother : ∀ base v, (∀ entries, v ≠ .map entries) →
      check base v = [.mistyped base "object" v]) :
    Reports check (Mapping A) := by
  have hcases : ∀ v : Value, (∃ entries, v = .map entries) ∨ ∀ entries, v ≠ .map entries :=
    fun v => by rw [← not_exists]; exact em _
  refine ⟨fun base v i hi => ?_, fun base v path => ?_, fun base v => ?_⟩
  · rcases hcases v with ⟨entries, rfl⟩ | hno
    · rw [hmap] at hi
      exact hf.below _ _ i hi
    · rw [hother base v hno] at hi
      obtain rfl := List.mem_singleton.1 hi
      exact ⟨[], (List.append_nil base).symm⟩
  · unfold Mapping Failing
    rcases hcases v with ⟨entries, rfl⟩ | hno
    · rw [hmap, hf.places]
      simp
    · rw [hother base v hno]
      have hno' : ¬ ∃ entries, v = .map entries := fun ⟨entries, h⟩ => hno entries h
      have hnone : ¬ ∃ entries, v = .map entries ∧ A entries path :=
        fun ⟨entries, h, _⟩ => hno entries h
      simp only [hno', hnone, not_false_eq_true, and_true, or_false, List.mem_singleton,
        exists_eq_left, Issue.mistyped]
      exact ⟨fun h => List.append_right_eq_self.1 h.symm, fun h => by simp [h]⟩
  · rcases hcases v with ⟨entries, rfl⟩ | hno
    · rw [hmap]; exact hf.once _ _
    · rw [hother base v hno]; exact List.pairwise_singleton _ _

end

/-! ## The checks -/

theorem reports_text : Reports checkText (Failing IsText) :=
  .of_single (fun _ _ => checkText_eq_nil) fun base v => by
    unfold checkText
    split
    · exact .inl rfl
    · exact .inr ⟨_, rfl⟩

theorem reports_nonempty (what : String) : Reports (checkNonempty what) (Failing IsNonempty) :=
  .of_single (fun _ _ => checkNonempty_eq_nil) fun base v => by
    unfold checkNonempty
    split
    · split
      · exact .inr ⟨_, rfl⟩
      · exact .inl rfl
    · exact .inr ⟨_, rfl⟩

theorem reports_id : Reports checkId (Failing IsId) :=
  .of_single (fun _ _ => checkId_eq_nil) fun base v => by
    unfold checkId checkNonempty
    split
    · rename_i s
      by_cases hs : s = ""
      · exact .inr ⟨.emptyText "Step ID", by simp [hs]⟩
      · by_cases hid : isStepId s = true
        · exact .inl (by simp [hs, hid])
        · exact .inr ⟨.malformedStepId, by simp [hs, hid]⟩
    · exact .inr ⟨.expected "string" v.typeName, by simp [Issue.mistyped]⟩

theorem reports_triggerKind : Reports checkTriggerKind (Failing IsTriggerKind) :=
  .of_single (fun _ _ => checkTriggerKind_eq_nil) fun _ v =>
    (ite_eq_or_eq _ _ _).imp_right fun h => ⟨.unknownTrigger v.spelled, h⟩

theorem reports_coordinate : Reports checkCoordinate (Failing IsNumber) :=
  .of_single (fun _ _ => checkCoordinate_eq_nil) fun base v => by
    unfold checkCoordinate
    split
    · exact .inl rfl
    · split
      · exact .inl rfl
      · exact .inr ⟨_, rfl⟩
    · exact .inr ⟨_, rfl⟩

theorem reports_keys : Reports
    (fun base entries => (entries.filter (!·.1.isString)).map fun entry =>
      ⟨base ++ [.name entry.1.label], .keyNotText⟩)
    fun (entries : Entries) path =>
      ∃ entry ∈ entries, entry.1.isString = false ∧ path = [.name entry.1.label] where
  below base entries i hi := by
    obtain ⟨entry, -, rfl⟩ := List.mem_map.1 hi
    exact ⟨_, rfl⟩
  places base entries path := by
    constructor
    · rintro ⟨i, hi, hp⟩
      obtain ⟨entry, hentry, rfl⟩ := List.mem_map.1 hi
      obtain ⟨hmem, hkey⟩ := List.mem_filter.1 hentry
      exact ⟨entry, hmem, by simpa using hkey, (List.append_cancel_left hp).symm⟩
    · rintro ⟨entry, hmem, hkey, rfl⟩
      refine ⟨_, List.mem_map_of_mem (List.mem_filter.2 ⟨hmem, ?_⟩), rfl⟩
      rw [hkey]; rfl
  once base entries :=
    List.pairwise_map.2 (List.pairwise_of_forall fun _ _ _ => ⟨rfl, rfl⟩)

theorem reports_settings : Reports checkSettings BrokenSettings :=
  reports_keys.mapping (fun _ _ => rfl) fun base v hno => by
    unfold checkSettings
    split
    · exact absurd rfl (hno _)
    · rfl

theorem reports_trigger : Reports checkTrigger BrokenTrigger :=
  ((reports_triggerKind.required "type").append (reports_settings.required "config")
    (by decide)).mapping (fun _ _ => rfl) fun base v hno => by
    unfold checkTrigger
    split
    · exact absurd rfl (hno _)
    · rfl

theorem reports_position : Reports checkPosition BrokenPosition :=
  ((reports_coordinate.required "x").append (reports_coordinate.required "y")
    (by decide)).mapping (fun _ _ => rfl) fun base v hno => by
    unfold checkPosition
    split
    · exact absurd rfl (hno _)
    · rfl

theorem reports_step : Reports checkStep BrokenStep :=
  ((((((reports_id.required "id").append ((reports_nonempty _).required "name")
    (by decide)).append ((reports_nonempty _).required "type")
    (by decide)).append (reports_settings.required "config")
    (by decide)).append ((reports_nonempty _).items.optional "depends_on")
    (by decide)).append (reports_position.optional "position")
    (by decide)).mapping (fun _ _ => rfl) fun base v hno => by
    unfold checkStep
    split
    · exact absurd rfl (hno _)
    · rfl

theorem reports_metadata : Reports checkMetadata BrokenMetadata :=
  ((reports_text.optional "description").append (reports_text.items.optional "tags")
    (by decide)).mapping (fun _ _ => rfl) fun base v hno => by
    unfold checkMetadata
    split
    · exact absurd rfl (hno _)
    · rfl

end StepGraph.Schema
