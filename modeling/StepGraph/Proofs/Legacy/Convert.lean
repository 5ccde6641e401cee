import StepGraph.Proofs.Legacy.Preorder
import StepGraph.Proofs.Workflow.Stored

/-!
# Converted documents

The steps of a stage are those of its blocks (`StageSteps`), and stages follow each other
(`Flattened`): the first block of a stage depends on the last step before the stage.

* `stage_ok`, `stages_ok`: what a conversion without issues makes of one stage and of all.
* `convert_ok`: a converted document holds the steps of all stages, or the placeholder.
* `convert_preorder`: the same, stage by stage.
-/

set_option autoImplicit false

namespace StepGraph.Legacy

open Value

/-! ## Stages -/

/-- The blocks of a stage that are in no other block. -/
def blocksOf (stage : Value) : List Value :=
  Schema.itemsOf (Schema.get stage "blocks")

/-- The name of a stage, or the number that stands for it. -/
def stageName (index : Nat) (stage : Value) : Value :=
  orElse (Schema.get stage "name") (.str ("stage_" ++ toString (index + 1)))

/-- What the ids of a stage's steps start with. -/
def stemOf (index : Nat) (stage : Value) : String :=
  sanitized (stageName index stage).label

theorem idStem_eq_ok {name : Value} {stem : String} :
    idStem name = .ok stem ↔ name.isWritable = true ∧ stem = sanitized name.label := by
  unfold idStem Value.assertWritable
  cases hw : name.isWritable with
  | true => exact ⟨fun h => ⟨rfl, (Except.ok.inj h).symm⟩, fun h => by rw [h.2]; rfl⟩
  | false => exact ⟨fun h => (by cases h), fun h => (by cases h.1)⟩

def forestOf (stage : Value) : List Placed :=
  (blocksOf stage).map (⟨·, none⟩)

/-- One step for each block of a stage, in pre-order. -/
def StageSteps (index : Nat) (previous : Option String) (stage : Value) (drafts : List Draft) :
    Prop :=
  List.Forall₂ (fun p d => IsStep (stemOf index stage) previous p.2 p.1 d)
    ((preorder 0 (forestOf stage)).zipIdx 1) drafts

theorem orElse_list_itemsOf {v : Value} {blocks : List Value}
    (h : orElse v (.list []) = .list blocks) : Schema.itemsOf v = blocks := by
  unfold orElse at h
  split at h
  · rw [h]; rfl
  · rename_i hv
    cases h
    cases v with
    | list items => simpa [isGiven, Schema.itemsOf] using hv
    | scalar s => rfl
    | map entries => rfl

section
variable {index : Nat} {previous : Option String} {v : Value} {drafts : List Draft}

theorem stage_ok (h : stage index v = .ok (drafts, [])) : StageSteps index none v drafts := by
  unfold stage at h
  split at h
  · cases h
    simp [StageSteps, forestOf, blocksOf, Schema.get, Schema.entriesOf, Entries.get?,
      Entries.find?, Schema.itemsOf, preorder]
  · rename_i entries
    dsimp only at h
    split at h
    · rename_i blocks hb
      have hblocks : blocksOf (.map entries) = blocks := orElse_list_itemsOf hb
      obtain ⟨stem, hstem, h⟩ := Attempt.bind_eq_ok.1 h
      obtain ⟨-, rfl⟩ := idStem_eq_ok.1 hstem
      have hsize : forestSize (blocks.map (⟨·, none⟩)) < sizeItems blocks + 1 := by
        simp [forestSize, Function.comp_def]
      have hs := visitBlocks_ok hsize (stand_pendingItems _ blocks none _) h
      rwa [← hblocks] at hs
    · cases h
  · cases h

end

/-! ## One stage after another -/

theorem IsStep.after {stem : String} {number : Nat} {p : Placed} {d : Draft}
    (previous : Option String) (hn : number ≠ 1) (h : IsStep stem none number p d) :
    IsStep stem previous number p d := by
  refine ⟨h.id, ?_, h.block⟩
  rw [h.dependsOn]
  cases p.parent with
  | some parent => rfl
  | none => rw [needs, needs, if_neg hn, if_neg hn]

theorem forall₂_isStep_after {stem : String} {forest : List Placed} {number : Nat}
    {drafts : List Draft} (previous : Option String) (hn : 1 < number)
    (h : List.Forall₂ (fun p d => IsStep stem none p.2 p.1 d) (forest.zipIdx number) drafts) :
    List.Forall₂ (fun p d => IsStep stem previous p.2 p.1 d) (forest.zipIdx number) drafts := by
  induction forest generalizing number drafts with
  | nil =>
    cases h
    exact .nil
  | cons p forest ih =>
    rw [List.zipIdx_cons] at h ⊢
    obtain ⟨d, ds, hd, hds, rfl⟩ := List.forall₂_cons_left_iff.1 h
    exact .cons (hd.after previous (Nat.ne_of_gt hn)) (ih (Nat.lt_succ_of_lt hn) hds)

section
variable {index : Nat} {v : Value} {drafts : List Draft}

/-- Chaining makes the first step of a stage depend on the step before the stage. -/
theorem StageSteps.chain (previous : Option String) (h : StageSteps index none v drafts) :
    StageSteps index previous v (chain previous drafts) := by
  unfold StageSteps at h ⊢
  cases hb : blocksOf v with
  | nil =>
    rw [forestOf, hb, List.map_nil, preorder] at h ⊢
    cases h
    exact .nil
  | cons block blocks =>
    rw [forestOf, hb, List.map_cons, preorder_cons, List.zipIdx_cons] at h ⊢
    obtain ⟨first, rest, hfirst, hrest, rfl⟩ := List.forall₂_cons_left_iff.1 h
    have hrest' := forall₂_isStep_after previous (by decide) hrest
    cases previous with
    | none => exact .cons hfirst hrest'
    | some id =>
      refine .cons ⟨hfirst.id, ?_, hfirst.block⟩ hrest'
      -- the first block of a stage is inside no other, so its step depended on nothing
      have hnone : first.dependsOn = none := hfirst.dependsOn
      simp [hnone, needs]

theorem map_id_chain (previous : Option String) (drafts : List Draft) :
    (chain previous drafts).map Draft.id = drafts.map Draft.id := by
  cases drafts with
  | nil => rfl
  | cons first rest => cases previous <;> rfl

end

/-- The id of the last of some steps. -/
def lastId (drafts : List Draft) : Option String :=
  drafts.getLast?.map Draft.id

theorem lastId_eq (drafts : List Draft) : lastId drafts = (drafts.map Draft.id).getLast? := by
  rw [lastId, List.getLast?_map]

/-- The steps of each stage from `index` on, after a step `previous`. -/
inductive Flattened : Nat → Option String → List Value → List (List Draft) → Prop
  | nil {index : Nat} {previous : Option String} : Flattened index previous [] []
  | cons {index : Nat} {previous : Option String} {stage : Value} {rest : List Value}
      {part : List Draft} {parts : List (List Draft)} (first : StageSteps index previous stage part)
      (others : Flattened (index + 1) ((lastId part).or previous) rest parts) :
      Flattened index previous (stage :: rest) (part :: parts)

theorem stages_ok {index : Nat} {previous : Option String} {stageList : List Value}
    {drafts : List Draft} (h : stages index previous stageList = .ok (drafts, [])) :
    ∃ parts, parts.flatten = drafts ∧ Flattened index previous stageList parts := by
  induction stageList generalizing index previous drafts with
  | nil => cases h; exact ⟨[], rfl, .nil⟩
  | cons v rest ih =>
    simp only [stages, Attempt.bind_eq_ok] at h
    obtain ⟨⟨ds, is⟩, hstage, ⟨others, otherIssues⟩, hrest, h⟩ := h
    simp only [pure, Except.pure, Except.ok.injEq, Prod.mk.injEq] at h
    obtain ⟨rfl, his⟩ := h
    obtain ⟨rfl, rfl⟩ := List.append_eq_nil_iff.1 his
    obtain ⟨parts, rfl, hparts⟩ := ih hrest
    refine ⟨chain previous ds :: parts, rfl, .cons ((stage_ok hstage).chain previous) ?_⟩
    rwa [lastId_eq, map_id_chain, ← lastId_eq]

/-- Every stage comes after the last step of the stages before it. -/
theorem Flattened.getElem? {index : Nat} {previous : Option String} {stageList : List Value}
    {parts : List (List Draft)} (h : Flattened index previous stageList parts) :
    parts.length = stageList.length ∧ ∀ i stage part, stageList[i]? = some stage →
      parts[i]? = some part →
      StageSteps (index + i) ((lastId (parts.take i).flatten).or previous) stage part := by
  induction h with
  | nil => exact ⟨rfl, by simp⟩
  | @cons index previous stage rest part parts first others ih =>
    refine ⟨by simp [ih.1], fun i s d hs hd => ?_⟩
    cases i with
    | zero =>
      cases hs
      cases hd
      exact first
    | succ i =>
      have hi := ih.2 i s d (by simpa using hs) (by simpa using hd)
      have hlast : (lastId (List.take (i + 1) (part :: parts)).flatten).or previous =
          (lastId (parts.take i).flatten).or ((lastId part).or previous) := by
        rw [List.take_succ_cons, List.flatten_cons, lastId, List.getLast?_append, Option.map_or,
          Option.or_assoc]
        rfl
      rw [hlast]
      rwa [Nat.add_assoc, Nat.add_comm 1 i] at hi

theorem StageSteps.eq_nil_iff {index : Nat} {previous : Option String} {v : Value}
    {drafts : List Draft} (h : StageSteps index previous v drafts) :
    drafts = [] ↔ blocksOf v = [] := by
  have hlen := h.length_eq
  rw [List.length_zipIdx] at hlen
  rw [← List.length_eq_zero_iff, ← hlen, List.length_eq_zero_iff, preorder_eq_nil, forestOf,
    List.map_eq_nil_iff]

/-- There are steps unless no stage has blocks. -/
theorem Flattened.flatten_eq_nil_iff {index : Nat} {previous : Option String}
    {stageList : List Value} {parts : List (List Draft)}
    (h : Flattened index previous stageList parts) :
    parts.flatten = [] ↔ ∀ stage ∈ stageList, blocksOf stage = [] := by
  induction h with
  | nil => simp
  | cons first others ih =>
    rw [List.flatten_cons, List.append_eq_nil_iff, ih, first.eq_nil_iff, List.forall_mem_cons]

/-- The value that steps are converted to. -/
def converted (source : Source) (drafts : List Draft) : Value :=
  .record [
    ("version", .str "1.0"),
    ("trigger", .record [("type", .str (triggerKind source.type).word),
      ("config", orElse (source.params.getD .null) (.map []))]),
    ("steps", .list (drafts.map Draft.toValue))]

theorem convert_eq_ok {stageList : List Value} {source : Source} {v : Value} :
    convert stageList source = .ok v ↔ ∃ drafts, stages 0 none stageList = .ok (drafts, []) ∧
      v = converted source (if drafts.isEmpty then [placeholder] else drafts) := by
  simp only [convert, Attempt.bind_eq_ok]
  constructor
  · rintro ⟨⟨drafts, issues⟩, hs, h⟩
    split at h
    · rename_i hi
      obtain rfl := List.isEmpty_iff.1 hi
      cases h
      exact ⟨drafts, hs, rfl⟩
    · cases h
  · rintro ⟨drafts, hs, rfl⟩
    exact ⟨(drafts, []), hs, rfl⟩

/-- The steps of all stages, or the placeholder if there are none. -/
def written (parts : List (List Draft)) : List Draft :=
  if parts.flatten.isEmpty then [placeholder] else parts.flatten

theorem convert_ok {stageList : List Value} {source : Source} {v : Value}
    (h : convert stageList source = .ok v) :
    ∃ parts, Flattened 0 none stageList parts ∧ v = converted source (written parts) := by
  obtain ⟨drafts, hs, rfl⟩ := convert_eq_ok.1 h
  obtain ⟨parts, rfl, hparts⟩ := stages_ok hs
  exact ⟨parts, hparts, rfl⟩

theorem get_converted (source : Source) (drafts : List Draft) :
    Schema.get (converted source drafts) "steps" = .list (drafts.map Draft.toValue) := by
  rw [converted, Schema.get_record]
  simp [lookup_cons_if]

/-- A converted document holds one step for each block, stage by stage in pre-order. -/
theorem convert_preorder {stageList : List Value} {source : Source} {v : Value}
    (h : convert stageList source = .ok v) :
    ∃ parts : List (List Draft), parts.length = stageList.length ∧
      (∀ i stage part, stageList[i]? = some stage → parts[i]? = some part →
        StageSteps i (lastId (parts.take i).flatten) stage part) ∧
      Schema.get v "steps" = .list ((if ∀ stage ∈ stageList, blocksOf stage = [] then
        [placeholder] else parts.flatten).map Draft.toValue) := by
  obtain ⟨parts, hparts, rfl⟩ := convert_ok h
  refine ⟨parts, hparts.getElem?.1, fun i stage part hi hp => ?_, ?_⟩
  · simpa using hparts.getElem?.2 i stage part hi hp
  · rw [get_converted, written]
    by_cases hall : ∀ stage ∈ stageList, blocksOf stage = []
    · rw [if_pos hall, hparts.flatten_eq_nil_iff.2 hall]; rfl
    · rw [if_neg hall, if_neg (mt List.isEmpty_iff.1 (mt hparts.flatten_eq_nil_iff.1 hall))]

/-- A null stage, a stage with blocks inside blocks, an empty stage and one without a name. -/
def orders : List Value := [
  .null,
  .record [("name", .str "follow up!"), ("blocks", .list [
    .record [("type", .str "condition"), ("name", .str "Check"),
      ("else", .list [.record [("type", .str "table")]]),
      ("then", .list [.record [("type", .str "loop"), ("input", .record [("array", .int 1)])]])],
    .record [("type", .str "delay"), ("blocks", .list [.record [("type", .str "log")]])]])],
  .record [("blocks", .list [])],
  .record [("blocks", .list [.record [("type", .str "log")], .record [("type", .str "log")]])]]

def orderSteps : List Draft := [
  ⟨"follow_up__1", .str "Check", .str "condition", .map [], none⟩,
  ⟨"follow_up__2", .str "step_2", .str "loop", .record [("items", .int 1)], some ["follow_up__1"]⟩,
  ⟨"follow_up__3", .str "step_3", .str "table_operation", .map [], some ["follow_up__1"]⟩,
  ⟨"follow_up__4", .str "step_4", .str "delay", .map [], none⟩,
  ⟨"follow_up__5", .str "step_5", .str "log", .map [], some ["follow_up__4"]⟩,
  ⟨"stage_4_1", .str "step_1", .str "log", .map [], some ["follow_up__5"]⟩,
  ⟨"stage_4_2", .str "step_2", .str "log", .map [], none⟩]

theorem convert_preorder_orders :
    convert orders .none = .ok (converted .none orderSteps) ∧
    ∃ parts : List (List Draft), parts.length = orders.length ∧
      (∀ i stage part, orders[i]? = some stage → parts[i]? = some part →
        StageSteps i (lastId (parts.take i).flatten) stage part) ∧
      Schema.get (converted .none orderSteps) "steps" =
        .list ((if ∀ stage ∈ orders, blocksOf stage = [] then
          [placeholder] else parts.flatten).map Draft.toValue) :=
  have h : convert orders .none = .ok (converted .none orderSteps) := by rfl
  ⟨h, convert_preorder h⟩

end StepGraph.Legacy
