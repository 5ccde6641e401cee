import StepGraph.Proofs.Legacy.Convert

/-!
# When a conversion has an answer

The conversion of a legacy document breaks off for two reasons only. A block may have a list or a
mapping as its type, which cannot be looked up among the types with renamed inputs (`PlainType`),
and the name of a stage may hold a number that is too long to be written into ids. A document
without these is converted or refused (`convert_answers`).
-/

set_option autoImplicit false

namespace StepGraph.Legacy

open Value

/-- The type of a block, if it has one, is no list and no mapping. -/
def PlainType (block : Value) : Prop :=
  ∃ s, Schema.get block "type" = .scalar s

/-- A block is another one or inside it, at any depth. -/
inductive Within : Value → Value → Prop
  | self (block : Value) : Within block block
  | inside {block child inner : Value} (h : child ∈ inside block) (hinner : Within child inner) :
      Within block inner

/-- The name of a stage can be written, and its blocks and those inside them have plain types. -/
structure Convertible (stage : Value) : Prop where
  name : (Schema.get stage "name").isWritable = true
  plain : ∀ block ∈ blocksOf stage, ∀ b, Within block b → PlainType b

theorem Convertible.isWritable_stageName {stage : Value} (h : Convertible stage) (index : Nat) :
    (stageName index stage).isWritable = true := by
  unfold stageName orElse
  split
  · exact h.name
  · rfl

/-! ## Conversion -/

theorem settings_ok {type : Value} (h : ∃ s, type = .scalar s) (input : Value) :
    ∃ config, settings type input = .ok config := by
  obtain ⟨s, rfl⟩ := h
  cases input with
  | map entries => cases s <;> exact ⟨_, rfl⟩
  | scalar v => exact ⟨.scalar v, rfl⟩
  | list items => exact ⟨.list items, rfl⟩

theorem draft_ok {block : Entries} (h : PlainType (.map block)) (id : String) (number : Nat)
    (parent : Option String) : ∃ d, draft block id number parent = .ok d := by
  obtain ⟨config, hconfig⟩ := settings_ok h (orElse (fieldOf block "input") (.map []))
  exact ⟨_, Attempt.bind_eq_ok.2 ⟨config, hconfig, rfl⟩⟩

theorem mem_inside_of_mem_children {block : Entries} {id : String} {path : Path} {q : Pending}
    (h : q ∈ (children block id path).1) : q.block ∈ inside (.map block) := by
  simp only [children, List.flatMap_map, List.mem_flatMap, childrenUnder_fst] at h
  obtain ⟨key, hkey, hq⟩ := h
  simp only [pendingItems, List.mem_map] at hq
  obtain ⟨item, hitem, rfl⟩ := hq
  exact List.mem_flatMap.2 ⟨key, hkey, List.fst_mem_of_mem_zipIdx hitem⟩

theorem visitBlocks_answers {stem : String} {steps number : Nat} {pending : List Pending}
    (h : ∀ q ∈ pending, ∀ b, Within q.block b → PlainType b) :
    (visitBlocks stem steps number pending).Answers := by
  induction steps generalizing number pending with
  | zero => exact Attempt.answers_ok _
  | succ steps ih =>
    cases pending with
    | nil => exact Attempt.answers_ok _
    | cons q rest =>
      obtain ⟨hq, hrest⟩ := List.forall_mem_cons.1 h
      obtain ⟨block, parent, path⟩ := q
      cases block with
      | map block =>
        apply Attempt.Answers.bind (.inl (draft_ok (hq _ (.self _)) _ _ _))
        intro first _
        have hinside : ∀ q ∈ (children block (stepId stem (number + 1)) path).1 ++ rest,
            ∀ b, Within q.block b → PlainType b := by
          intro q hmem b hb
          rcases List.mem_append.1 hmem with hmem | hmem
          · exact hq b (.inside (mem_inside_of_mem_children hmem) hb)
          · exact hrest q hmem b hb
        exact (ih hinside).bind fun _ _ => Attempt.answers_ok _
      | scalar s => exact (ih hrest).bind fun _ _ => Attempt.answers_ok _
      | list items => exact (ih hrest).bind fun _ _ => Attempt.answers_ok _

theorem stage_answers {index : Nat} {v : Value} (h : Convertible v) : (stage index v).Answers := by
  unfold stage
  split
  · exact Attempt.answers_ok _
  · rename_i entries
    dsimp only
    split
    · rename_i blocks hblocks
      have hof : blocksOf (.map entries) = blocks := orElse_list_itemsOf hblocks
      have hplain := h.plain
      rw [hof] at hplain
      apply Attempt.Answers.bind
        (.inl ⟨_, idStem_eq_ok.2 ⟨h.isWritable_stageName index, rfl⟩⟩)
      intro stem _
      apply visitBlocks_answers
      intro q hq b hb
      obtain ⟨item, hitem, rfl⟩ := List.mem_map.1 hq
      exact hplain item.1 (List.fst_mem_of_mem_zipIdx hitem) b hb
    · exact Attempt.answers_ok _
  · exact Attempt.answers_ok _

theorem stages_answers {index : Nat} {previous : Option String} {stageList : List Value}
    (h : ∀ stage ∈ stageList, Convertible stage) : (stages index previous stageList).Answers := by
  induction stageList generalizing index previous with
  | nil => exact Attempt.answers_ok _
  | cons v rest ih =>
    obtain ⟨hv, hrest⟩ := List.forall_mem_cons.1 h
    apply (stage_answers hv).bind
    rintro ⟨drafts, issues⟩ _
    exact (ih hrest).bind fun _ _ => Attempt.answers_ok _

theorem convert_answers {stageList : List Value} (source : Source)
    (h : ∀ stage ∈ stageList, Convertible stage) : (convert stageList source).Answers := by
  apply (stages_answers h).bind
  rintro ⟨drafts, issues⟩ _
  dsimp only
  split
  · exact Attempt.answers_ok _
  · exact Attempt.answers_report _

end StepGraph.Legacy
