import StepGraph.Proofs.Legacy.Malformed

/-!
# Why legacy documents are refused

The visit of a list of pending blocks finds the malformed places in all of them
(`visitBlocks_malformed`): a visited block gives those of its own lists, and the blocks inside it
take its place in the list, ahead of the blocks after it. Stages follow each other
(`stages_malformed`).

* `convert_malformed`: a document whose stages are `Convertible` is refused exactly if it has such a
  place, and the error lists each of them once, in the order of the traversal, under the path that
  leads to it.
-/

set_option autoImplicit false

namespace StepGraph.Legacy

open Value

/-! ## The visit -/

/-- An issue of a malformed place at or inside one of some pending blocks. -/
def Found (pending : List Pending) (i : Issue) : Prop :=
  ∃ q ∈ pending, IssueIn q.path (Malformed q.block) i

section
variable {q : Pending} {rest : List Pending} {issues : List Issue}
  (hfirst : ∀ r ∈ rest, Ahead q.path r.path)
include hfirst

theorem precedes_found {i j : Issue} (hi : ∃ p, i.path = q.path ++ p) (hj : Found rest j) :
    Precedes i.path j.path := by
  obtain ⟨p, hi⟩ := hi
  obtain ⟨r, hr, hj⟩ := hj
  obtain ⟨p', hj⟩ := hj.path
  rw [hi, hj]
  exact hfirst r hr p p'

/-- What is no block is listed before what is found after it. -/
theorem lists_other (hno : ∀ fields, q.block ≠ .map fields) (h : Lists (Found rest) issues) :
    Lists (Found (q :: rest)) (.mistyped q.path "object" q.block :: issues) := by
  have hown := Lists.singleton (issueIn_other q.path hno)
  exact (hown.append h fun i j hi hj => precedes_found hfirst hi.path hj).congr fun i =>
    (List.exists_mem_cons_iff (fun r => IssueIn r.path (Malformed r.block) i) q rest).symm

/-- The lists of a block that are none are listed before what is found inside it and after it. -/
theorem lists_block {fields : Entries} (id : String) (hmap : q.block = .map fields)
    (h : Lists (Found ((children fields id q.path).1 ++ rest)) issues) :
    Lists (Found (q :: rest)) ((children fields id q.path).2 ++ issues) := by
  have hown : Lists (· ∈ (children fields id q.path).2) (children fields id q.path).2 :=
    ⟨fun _ => Iff.rfl, pairwise_children_snd _ _ _⟩
  refine (hown.append h ?_).congr fun i => ?_
  · rintro i j hi ⟨r, hr, hj⟩
    rcases List.mem_append.1 hr with hr | hr
    · obtain ⟨p, hj⟩ := hj.path
      rw [hj]
      exact precedes_children fields id q.path hi hr p
    · exact precedes_found hfirst ((issueIn_map id).2 (.inl hi)).path ⟨r, hr, hj⟩
  · rw [Found, Found, List.exists_mem_cons_iff, hmap, issueIn_map id, or_assoc]
    simp only [List.mem_append, or_and_right, exists_or]

/-- The blocks inside a block may be put before those after it. -/
theorem pairwise_children_append {fields : Entries} (id : String)
    (hlater : rest.Pairwise fun q r => Ahead q.path r.path) :
    ((children fields id q.path).1 ++ rest).Pairwise fun q r => Ahead q.path r.path := by
  refine List.pairwise_append.2 ⟨pairwise_children_fst _ _ _, hlater, fun r hr s hs => ?_⟩
  obtain ⟨p, hp⟩ := path_of_mem_children _ _ _ hr
  have h := (hfirst s hs).append p []
  rwa [List.append_nil, ← hp] at h

end

/-- The visit of pending blocks lists the malformed places in all of them. -/
theorem visitBlocks_malformed {stem : String} {steps : Nat} (number : Nat) {pending : List Pending}
    (hsize : sizeItems (pending.map Pending.block) < steps)
    (hplain : ∀ q ∈ pending, ∀ b, Within q.block b → PlainType b)
    (hahead : pending.Pairwise fun q r => Ahead q.path r.path) :
    ∃ drafts issues, visitBlocks stem steps number pending = .ok (drafts, issues) ∧
      Lists (Found pending) issues := by
  -- a visit replaces a block by the smaller ones inside it, so the bound of steps is never met
  induction steps generalizing number pending with
  | zero => exact absurd hsize (Nat.not_lt_zero _)
  | succ steps ih =>
    cases pending with
    | nil => exact ⟨[], [], rfl, .nil fun i ⟨_, hq, _⟩ => List.not_mem_nil hq⟩
    | cons q rest =>
      obtain ⟨hq, hrest⟩ := List.forall_mem_cons.1 hplain
      obtain ⟨hfirst, hlater⟩ := List.pairwise_cons.1 hahead
      rw [List.map_cons, sizeItems] at hsize
      have hother (hno : ∀ fields, q.block ≠ .map fields) :
          ∃ drafts issues, visitBlocks stem steps number rest = .ok (drafts, issues) ∧
            Lists (Found (q :: rest)) (.mistyped q.path "object" q.block :: issues) := by
        have hpos : 0 < size q.block := by cases q.block <;> simp [size]
        obtain ⟨drafts, issues, hvisit, hfound⟩ := ih number (by omega) hrest hlater
        exact ⟨drafts, issues, hvisit, lists_other hfirst hno hfound⟩
      obtain ⟨block, parent, path⟩ := q
      cases block with
      | map fields =>
        obtain ⟨first, hdraft⟩ :=
          draft_ok (hq _ (.self _)) (stepId stem (number + 1)) (number + 1) parent
        have hsize' : sizeItems (((children fields (stepId stem (number + 1)) path).1
            ++ rest).map Pending.block) < steps := by
          have hlt := sizeItems_inside_lt (.map fields)
          rw [List.map_append, map_block_children, sizeItems_append]
          dsimp only at hsize
          omega
        have hplain' : ∀ r ∈ (children fields (stepId stem (number + 1)) path).1 ++ rest,
            ∀ b, Within r.block b → PlainType b := by
          intro r hr b hb
          rcases List.mem_append.1 hr with hr | hr
          · exact hq b (.inside (mem_inside_of_mem_children hr) hb)
          · exact hrest r hr b hb
        obtain ⟨drafts, issues, hvisit, hfound⟩ :=
          ih (number + 1) hsize' hplain' (pairwise_children_append hfirst _ hlater)
        refine ⟨first :: drafts, _, ?_, lists_block hfirst _ rfl hfound⟩
        exact Attempt.bind_eq_ok.2 ⟨first, hdraft, Attempt.bind_eq_ok.2 ⟨_, hvisit, rfl⟩⟩
      | scalar s =>
        obtain ⟨drafts, issues, hvisit, hfound⟩ := hother (by simp)
        exact ⟨drafts, _, Attempt.bind_eq_ok.2 ⟨_, hvisit, rfl⟩, hfound⟩
      | list items =>
        obtain ⟨drafts, issues, hvisit, hfound⟩ := hother (by simp)
        exact ⟨drafts, _, Attempt.bind_eq_ok.2 ⟨_, hvisit, rfl⟩, hfound⟩

/-! ## Stages -/

/-- The path of a stage. -/
def stagePath (index : Nat) : Path :=
  [.name "stages", .index index]

section
variable (index : Nat) {entries : Entries}

/-- Blocks that a stage does not have, or that do not count as given, are no blocks. -/
theorem orElse_blocks {blocks : List Value}
    (h : orElse (fieldOf entries "blocks") (.list []) = .list blocks) {k : Nat} {child : Value} :
    blocks[k]? = some child ↔
      ∃ items, entries.get? "blocks" = some (.list items) ∧ items[k]? = some child := by
  have hitems := orElse_list_itemsOf h
  unfold fieldOf at hitems
  cases hv : entries.get? "blocks" with
  | none =>
    rw [hv] at hitems
    simp [← hitems, Schema.itemsOf]
  | some v =>
    rw [hv] at hitems
    cases v <;> simp [← hitems, Schema.itemsOf]

theorem issueIn_stage_blocks {blocks : List Value}
    (h : orElse (fieldOf entries "blocks") (.list []) = .list blocks) (i : Issue) :
    Found (pendingItems blocks none (stagePath index ++ [.name "blocks"])) i ↔
      IssueIn (stagePath index) (MalformedStage (.map entries)) i := by
  simp only [Found, mem_pendingItems, orElse_blocks h]
  constructor
  · rintro ⟨q, ⟨k, child, ⟨items, hitems, hi⟩, rfl⟩, path, type, v, hv, rfl⟩
    exact ⟨_, type, v, .inside hitems hi hv, by simp⟩
  · rintro ⟨path, type, v, hv, rfl⟩
    cases hv with
    | stage _ hno => exact absurd rfl (hno entries)
    | blocks hv hgiven hno =>
      rw [fieldOf, hv, Option.getD_some, orElse, if_pos hgiven] at h
      exact absurd h (hno _)
    | @inside _ items k child _ path _ hitems hi hv =>
      exact ⟨_, ⟨k, child, ⟨items, hitems, hi⟩, rfl⟩, path, type, v, hv, by simp⟩

theorem issueIn_stage_noBlocks {v : Value}
    (h : orElse (fieldOf entries "blocks") (.list []) = v) (hno : ∀ items, v ≠ .list items)
    (i : Issue) : IssueIn (stagePath index) (MalformedStage (.map entries)) i ↔
      i = .mistyped (stagePath index ++ [.name "blocks"]) "array" v := by
  have hv : entries.get? "blocks" = some v ∧ v.isGiven = true := by
    unfold orElse fieldOf at h
    split at h
    · rename_i hgiven
      cases hb : entries.get? "blocks" with
      | none => rw [hb] at hgiven; cases hgiven
      | some w =>
        rw [hb] at h hgiven
        exact ⟨congrArg some h, h ▸ hgiven⟩
    · exact absurd h.symm (hno [])
  constructor
  · rintro ⟨path, type, w, hw, rfl⟩
    cases hw with
    | stage _ hmap => exact absurd rfl (hmap entries)
    | blocks hw _ _ =>
      obtain rfl := Option.some.inj (hv.1.symm.trans hw)
      rfl
    | inside hblocks _ _ => exact absurd (Option.some.inj (hv.1.symm.trans hblocks)) (hno _)
  · rintro rfl
    exact ⟨_, _, v, .blocks hv.1 hv.2 hno, rfl⟩

theorem issueIn_stage_other {v : Value} (hnull : v ≠ .null) (hno : ∀ fields, v ≠ .map fields)
    (i : Issue) : IssueIn (stagePath index) (MalformedStage v) i ↔
      i = .mistyped (stagePath index) "object" v := by
  constructor
  · rintro ⟨path, type, w, hw, rfl⟩
    cases hw with
    | stage _ _ => rfl
    | blocks _ _ _ => exact absurd rfl (hno _)
    | inside _ _ _ => exact absurd rfl (hno _)
  · rintro rfl
    exact ⟨[], _, v, .stage hnull hno, rfl⟩

/-- A stage lists its own malformed places. -/
theorem stage_malformed {v : Value} (h : Convertible v) :
    ∃ drafts issues, stage index v = .ok (drafts, issues) ∧
      Lists (IssueIn (stagePath index) (MalformedStage v)) issues := by
  unfold stage
  split
  · refine ⟨[], [], rfl, .nil ?_⟩
    rintro i ⟨path, type, v, hv, rfl⟩
    cases hv with
    | stage hnull _ => exact hnull rfl
  · rename_i entries
    dsimp only
    split
    · rename_i blocks hblocks
      have hof : blocksOf (.map entries) = blocks := orElse_list_itemsOf hblocks
      have hplain := h.plain
      rw [hof] at hplain
      have hstem := idStem_eq_ok.2 ⟨h.isWritable_stageName index, rfl⟩
      have hplain' : ∀ q ∈ pendingItems blocks none (stagePath index ++ [.name "blocks"]),
          ∀ b, Within q.block b → PlainType b := by
        intro q hq
        obtain ⟨k, child, hchild, rfl⟩ := mem_pendingItems.1 hq
        exact hplain child (List.mem_of_getElem? hchild)
      have hsize : sizeItems ((pendingItems blocks none
          (stagePath index ++ [.name "blocks"])).map Pending.block) < sizeItems blocks + 1 := by
        simp [pendingItems, Function.comp_def]
      obtain ⟨drafts, issues, hvisit, hfound⟩ :=
        visitBlocks_malformed 0 hsize hplain' (pairwise_pendingItems _ _ _)
      exact ⟨drafts, issues, Attempt.bind_eq_ok.2 ⟨_, hstem, hvisit⟩,
        hfound.congr (issueIn_stage_blocks index hblocks)⟩
    · rename_i hno
      exact ⟨[], _, rfl, .singleton (issueIn_stage_noBlocks index rfl hno)⟩
  · rename_i hnull hno
    exact ⟨[], _, rfl, .singleton (issueIn_stage_other index hnull hno)⟩

end

/-- Stages list the malformed places of all of them, one stage after the other. -/
theorem stages_malformed (index : Nat) (previous : Option String) {stageList : List Value}
    (h : ∀ stage ∈ stageList, Convertible stage) :
    ∃ drafts issues, stages index previous stageList = .ok (drafts, issues) ∧
      Lists (fun i => ∃ k v, stageList[k]? = some v ∧
        IssueIn (stagePath (index + k)) (MalformedStage v) i) issues := by
  induction stageList generalizing index previous with
  | nil => exact ⟨[], [], rfl, .nil (by simp)⟩
  | cons v rest ih =>
    obtain ⟨hv, hrest⟩ := List.forall_mem_cons.1 h
    obtain ⟨drafts, issues, hstage, hfound⟩ := stage_malformed index hv
    obtain ⟨others, otherIssues, hstages, hothers⟩ :=
      ih (index + 1) ((drafts.getLast?.map Draft.id).or previous) hrest
    refine ⟨chain previous drafts ++ others, issues ++ otherIssues,
      Attempt.bind_eq_ok.2 ⟨_, hstage, Attempt.bind_eq_ok.2 ⟨_, hstages, rfl⟩⟩,
      (hfound.append hothers ?_).congr fun i => ?_⟩
    · rintro i j hi ⟨k, w, -, hj⟩
      obtain ⟨p, hi⟩ := hi.path
      obtain ⟨q, hj⟩ := hj.path
      rw [hi, hj]
      exact precedes_append [.name "stages"] (ahead_index (by omega) p q)
    · rw [← Nat.or_exists_add_one (p := fun k => ∃ w, (v :: rest)[k]? = some w ∧ _)]
      simp only [List.getElem?_cons_zero, List.getElem?_cons_succ, Option.some.injEq,
        exists_eq_left', Nat.add_zero, Nat.add_right_comm index 1, Nat.add_assoc index]

/-! ## Documents -/

/-- The issues are those of the malformed places of a document. -/
structure Locates (raw : Value) (stageList : List Value) (issues : List Issue) : Prop where
  mem_iff : ∀ i, i ∈ issues ↔
    ∃ path type v, MalformedIn stageList path type v ∧ i = .mistyped path type v
  nodup : (issues.map Issue.path).Nodup
  inOrder : (issues.map Issue.path).Pairwise Precedes
  leads : ∀ path type v, MalformedIn stageList path type v → raw.at? path = some v

section
variable {raw : Value} {stageList : List Value}

theorem MalformedIn.at? (hstages : Schema.get raw "stages" = .list stageList) {v : Value}
    {path : Path} {type : String} (h : MalformedIn stageList path type v) :
    raw.at? path = some v := by
  obtain ⟨i, stage, rest, hi, rfl, h⟩ := h
  cases raw with
  | map entries =>
    have hget : Entries.get? entries "stages" = some (.list stageList) := by
      rw [Schema.get, Schema.entriesOf] at hstages
      cases hv : Entries.get? entries "stages" with
      | none => rw [hv] at hstages; cases hstages
      | some v => rw [hv] at hstages; exact congrArg some hstages
    simp [Value.at?, hget, hi, h.at?]
  | scalar s => cases hstages
  | list items => cases hstages

theorem Lists.locates {issues : List Issue} (hstages : Schema.get raw "stages" = .list stageList)
    (h : Lists (IssueIn [] (MalformedIn stageList)) issues) : Locates raw stageList issues where
  mem_iff := h.mem_iff
  nodup := by
    refine (List.pairwise_map.2 h.inOrder).imp fun {p q} hpq => ?_
    rintro rfl
    exact precedes_irrefl p hpq
  inOrder := List.pairwise_map.2 h.inOrder
  leads _ _ _ hv := hv.at? hstages

theorem issueIn_malformedIn (i : Issue) : (∃ k v, stageList[k]? = some v ∧
    IssueIn (stagePath (0 + k)) (MalformedStage v) i) ↔ IssueIn [] (MalformedIn stageList) i := by
  constructor
  · rintro ⟨k, v, hk, path, type, w, hw, rfl⟩
    exact ⟨_, type, w, ⟨k, v, path, hk, rfl, hw⟩, by simp [stagePath]⟩
  · rintro ⟨_, type, w, ⟨k, v, path, hk, rfl, hw⟩, rfl⟩
    exact ⟨k, v, hk, path, type, w, hw, by simp [stagePath]⟩

theorem convert_eq_report {source : Source} {drafts : List Draft} {issues : List Issue}
    (h : stages 0 none stageList = .ok (drafts, issues)) (hne : issues ≠ []) :
    convert stageList source = report (.invalid .legacy issues) := by
  rw [convert, h]
  exact if_neg (mt List.isEmpty_iff.1 hne)

/-- What a legacy document is refused for: it is refused exactly if something else stands where a
stage, a list of blocks or a block should, and the error lists each such place once, in the order of
the traversal and under the path that leads to it. -/
theorem convert_malformed (hstages : Schema.get raw "stages" = .list stageList)
    (hconvertible : ∀ stage ∈ stageList, Convertible stage) (source : Source) :
    ((∃ issues, convert stageList source = report (.invalid .legacy issues)) ↔
      ∃ path type v, MalformedIn stageList path type v) ∧
    ∀ e, convert stageList source = .error e →
      ∃ issues, e = .error (.invalid .legacy issues) ∧ Locates raw stageList issues := by
  obtain ⟨drafts, issues, hrun, hfound⟩ :=
    stages_malformed 0 none hconvertible
  have hlists := hfound.congr issueIn_malformedIn
  have hexists : (∃ path type v, MalformedIn stageList path type v) ↔ issues ≠ [] := by
    constructor
    · rintro ⟨path, type, v, hv⟩
      exact List.ne_nil_of_mem ((hlists.mem_iff _).2 ⟨path, type, v, hv, rfl⟩)
    · intro hne
      obtain ⟨i, hi⟩ := List.exists_mem_of_ne_nil issues hne
      obtain ⟨path, type, v, hv, -⟩ := (hlists.mem_iff i).1 hi
      exact ⟨path, type, v, hv⟩
  by_cases hnil : issues = []
  · subst hnil
    have hok : convert stageList source = .ok _ := convert_eq_ok.2 ⟨drafts, hrun, rfl⟩
    rw [hexists, hok]
    exact ⟨iff_of_false (fun ⟨_, h⟩ => nomatch h) (fun h => h rfl), fun e h => nomatch h⟩
  · rw [hexists, convert_eq_report hrun hnil]
    refine ⟨iff_of_true ⟨issues, rfl⟩ hnil, fun e h => ?_⟩
    cases h
    exact ⟨issues, rfl, hlists.locates hstages⟩

end

/-- The blocks at and inside a block have scalar types if its own type is one and theirs are. -/
theorem plainType_within {block : Value} (h : PlainType block)
    (hinside : ∀ child ∈ inside block, ∀ b, Within child b → PlainType b) (b : Value)
    (hb : Within block b) : PlainType b := by
  cases hb with
  | self _ => exact h
  | inside hchild hb => exact hinside _ hchild b hb

/-- A loop with a mapping where its blocks should stand. -/
def brokenLoop : Value :=
  .record [("type", .str "loop"), ("blocks", .map [])]

/-- A branch with a number where a list should stand, and blocks after it. -/
def brokenBranch : Value :=
  .record [("type", .str "condition"), ("then", .list [brokenLoop, .int 7]), ("else", .int 1)]

/-- A stage that is none, one without a list of blocks and one with broken blocks. -/
def damaged : List Value := [
  .null,
  .str "later",
  .record [("blocks", .str "none")],
  .record [("blocks", .list [brokenBranch, .list []])]]

def damagedIssues : List Issue := [
  .mistyped [.name "stages", .index 1] "object" (.str "later"),
  .mistyped [.name "stages", .index 2, .name "blocks"] "array" (.str "none"),
  .mistyped [.name "stages", .index 3, .name "blocks", .index 0, .name "else"] "array" (.int 1),
  .mistyped [.name "stages", .index 3, .name "blocks", .index 0, .name "then", .index 0,
    .name "blocks"] "array" (.map []),
  .mistyped [.name "stages", .index 3, .name "blocks", .index 0, .name "then", .index 1]
    "object" (.int 7),
  .mistyped [.name "stages", .index 3, .name "blocks", .index 1] "object" (.list [])]

theorem convert_malformed_damaged :
    convert damaged .none = report (.invalid .legacy damagedIssues) ∧
      (∃ path type v, MalformedIn damaged path type v) ∧
      Locates (.record [("stages", .list damaged)]) damaged damagedIssues := by
  have hscalar : ∀ s b, Within (.scalar s) b → PlainType b := fun s =>
    plainType_within ⟨.null, rfl⟩ (by simp [inside])
  have hloop : ∀ b, Within brokenLoop b → PlainType b :=
    plainType_within ⟨.str "loop", rfl⟩ (by
      have h : inside brokenLoop = [] := rfl
      simp [h])
  have hbranch : ∀ b, Within brokenBranch b → PlainType b :=
    plainType_within ⟨.str "condition", rfl⟩ (by
      have h : inside brokenBranch = [brokenLoop, .int 7] := rfl
      rw [h, List.forall_mem_cons, List.forall_mem_singleton]
      exact ⟨hloop, hscalar _⟩)
  have hempty : ∀ b, Within (.list []) b → PlainType b :=
    plainType_within ⟨.null, rfl⟩ (by simp [inside])
  have hname : ∀ stage ∈ damaged, (Schema.get stage "name").isWritable = true := by decide
  have hblocks : damaged.flatMap blocksOf = [brokenBranch, .list []] := rfl
  have hconvertible : ∀ stage ∈ damaged, Convertible stage := by
    refine fun v hv => ⟨hname v hv, fun block hblock => ?_⟩
    have hmem : block ∈ damaged.flatMap blocksOf := List.mem_flatMap.2 ⟨v, hv, hblock⟩
    rw [hblocks] at hmem
    rcases List.mem_pair.1 hmem with rfl | rfl
    · exact hbranch
    · exact hempty
  have hrefused : convert damaged .none = report (.invalid .legacy damagedIssues) := by rfl
  have hstages : Schema.get (.record [("stages", .list damaged)]) "stages" = .list damaged := rfl
  have h := convert_malformed hstages hconvertible .none
  refine ⟨hrefused, h.1.1 ⟨_, hrefused⟩, ?_⟩
  obtain ⟨issues, he, hissues⟩ := h.2 _ hrefused
  cases he
  exact hissues

end StepGraph.Legacy
