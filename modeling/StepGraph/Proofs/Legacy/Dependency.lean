import StepGraph.Proofs.Graph.Shown
import StepGraph.Proofs.Legacy.Convert
import StepGraph.Proofs.Related

/-!
# The dependencies of converted documents

An id holds its stem and its number (`stepId_inj`), so the ids of a converted document are distinct
exactly if no two stages with blocks have one stem (`Flattened.nodup_ids_iff`); stems may agree
where the names of stages differ in characters that ids lack. A step depends on steps before it
(`Flattened.earlier`). So a document whose stems differ loads, another is refused for the ids that
repeat (`assertDependencies_convert`), and sorting never changes the order of the steps
(`orderByDependencies_convert`).
-/

set_option autoImplicit false

namespace StepGraph.Legacy

open Value

/-! ## Ids -/

/-- The number of a step follows the last underscore of its id. -/
theorem stepId_inj {stem other : String} {m n : Nat} (h : stepId stem m = stepId other n) :
    stem = other ∧ m = n := by
  -- read from the end, an id is the digits of its number up to an underscore
  have hall : ∀ k, ∀ c ∈ (Nat.toDigits 10 k).reverse, (c != '_') = true := fun k c hc => by
    have hne : c ≠ '_' := fun he => Nat.underscore_not_in_toDigits (he ▸ List.mem_reverse.1 hc)
    simpa using hne
  have hsplit : ∀ s k, (stepId s k).toList.reverse =
      (Nat.toDigits 10 k).reverse ++ '_' :: s.toList.reverse := fun s k => by simp [stepId]
  have hrev := congrArg (fun s => s.toList.reverse) h
  simp only [hsplit] at hrev
  have hm : m = n := by
    have ht := congrArg (List.takeWhile (· != '_')) hrev
    rw [List.takeWhile_append_of_pos (hall m), List.takeWhile_append_of_pos (hall n),
      List.takeWhile_cons_of_neg (by decide), List.takeWhile_cons_of_neg (by decide),
      List.append_nil, List.append_nil, List.reverse_inj] at ht
    rw [← Nat.ofDigitChars_ten_toDigits (n := m), ht, Nat.ofDigitChars_ten_toDigits]
  subst hm
  refine ⟨String.toList_inj.1 ?_, rfl⟩
  simpa using hrev

/-- What the ids start with in the stages that have blocks. -/
def stems (index : Nat) : List Value → List String
  | [] => []
  | stage :: rest =>
    if blocksOf stage = [] then stems (index + 1) rest
    else stemOf index stage :: stems (index + 1) rest

section
variable {index : Nat} {previous : Option String} {v : Value} {drafts : List Draft}

theorem StageSteps.getElem? (h : StageSteps index previous v drafts) {k : Nat} {d : Draft}
    (hd : drafts[k]? = some d) : ∃ p, (preorder 0 (forestOf v))[k]? = some p ∧
      IsStep (stemOf index v) previous (k + 1) p d := by
  obtain ⟨x, hx, hstep⟩ := exists_getElem?_of_forall₂ h hd
  rw [List.getElem?_zipIdx, Option.map_eq_some_iff] at hx
  obtain ⟨p, hp, rfl⟩ := hx
  exact ⟨p, hp, by rwa [Nat.add_comm 1 k] at hstep⟩

/-- The ids of a stage's steps count from one. -/
theorem StageSteps.map_id (h : StageSteps index previous v drafts) :
    drafts.map Draft.id = (List.range' 1 drafts.length).map (stepId (stemOf index v)) := by
  refine List.ext_getElem (by simp) fun k hk _ => ?_
  rw [List.length_map] at hk
  obtain ⟨p, -, hstep⟩ := h.getElem? (List.getElem?_eq_getElem hk)
  simp [hstep.id, Nat.add_comm 1 k]

theorem StageSteps.stems_cons (h : StageSteps index previous v drafts) (rest : List Value) :
    stems index (v :: rest) =
      if drafts = [] then stems (index + 1) rest else stemOf index v :: stems (index + 1) rest := by
  simp only [stems, h.eq_nil_iff]

/-- A step depends on steps before it in its stage, or on the step before the stage. -/
theorem StageSteps.earlier (h : StageSteps index previous v drafts) {before after : List Draft}
    {d : Draft} {id : String} (hsplit : drafts = before ++ d :: after)
    (hid : id ∈ d.dependsOn.getD []) : (∃ e ∈ before, e.id = id) ∨ previous = some id := by
  have hd : drafts[before.length]? = some d := by rw [hsplit]; simp
  obtain ⟨p, hp, hstep⟩ := h.getElem? hd
  rw [hstep.dependsOn] at hid
  cases hparent : p.parent with
  | none =>
    rw [hparent, needs] at hid
    split at hid
    · cases previous with
      | none => cases hid
      | some last =>
        obtain rfl : id = last := by simpa using hid
        exact .inr rfl
    · cases hid
  | some n =>
    rw [hparent] at hid
    obtain rfl : id = stepId (stemOf index v) n := by simpa [needs] using hid
    rcases parent_preorder hp hparent with hmem | ⟨j, q, hj, rfl, -, -⟩
    · obtain ⟨block, -, rfl⟩ := List.mem_map.1 hmem
      cases hparent
    · have he : drafts[j]? = some before[j] := by
        rw [hsplit, List.getElem?_append_left hj, List.getElem?_eq_getElem hj]
      obtain ⟨q, -, hq⟩ := h.getElem? he
      exact .inl ⟨before[j], List.getElem_mem hj, by rw [hq.id, Nat.zero_add]⟩

end

section
variable {index : Nat} {previous : Option String} {stageList : List Value}
  {parts : List (List Draft)}

theorem Flattened.mem_ids (h : Flattened index previous stageList parts) {id : String}
    (hid : id ∈ parts.flatten.map Draft.id) :
    ∃ stem ∈ stems index stageList, ∃ n, id = stepId stem n := by
  induction h with
  | nil => cases hid
  | @cons index previous stage rest part parts first others ih =>
    rw [List.flatten_cons, List.map_append, List.mem_append] at hid
    rw [first.stems_cons]
    rcases hid with hid | hid
    · have hne : part ≠ [] := by rintro rfl; cases hid
      rw [first.map_id] at hid
      obtain ⟨n, -, rfl⟩ := List.mem_map.1 hid
      exact ⟨stemOf index stage, by simp [hne], n, rfl⟩
    · obtain ⟨stem, hstem, hn⟩ := ih hid
      refine ⟨stem, ?_, hn⟩
      split
      · exact hstem
      · exact List.mem_cons_of_mem _ hstem

/-- The first step of a stage. -/
theorem StageSteps.stepId_one_mem {v : Value} {drafts : List Draft}
    (h : StageSteps index previous v drafts) (hne : drafts ≠ []) :
    stepId (stemOf index v) 1 ∈ drafts.map Draft.id := by
  rw [h.map_id]
  refine List.mem_map_of_mem (List.mem_range'_1.2 ⟨Nat.le_refl 1, ?_⟩)
  have := List.length_pos_iff.2 hne
  omega

theorem Flattened.stepId_one_mem (h : Flattened index previous stageList parts) {stem : String}
    (hstem : stem ∈ stems index stageList) : stepId stem 1 ∈ parts.flatten.map Draft.id := by
  induction h with
  | nil => cases hstem
  | @cons index previous stage rest part parts first others ih =>
    rw [first.stems_cons] at hstem
    rw [List.flatten_cons, List.map_append, List.mem_append]
    split at hstem
    · exact .inr (ih hstem)
    · rename_i hne
      rcases List.mem_cons.1 hstem with rfl | hstem
      · exact .inl (first.stepId_one_mem hne)
      · exact .inr (ih hstem)

/-- The ids of all stages are distinct exactly if no two stages with blocks have one stem. -/
theorem Flattened.nodup_ids_iff (h : Flattened index previous stageList parts) :
    (parts.flatten.map Draft.id).Nodup ↔ (stems index stageList).Nodup := by
  induction h with
  | nil => simp [stems]
  | @cons index previous stage rest part parts first others ih =>
    rw [List.flatten_cons, List.map_append, List.nodup_append, ih, first.stems_cons]
    by_cases hne : part = []
    · simp [hne]
    have hown : (part.map Draft.id).Nodup := by
      rw [first.map_id]
      exact (List.nodup_range' 1).map fun m n hmn => (stepId_inj hmn).2
    rw [if_neg hne, List.nodup_cons]
    constructor
    · rintro ⟨-, hrest, hdisjoint⟩
      refine ⟨fun hmem => ?_, hrest⟩
      exact hdisjoint _ (first.stepId_one_mem hne) _ (others.stepId_one_mem hmem) rfl
    · rintro ⟨hmem, hrest⟩
      refine ⟨hown, hrest, fun id hid other hother heq => ?_⟩
      rw [first.map_id] at hid
      obtain ⟨m, -, rfl⟩ := List.mem_map.1 hid
      obtain ⟨stem, hstem, n, rfl⟩ := others.mem_ids hother
      exact hmem ((stepId_inj heq).1 ▸ hstem)

/-- A step depends on steps before it, or on the step before all stages. -/
theorem Flattened.earlier (h : Flattened index previous stageList parts)
    {before after : List Draft} {d : Draft} {id : String}
    (hsplit : parts.flatten = before ++ d :: after) (hid : id ∈ d.dependsOn.getD []) :
    (∃ e ∈ before, e.id = id) ∨ previous = some id := by
  induction h generalizing before with
  | nil => simp at hsplit
  | @cons index previous stage rest part parts first others ih =>
    have hlater : ∀ more, parts.flatten = more ++ d :: after →
        (∃ e ∈ part ++ more, e.id = id) ∨ previous = some id := by
      intro more hmore
      rcases ih hmore with ⟨e, he, rfl⟩ | hlast
      · exact .inl ⟨e, List.mem_append_right part he, rfl⟩
      rcases Option.or_eq_some_iff.1 hlast with hlast | ⟨-, hprevious⟩
      · obtain ⟨e, he, rfl⟩ := Option.map_eq_some_iff.1 hlast
        exact .inl ⟨e, List.mem_append_left more (List.mem_of_getLast? he), rfl⟩
      · exact .inr hprevious
    rw [List.flatten_cons, List.append_eq_append_iff] at hsplit
    rcases hsplit with ⟨more, rfl, hmore⟩ | ⟨more, rfl, hmore⟩
    · exact hlater more hmore
    · cases more with
      | nil => simpa using hlater [] hmore.symm
      | cons e more =>
        obtain ⟨rfl, -⟩ := List.cons.inj hmore
        exact first.earlier rfl hid

end

/-! ## The steps of the workflow -/

def Draft.fields (d : Draft) : Fields :=
  [("id", .str d.id), ("name", d.name), ("type", d.type), ("config", d.config)]
    ++ optionalField "depends_on" texts d.dependsOn

theorem Draft.toValue_eq (d : Draft) : d.toValue = .map d.fields.entries := rfl

theorem Draft.field?_dependsOn (d : Draft) :
    field? d.fields.entries "depends_on" = d.dependsOn.map texts := by
  have hdeps : d.fields.lookup "depends_on" = d.dependsOn.map texts := by
    simp [Draft.fields, lookup_cons_if, lookup_optionalField]
  exact field?_entries _ hdeps fun _ => by simp [texts]

/-- The format keeps the id of a step and what it depends on. -/
theorem Draft.readStep_toValue (d : Draft) :
    (Schema.readStep d.toValue).id = d.id ∧
      (Schema.readStep d.toValue).dependsOn = d.dependsOn := by
  have hid : d.fields.lookup "id" = some (.str d.id) := rfl
  constructor
  · simp only [Schema.readStep, Draft.toValue_eq, Schema.get_entries, hid, Option.getD_some,
      Schema.textOf]
  · simp only [Schema.readStep, Draft.toValue_eq, Schema.entriesOf, Draft.field?_dependsOn,
      Schema.map_readTexts]

section
variable {stageList : List Value} {source : Source} {parts : List (List Draft)}
  {drafts : List Draft} {v : Value} {w : Workflow}

theorem nodup_written_iff (h : Flattened 0 none stageList parts) :
    ((written parts).map Draft.id).Nodup ↔ (stems 0 stageList).Nodup := by
  rw [← h.nodup_ids_iff, written]
  split
  · rename_i hnil
    rw [List.isEmpty_iff.1 hnil]
    simp
  · rfl

theorem earlier_written (h : Flattened 0 none stageList parts) {before after : List Draft}
    {d : Draft} {id : String} (hsplit : written parts = before ++ d :: after)
    (hid : id ∈ d.dependsOn.getD []) : ∃ e ∈ before, e.id = id := by
  rw [written] at hsplit
  split at hsplit
  · have hd : d ∈ [placeholder] := by rw [hsplit]; simp
    obtain rfl := List.mem_singleton.1 hd
    cases hid
  · simpa using h.earlier hsplit hid

theorem steps_read_converted (source : Source) (drafts : List Draft) :
    (Schema.read (converted source drafts)).steps = drafts.map fun d => Schema.readStep d.toValue := by
  rw [Schema.read, get_converted, Schema.itemsOf, List.map_map]
  rfl

theorem steps_of_converted (h : Workflow.ofValue (converted source drafts) = .ok w) :
    w.steps = drafts.map fun d => Schema.readStep d.toValue := by
  obtain ⟨-, -, rfl⟩ := Workflow.ofValue_eq_ok.1 h
  exact steps_read_converted source drafts

theorem stepIds_of_converted (h : Workflow.ofValue (converted source drafts) = .ok w) :
    w.stepIds = drafts.map Draft.id := by
  rw [Workflow.stepIds, steps_of_converted h, List.map_map]
  exact List.map_congr_left fun d _ => d.readStep_toValue.1

/-- The steps of a converted document come after what they depend on. -/
theorem earlier_read_converted (hparts : Flattened 0 none stageList parts) {before after : List Step}
    {s : Step} {id : String}
    (hsplit : (Schema.read (converted source (written parts))).steps = before ++ s :: after)
    (hid : id ∈ s.dependsOn.getD []) : ∃ t ∈ before, t.id = id := by
  rw [steps_read_converted] at hsplit
  obtain ⟨front, rest, hfront, rfl, hrest⟩ := List.map_eq_append_iff.1 hsplit
  obtain ⟨draft, back, rfl, rfl, rfl⟩ := List.map_eq_cons_iff.1 hrest
  rw [draft.readStep_toValue.2] at hid
  obtain ⟨e, he, rfl⟩ := earlier_written hparts hfront hid
  exact ⟨_, List.mem_map_of_mem he, e.readStep_toValue.1⟩

theorem earlier_of_converted (hparts : Flattened 0 none stageList parts)
    (h : Workflow.ofValue (converted source (written parts)) = .ok w) {before after : List Step}
    {s : Step} {id : String} (hsplit : w.steps = before ++ s :: after)
    (hid : id ∈ s.dependsOn.getD []) : ∃ t ∈ before, t.id = id := by
  obtain ⟨-, -, rfl⟩ := Workflow.ofValue_eq_ok.1 h
  exact earlier_read_converted hparts hsplit hid

/-- A document in the older format opens as the workflow that it is converted to. -/
theorem toGraph_of_convert {text : List Char} {raw : Value} (hload : Document.load text = .ok raw)
    (hlegacy : isLegacy raw = true) (hcurrent : isCurrent raw = false)
    (hv : convert (Schema.itemsOf (Schema.get raw "stages")) source = .ok v)
    (hw : Workflow.ofValue v = .ok w) (hdeps : Step.assertDependencies w.steps = .ok ()) :
    ∃ opened, Document.toGraph text source = .ok opened ∧ opened.workflow = w := by
  have hadapt : adapt raw source = .ok (v, true) := by
    rw [adapt, hcurrent, hlegacy, hv]; rfl
  have hread : Document.read text source = .ok ⟨w, true⟩ := by
    simp only [Document.read, Attempt.bind_eq_ok]
    exact ⟨raw, hload, _, hadapt, w, hw, rfl⟩
  exact ⟨_, Document.toGraph_eq_ok.2 ⟨_, Document.readChecked_eq_ok.2 ⟨hread, hdeps⟩, rfl⟩, rfl⟩

/-- The conversion makes sound dependencies out of stages whose stems differ, and ids that repeat
out of others. -/
theorem assertDependencies_convert (hv : convert stageList source = .ok v)
    (hw : Workflow.ofValue v = .ok w) :
    (∀ s ∈ w.steps, ∀ d ∈ s.dependsOn.getD [], d ∈ w.stepIds) ∧
    ((stems 0 stageList).Nodup →
      Step.assertDependencies w.steps = .ok () ∧ w.stepIds.Nodup ∧
      (∀ id, ¬ Relation.TransGen
        (fun a b => ∃ s ∈ w.steps, s.id = b ∧ a ∈ s.dependsOn.getD []) id id) ∧
      ∀ text raw, Document.load text = .ok raw → isLegacy raw = true → isCurrent raw = false →
        Schema.itemsOf (Schema.get raw "stages") = stageList →
        ∃ opened, Document.toGraph text source = .ok opened ∧ opened.workflow = w) ∧
    (¬ (stems 0 stageList).Nodup →
      Step.assertDependencies w.steps = report (.duplicateIds (Order.repeats w.stepIds))) := by
  obtain ⟨parts, hparts, rfl⟩ := convert_ok hv
  have hids : w.stepIds.Nodup ↔ (stems 0 stageList).Nodup := by
    rw [stepIds_of_converted hw, nodup_written_iff hparts]
  have hearlier : ∀ before s after, w.steps = before ++ s :: after →
      ∀ d ∈ s.dependsOn.getD [], ∃ t ∈ before, t.id = d :=
    fun _ _ _ hsplit _ hd => earlier_of_converted hparts hw hsplit hd
  refine ⟨fun s hs d hd => ?_, fun hstems => ?_, fun hstems => ?_⟩
  · obtain ⟨before, after, hsplit⟩ := List.append_of_mem hs
    obtain ⟨t, ht, rfl⟩ := hearlier before s after hsplit d hd
    exact List.mem_map_of_mem (hsplit ▸ List.mem_append_left _ ht)
  · have hnd := hids.2 hstems
    have hdeps := Step.assertDependencies_of_earlier hnd hearlier
    have hshows := Workflow.shows_toGraph .vertical (Workflow.valid_of_ofValue hw) hdeps
    refine ⟨hdeps, hnd, fun id hcycle => ?_, fun text raw hload hlegacy hcurrent hstages => ?_⟩
    · -- the graph of the workflow has an edge for each dependency and no cycle
      refine hshows.acyclic id (Relation.TransGen.mono (fun a b hab => ?_) id id hcycle)
      obtain ⟨e, he, hends⟩ := List.mem_map.1 ((hshows.edges a b).2 hab)
      exact ⟨e, he, congrArg Prod.fst hends, congrArg Prod.snd hends⟩
    · exact toGraph_of_convert hload hlegacy hcurrent (hstages ▸ hv) hw hdeps
  · exact Step.assertDependencies_of_repeats (mt hids.1 hstems)

end

theorem assertDependencies_convert_orders :
    convert orders .none = .ok (converted .none orderSteps) ∧
    Workflow.ofValue (converted .none orderSteps)
      = .ok (Schema.read (converted .none orderSteps)) ∧
    (stems 0 orders).Nodup ∧
    Step.assertDependencies (Schema.read (converted .none orderSteps)).steps = .ok () :=
  have hv : convert orders .none = .ok (converted .none orderSteps) := by rfl
  have hw : Workflow.ofValue (converted .none orderSteps)
      = .ok (Schema.read (converted .none orderSteps)) := by rfl
  have hstems : (stems 0 orders).Nodup := by decide
  ⟨hv, hw, hstems, ((assertDependencies_convert hv hw).2.1 hstems).1⟩

/-- Two stages of one name, with a block each. -/
def sameName : List Value :=
  List.replicate 2
    (.record [("name", .str "main"), ("blocks", .list [.record [("type", .str "log")]])])

/-- Both steps have the id `main_1`, and the second depends on it. -/
theorem refused_sameName :
    ∃ v w, convert sameName .none = .ok v ∧ Workflow.ofValue v = .ok w ∧
      w.steps.map (fun s => (s.id, s.dependsOn)) = [("main_1", none), ("main_1", some ["main_1"])] ∧
      Step.assertDependencies w.steps = report (.duplicateIds ["main_1"]) :=
  ⟨_, _, rfl, rfl, rfl, rfl⟩

/-- A step of a converted document depends on steps at earlier positions, so sorting by dependencies
leaves the order of execution alone where ids are distinct. -/
theorem orderByDependencies_convert {stageList : List Value} {source : Source} {v : Value}
    (hv : convert stageList source = .ok v)
    (hids : Step.assertDistinctIds (Schema.read v).steps = .ok ()) :
    (∀ (i : Nat) s, (Schema.read v).steps[i]? = some s → ∀ id ∈ s.dependsOn.getD [],
      ∃ j < i, ∃ t, (Schema.read v).steps[j]? = some t ∧ t.id = id) ∧
    Step.order (Schema.read v).steps
        (Step.dependenciesIn (Step.dependencyMap (Schema.read v).steps)) =
      .ok (Schema.read v).steps ∧
    ∀ w, Workflow.ofValue v = .ok w → Step.orderByDependencies w.steps = .ok w.steps := by
  obtain ⟨parts, hparts, rfl⟩ := convert_ok hv
  have hearlier := @earlier_read_converted _ source _ hparts
  have horder := Step.orderByDependencies_of_earlier (Step.assertDistinctIds_eq_ok.1 hids)
    fun _ _ _ hsplit _ hid => hearlier hsplit hid
  refine ⟨fun i s hs id hid => ?_, horder, fun w hw => ?_⟩
  · exact Step.exists_getElem?_of_earlier (fun _ _ _ hsplit _ hid => hearlier hsplit hid) hs hid
  · obtain ⟨-, -, rfl⟩ := Workflow.ofValue_eq_ok.1 hw
    exact horder

theorem orderByDependencies_convert_orders :
    convert orders .none = .ok (converted .none orderSteps) ∧
    Step.assertDistinctIds (Schema.read (converted .none orderSteps)).steps = .ok () ∧
    Step.order (Schema.read (converted .none orderSteps)).steps
        (Step.dependenciesIn (Step.dependencyMap (Schema.read (converted .none orderSteps)).steps)) =
      .ok (Schema.read (converted .none orderSteps)).steps :=
  have hv : convert orders .none = .ok (converted .none orderSteps) := by rfl
  have hids : Step.assertDistinctIds (Schema.read (converted .none orderSteps)).steps = .ok () := by
    rfl
  ⟨hv, hids, (orderByDependencies_convert hv hids).2.1⟩

end StepGraph.Legacy
