import StepGraph.Cli.Run
import StepGraph.Proofs.Graph.Read
import StepGraph.Proofs.Graph.ToWorkflow
import StepGraph.Proofs.Legacy.Convert
import StepGraph.Proofs.Value.Loaded
import StepGraph.Proofs.Workflow.Compare
import StepGraph.Proofs.Workflow.Order

/-!
# Workflows that were read can be compared

Reading takes settings over from the value that is read, and the conversion of a legacy document
renames inputs one by one, so in the settings of a workflow no mapping has a key twice if none has
in the values that it comes from (`Workflow.DistinctKeys`). A value that was loaded is such a value.

* `Document.comparable_of_readChecked`, `Cli.comparable_of_read`: a workflow that was read from a
  document or from a graph file can be compared, unless something in its settings is NaN.
-/

set_option autoImplicit false

namespace StepGraph

open Value

/-- In the settings of a workflow no mapping has a key twice. -/
structure Workflow.DistinctKeys (w : Workflow) : Prop where
  trigger : (Value.record w.trigger.config).DistinctKeys
  step : ∀ s ∈ w.steps, (Value.record s.config).DistinctKeys

/-- Nothing in the settings of a workflow is NaN. -/
structure Workflow.NoNaN (w : Workflow) : Prop where
  trigger : (Value.record w.trigger.config).NoNaN
  step : ∀ s ∈ w.steps, (Value.record s.config).NoNaN

theorem Workflow.comparable {w : Workflow} (hids : w.stepIds.Nodup) (hn : w.NoNaN)
    (hk : w.DistinctKeys) : w.Comparable :=
  ⟨hids, ⟨hn.trigger, hk.trigger⟩, fun s hs => ⟨hn.step s hs, hk.step s hs⟩⟩

/-! ## Parts of a value -/

section
variable {entries : Entries} {name : String} {v : Value}

theorem Value.DistinctKeys.get? (h : (Value.map entries).DistinctKeys)
    (hv : entries.get? name = some v) : v.DistinctKeys := by
  obtain ⟨k, hmem, -⟩ := Entries.exists_mem_of_find? hv
  exact (distinctKeys_map.1 h).2 _ hmem

theorem Value.DistinctKeys.filter (h : (Value.map entries).DistinctKeys)
    (keep : Scalar × Value → Bool) : (Value.map (entries.filter keep)).DistinctKeys := by
  obtain ⟨hkeys, hinside⟩ := distinctKeys_map.1 h
  refine .map ?_ fun e he => hinside e (List.mem_of_mem_filter he)
  exact List.Nodup.sublist (List.filter_sublist.map _) hkeys

theorem Value.DistinctKeys.insert (h : (Value.map entries).DistinctKeys) (k : Scalar)
    (hv : v.DistinctKeys) : (Value.map (Entries.insert k v entries)).DistinctKeys := by
  obtain ⟨hkeys, hinside⟩ := distinctKeys_map.1 h
  exact distinctKeys_map.2 ⟨hkeys.insert k v, DistinctInside.insert hinside k hv⟩

theorem Value.DistinctKeys.fields (h : (Value.map entries).DistinctKeys) :
    (Value.record entries.fields).DistinctKeys := by
  rw [record_fields]
  exact h.filter _

end

namespace Schema

variable {v : Value}

theorem distinctKeys_get (h : v.DistinctKeys) (name : String) : (get v name).DistinctKeys := by
  cases v with
  | map entries =>
    rw [get, entriesOf]
    cases hv : Entries.get? entries name with
    | none => exact .scalar .null
    | some v => exact h.get? hv
  | _ => exact .scalar .null

theorem distinctKeys_itemsOf (h : v.DistinctKeys) : ∀ item ∈ itemsOf v, item.DistinctKeys := by
  cases v with
  | list items => exact distinctKeys_list.1 h
  | _ => exact List.forall_mem_nil _

theorem distinctKeys_readFields (h : v.DistinctKeys) : (record (readFields v)).DistinctKeys := by
  cases v with
  | map entries => exact h.fields
  | _ => exact distinctKeys_empty

theorem distinctKeys_read (h : v.DistinctKeys) : (read v).DistinctKeys where
  trigger := distinctKeys_readFields (distinctKeys_get (distinctKeys_get h "trigger") "config")
  step := by
    intro s hs
    obtain ⟨item, hitem, rfl⟩ := List.mem_map.1 hs
    have hstep := distinctKeys_itemsOf (distinctKeys_get h "steps") item hitem
    exact distinctKeys_readFields (distinctKeys_get hstep "config")

end Schema

theorem Workflow.distinctKeys_of_ofValue {raw : Value} {w : Workflow} (h : ofValue raw = .ok w)
    (hraw : raw.DistinctKeys) : w.DistinctKeys := by
  obtain ⟨-, -, rfl⟩ := ofValue_eq_ok.1 h
  exact Schema.distinctKeys_read hraw

/-! ## The legacy format -/

namespace Legacy

theorem distinctKeys_rename {entries : Entries} (h : (map entries).DistinctKeys)
    (old new : String) : (map (rename old new entries)).DistinctKeys := by
  unfold rename
  split
  · rename_i v hv
    exact (h.filter _).insert (.str new) (h.get? hv)
  · exact h

theorem distinctKeys_settings {type input config : Value} (h : input.DistinctKeys)
    (hconfig : settings type input = .ok config) : config.DistinctKeys := by
  cases input with
  | map entries =>
    obtain ⟨renames, -, hconfig⟩ := Attempt.bind_eq_ok.1 hconfig
    cases hconfig
    exact List.foldlRecOn (motive := fun entries => (map entries).DistinctKeys) renames _ h
      fun entries ih pair _ => distinctKeys_rename ih pair.1 pair.2
  | scalar s =>
    cases hconfig
    exact h
  | list items =>
    cases hconfig
    exact h

theorem distinctKeys_orElse {v other : Value} (h : v.DistinctKeys) (hother : other.DistinctKeys) :
    (orElse v other).DistinctKeys := by
  unfold orElse
  split
  · exact h
  · exact hother

theorem distinctKeys_fieldOf {block : Entries} (h : (map block).DistinctKeys) (name : String) :
    (fieldOf block name).DistinctKeys :=
  Schema.distinctKeys_get h name

/-- What was taken over from a block has no key twice. -/
structure Draft.DistinctKeys (d : Draft) : Prop where
  name : d.name.DistinctKeys
  type : d.type.DistinctKeys
  config : d.config.DistinctKeys

theorem Draft.DistinctKeys.toValue {d : Draft} (h : d.DistinctKeys) : d.toValue.DistinctKeys := by
  rw [Draft.toValue, distinctKeys_record]
  obtain ⟨id, name, type, config, dependsOn⟩ := d
  cases dependsOn <;> simp [optionalField, h.name, h.type, h.config, distinctKeys_texts]

theorem distinctKeys_draft {block : Entries} {id : String} {number : Nat} {parent : Option String}
    {d : Draft} (h : (map block).DistinctKeys) (hd : draft block id number parent = .ok d) :
    d.DistinctKeys := by
  obtain ⟨config, hconfig, hd⟩ := Attempt.bind_eq_ok.1 hd
  cases hd
  refine ⟨distinctKeys_orElse (distinctKeys_fieldOf h "name") (.scalar _), ?_, ?_⟩
  · have htype := distinctKeys_fieldOf h "type"
    unfold stepType
    split
    · exact .scalar _
    · exact htype
  · have hinput := distinctKeys_orElse (distinctKeys_fieldOf h "input") distinctKeys_empty
    exact distinctKeys_settings hinput hconfig

theorem distinctKeys_children {block : Entries} (h : (map block).DistinctKeys) (id : String)
    (path : Path) : ∀ q ∈ (children block id path).1, q.block.DistinctKeys := by
  intro q hq
  simp only [children, List.flatMap_map, List.mem_flatMap, childrenUnder_fst] at hq
  obtain ⟨key, -, hq⟩ := hq
  obtain ⟨item, hitem, rfl⟩ := List.mem_map.1 hq
  have hitems := Schema.distinctKeys_itemsOf (distinctKeys_fieldOf h key)
  exact hitems _ (List.fst_mem_of_mem_zipIdx hitem)

/-- A visit takes over from the pending blocks and from the blocks inside them. -/
theorem distinctKeys_visitBlocks {stem : String} {steps number : Nat} {pending : List Pending}
    {drafts : List Draft} {issues : List Issue} (h : ∀ q ∈ pending, q.block.DistinctKeys)
    (hvisit : visitBlocks stem steps number pending = .ok (drafts, issues)) :
    ∀ d ∈ drafts, d.DistinctKeys := by
  induction steps generalizing number pending drafts issues with
  | zero =>
    cases hvisit
    exact List.forall_mem_nil _
  | succ steps ih =>
    cases pending with
    | nil =>
      cases hvisit
      exact List.forall_mem_nil _
    | cons q rest =>
      obtain ⟨hq, hrest⟩ := List.forall_mem_cons.1 h
      rcases visitBlocks_cons hvisit with
        ⟨fields, d, ds, is, hblock, hd, hothers, rfl, -⟩ | ⟨is, hothers, -⟩
      · rw [hblock] at hq
        refine List.forall_mem_cons.2 ⟨distinctKeys_draft hq hd, ih ?_ hothers⟩
        exact List.forall_mem_append.2 ⟨distinctKeys_children hq _ _, hrest⟩
      · exact ih hrest hothers

theorem distinctKeys_stage {index : Nat} {v : Value} {drafts : List Draft} {issues : List Issue}
    (h : v.DistinctKeys) (hstage : stage index v = .ok (drafts, issues)) :
    ∀ d ∈ drafts, d.DistinctKeys := by
  unfold stage at hstage
  split at hstage
  · cases hstage
    exact List.forall_mem_nil _
  · dsimp only at hstage
    split at hstage
    · rename_i entries blocks hblocks
      have hv := distinctKeys_orElse (distinctKeys_fieldOf h "blocks")
        (.list (List.forall_mem_nil _))
      rw [hblocks] at hv
      obtain ⟨stem, -, hvisit⟩ := Attempt.bind_eq_ok.1 hstage
      refine distinctKeys_visitBlocks (fun q hq => ?_) hvisit
      obtain ⟨item, hitem, rfl⟩ := List.mem_map.1 hq
      exact distinctKeys_list.1 hv _ (List.fst_mem_of_mem_zipIdx hitem)
    · cases hstage
      exact List.forall_mem_nil _
  · cases hstage
    exact List.forall_mem_nil _

theorem distinctKeys_chain {previous : Option String} {drafts : List Draft}
    (h : ∀ d ∈ drafts, d.DistinctKeys) : ∀ d ∈ chain previous drafts, d.DistinctKeys := by
  cases drafts with
  | nil => exact h
  | cons first rest =>
    obtain ⟨hfirst, hrest⟩ := List.forall_mem_cons.1 h
    cases previous with
    | none => exact h
    | some id =>
      exact List.forall_mem_cons.2 ⟨⟨hfirst.name, hfirst.type, hfirst.config⟩, hrest⟩

theorem distinctKeys_stages {index : Nat} {previous : Option String} {stageList : List Value}
    {drafts : List Draft} {issues : List Issue} (h : ∀ v ∈ stageList, v.DistinctKeys)
    (hstages : stages index previous stageList = .ok (drafts, issues)) :
    ∀ d ∈ drafts, d.DistinctKeys := by
  induction stageList generalizing index previous drafts issues with
  | nil =>
    cases hstages
    exact List.forall_mem_nil _
  | cons v rest ih =>
    obtain ⟨hv, hrest⟩ := List.forall_mem_cons.1 h
    obtain ⟨⟨first, found⟩, hfirst, hstages⟩ := Attempt.bind_eq_ok.1 hstages
    obtain ⟨⟨others, more⟩, hothers, hstages⟩ := Attempt.bind_eq_ok.1 hstages
    cases hstages
    exact List.forall_mem_append.2
      ⟨distinctKeys_chain (distinctKeys_stage hv hfirst), ih hrest hothers⟩

/-- The parameters of an event source have no key twice. -/
def Source.DistinctKeys (source : Source) : Prop :=
  ∀ params, source.params = some params → params.DistinctKeys

theorem distinctKeys_converted {source : Source} (hsource : source.DistinctKeys)
    {drafts : List Draft} (h : ∀ d ∈ drafts, d.DistinctKeys) :
    (converted source drafts).DistinctKeys := by
  have hparams : (orElse (source.params.getD .null) (.map [])).DistinctKeys := by
    refine distinctKeys_orElse ?_ distinctKeys_empty
    cases hp : source.params with
    | none => exact .scalar .null
    | some params => exact hsource params hp
  have hsteps : ∀ v ∈ drafts.map Draft.toValue, v.DistinctKeys := by
    intro v hv
    obtain ⟨d, hd, rfl⟩ := List.mem_map.1 hv
    exact (h d hd).toValue
  have htrigger : (record [("type", .str (triggerKind source.type).word),
      ("config", orElse (source.params.getD .null) (.map []))]).DistinctKeys := by
    simp [hparams]
  refine distinctKeys_record.2 ⟨by simp, ?_⟩
  simp only [List.forall_mem_cons]
  exact ⟨.scalar _, htrigger, .list hsteps, List.forall_mem_nil _⟩

theorem distinctKeys_adapt {raw v : Value} {source : Source} {wasLegacy : Bool}
    (hraw : raw.DistinctKeys) (hsource : source.DistinctKeys)
    (h : adapt raw source = .ok (v, wasLegacy)) : v.DistinctKeys := by
  unfold adapt at h
  split at h
  · cases h
    exact hraw
  · obtain ⟨converted, hconverted, h⟩ := Attempt.bind_eq_ok.1 h
    cases h
    obtain ⟨drafts, hdrafts, rfl⟩ := convert_eq_ok.1 hconverted
    have hstages := Schema.distinctKeys_itemsOf (Schema.distinctKeys_get hraw "stages")
    refine distinctKeys_converted hsource ?_
    split
    · refine List.forall_mem_singleton.2 ⟨.scalar _, .scalar _, ?_⟩
      simp [placeholder]
    · exact distinctKeys_stages hstages hdrafts

end Legacy

/-! ## Graphs -/

namespace Graph

theorem distinctKeys_itemsOf {v : Value} {items : List Value} (h : v.DistinctKeys)
    (hitems : itemsOf v = .ok items) : ∀ item ∈ items, item.DistinctKeys := by
  have hscalars : ∀ {α : Type} (f : α → Scalar) (xs : List α),
      ∀ item ∈ xs.map (fun x => Value.scalar (f x)), item.DistinctKeys := by
    intro α f xs item hitem
    obtain ⟨x, -, rfl⟩ := List.mem_map.1 hitem
    exact .scalar _
  unfold itemsOf at hitems
  split at hitems
  · cases hitems
    exact distinctKeys_list.1 h
  · cases hitems
    exact hscalars Prod.fst _
  · cases hitems
    exact hscalars (fun c => .str (String.singleton c)) _
  · cases hitems

section
variable {entries : Entries} {path : Path}

/-- A field with a default has that, or what is read from a value of the mapping. -/
theorem optional_eq_ok {α : Type} {name : String} {default x : α}
    {check : Path → Value → Checked α} (h : optional entries name default path check = .ok x) :
    x = default ∨ ∃ v p, entries.get? name = some v ∧ check p v = .ok x := by
  unfold optional at h
  split at h
  · exact .inl (Except.ok.inj h).symm
  · rename_i v hv
    exact .inr ⟨v, _, hv, h⟩

theorem distinctKeys_settings {v : Value} {fields : Fields} (h : v.DistinctKeys)
    (hv : settings path v = .ok fields) : (Value.record fields).DistinctKeys := by
  unfold settings at hv
  split at hv
  · split at hv
    · cases hv
      exact h.fields
    · cases hv
  · cases hv

theorem distinctKeys_data {v : Value} {d : String × Fields} (h : v.DistinctKeys)
    (hd : data path v = .ok d) : (Value.record d.2).DistinctKeys := by
  cases v with
  | map entries =>
    obtain ⟨label, fields, -, hfields, rfl⟩ := both_eq_ok.1 hd
    rcases optional_eq_ok hfields with rfl | ⟨v, p, hv, hfields⟩
    · exact distinctKeys_empty
    · exact distinctKeys_settings (h.get? hv) hfields
  | _ => cases hd

theorem distinctKeys_node {v : Value} {n : Node} (h : v.DistinctKeys)
    (hn : node path v = .ok n) : (Value.record n.config).DistinctKeys := by
  cases v with
  | map entries =>
    obtain ⟨names, rest, -, hrest, rfl⟩ := both_eq_ok.1 hn
    obtain ⟨position, d, -, hd, rfl⟩ := both_eq_ok.1 hrest
    rcases optional_eq_ok hd with rfl | ⟨v, p, hv, hd⟩
    · exact distinctKeys_empty
    · exact distinctKeys_data (h.get? hv) hd
  | _ => cases hn

end

section
variable {config : Config} {raw : RawGraph} {w : Workflow}

theorem distinctKeys_read {nodes : List Node} {edges : List Edge} {v edgeValue : Value}
    (h : v.DistinctKeys) (hread : read v edgeValue = .ok (nodes, edges)) :
    ∀ n ∈ nodes, (Value.record n.config).DistinctKeys := by
  obtain ⟨items, hitems, hread⟩ := Attempt.bind_eq_ok.1 hread
  obtain ⟨edgeItems, -, hread⟩ := Attempt.bind_eq_ok.1 hread
  dsimp only at hread
  split at hread
  · rename_i graph hboth
    cases hread
    obtain ⟨_, _, hnodes, -, hpair⟩ := both_eq_ok.1 hboth
    cases hpair
    intro n hn
    obtain ⟨item, hitem, hnode⟩ :=
      exists_mem_of_forall₂ ((all_eq_ok pathFree_node).1 hnodes) hn
    have hnode' : node [] item = .ok n := pathFree_node.eq_ok.2 hnode
    exact distinctKeys_node (distinctKeys_itemsOf h hitems item hitem) hnode'
  · cases hread

theorem distinctKeys_toWorkflow (hnodes : raw.nodes.DistinctKeys)
    (htrigger : raw.trigger.DistinctKeys) (h : toWorkflow config raw = .ok w) :
    w.DistinctKeys := by
  obtain ⟨nodes, edges, steps, hread, hsteps, -, hordered, hw⟩ :=
    orderByDependencies_of_toWorkflow h
  refine ⟨?_, fun s hs => ?_⟩
  · obtain ⟨-, -, hread⟩ := Workflow.ofValue_eq_ok.1 hw
    have hget : Schema.get (rawWorkflow config raw w.steps) "trigger" = raw.trigger := by
      rw [rawWorkflow_eq, Schema.get_entries]
      simp [rawFields, lookup_cons_if]
    have hconfig : w.trigger.config = Schema.readFields (Schema.get raw.trigger "config") := by
      rw [congrArg Workflow.trigger hread, Schema.read, hget, Schema.readTrigger]
    rw [hconfig]
    exact Schema.distinctKeys_readFields (Schema.distinctKeys_get htrigger "config")
  · obtain ⟨n, hn, hs⟩ := mem_of_stepsOfNodes hsteps (Step.mem_of_order hordered hs)
    obtain ⟨p, -, rfl⟩ := stepOfNode_eq_ok.1 hs
    exact distinctKeys_read hnodes hread n hn

/-- A workflow that was made from a graph can be compared, unless something in it is NaN. -/
theorem comparable_of_toWorkflow (hnodes : raw.nodes.DistinctKeys)
    (htrigger : raw.trigger.DistinctKeys) (h : toWorkflow config raw = .ok w) (hn : w.NoNaN) :
    w.Comparable := by
  obtain ⟨nodes, edges, steps, -, -, -, hordered, -⟩ := orderByDependencies_of_toWorkflow h
  have hids : w.stepIds.Nodup := (Step.map_id_of_order hordered).1
  exact Workflow.comparable hids hn (distinctKeys_toWorkflow hnodes htrigger h)

end

end Graph

/-! ## Documents -/

namespace Document

variable {text : List Char} {source : Legacy.Source} {reading : Reading}

theorem distinctKeys_read (hsource : source.DistinctKeys) (h : read text source = .ok reading) :
    reading.workflow.DistinctKeys := by
  obtain ⟨raw, hload, h⟩ := Attempt.bind_eq_ok.1 h
  obtain ⟨⟨adapted, wasLegacy⟩, hadapt, h⟩ := Attempt.bind_eq_ok.1 h
  obtain ⟨w, hw, h⟩ := Attempt.bind_eq_ok.1 h
  cases h
  have hraw := Yaml.distinctKeys_read (Attempt.widen_eq_ok.1 hload)
  exact Workflow.distinctKeys_of_ofValue hw (Legacy.distinctKeys_adapt hraw hsource hadapt)

/-- A workflow that was read from a document can be compared, unless something in it is NaN. -/
theorem comparable_of_readChecked (hsource : source.DistinctKeys)
    (h : readChecked text source = .ok reading) (hn : reading.workflow.NoNaN) :
    reading.workflow.Comparable := by
  obtain ⟨reading, hread, h⟩ := Attempt.bind_eq_ok.1 h
  obtain ⟨⟨⟩, hdeps, h⟩ := Attempt.bind_eq_ok.1 h
  cases h
  exact Workflow.comparable (Step.assertDependencies_eq_ok.1 hdeps).1 hn
    (distinctKeys_read hsource hread)

end Document

/-! ## Graph files -/

theorem Cli.comparable_of_read {config : Config} {text : List Char} {fields : Entries}
    {w : Workflow} (hread : Json.read text = .ok (.map fields))
    (h : Graph.toWorkflow config (graphOfFields fields) = .ok w) (hn : w.NoNaN) :
    w.Comparable := by
  have hfields := Json.distinctKeys_read hread
  have hfield : ∀ name (default : Value), default.DistinctKeys →
      ((fields.get? name).getD default).DistinctKeys := by
    intro name default hdefault
    cases hv : fields.get? name with
    | none => exact hdefault
    | some v => exact hfields.get? hv
  exact Graph.comparable_of_toWorkflow (hfield "nodes" _ (.list (List.forall_mem_nil _)))
    (hfield "trigger" _ (.scalar .null)) h hn

end StepGraph
