import Mathlib.Data.Prod.Lex
import StepGraph.Proofs.Workflow.Faults
import StepGraph.Proofs.Workflow.Places

/-!
# The issues of a document

The version, the trigger, each step and the metadata are the parts of a document. Issues come in the
order of the parts (`inOrder_issues`), and those of one part depend on what stands there and on
nothing else (`issues_part`).

* `issuesOf_reports`: the issues of a value that can be checked. There are none exactly if the
  value is a workflow in the format; otherwise they are at the broken places, in order, each place
  once but for keys that are no texts.
-/

set_option autoImplicit false

namespace StepGraph

/-- What stands at a path in a value. -/
def Value.at? : Value → Path → Option Value
  | v, [] => some v
  | .map entries, .name n :: rest => (Entries.get? entries n).bind fun v => v.at? rest
  | .list items, .index i :: rest =>
    if 0 ≤ i then items[i.toNat]?.bind fun v => v.at? rest else none
  | _, _ => none

namespace Schema

/-! ## The order of the document -/

/-- Where a path leads in a document: to the version, the trigger, the steps as a whole and one by
one, or the metadata. -/
def rank : Path → Nat × Nat
  | .name n :: rest =>
    if n = "version" then (0, 0)
    else if n = "trigger" then (1, 0)
    else if n = "steps" then
      match rest with
      | .index i :: _ => (2, i.toNat + 1)
      | _ => (2, 0)
    else (3, 0)
  | _ => (0, 0)

/-- Issues come in the order of the document. -/
def InOrder (found : List Issue) : Prop :=
  found.Pairwise fun a b => toLex (rank a.path) ≤ toLex (rank b.path)

theorem rank_step (i : Nat) (rest : Path) :
    rank (.name "steps" :: .index i :: rest) = (2, i + 1) := by
  simp [rank]

theorem rank_steps (rest : Path) : (rank (.name "steps" :: rest)).1 = 2 := by
  obtain _ | ⟨_ | _, _⟩ := rest <;> rfl

theorem inOrder_of_rank {found : List Issue} {r : Nat × Nat} (h : ∀ i ∈ found, rank i.path = r) :
    InOrder found :=
  List.pairwise_of_forall_mem_list fun a ha b hb => by rw [h a ha, h b hb]

theorem pairwise_zipIdx {α : Type} (items : List α) :
    items.zipIdx.Pairwise fun x y => x.2 < y.2 := by
  have hlt : (items.zipIdx.map Prod.snd).Pairwise (· < ·) := by
    rw [List.zipIdx_map_snd]
    exact List.pairwise_lt_range'
  exact List.pairwise_map.1 hlt

theorem inOrder_steps (entries : Entries) :
    InOrder (checkRequired entries "steps" [] (checkList checkStep)) := by
  unfold checkRequired checkList
  split
  · exact List.pairwise_singleton _ _
  · split
    · rename_i items _
      have hrank : ∀ x k, ∀ i ∈ checkStep ([] ++ [.name "steps"] ++ [.index (k : Nat)]) x,
          rank i.path = (2, k + 1) := by
        intro x k i hi
        obtain ⟨rest, hrest⟩ := reports_step.below _ _ i hi
        rw [hrest]
        exact rank_step k rest
      refine List.pairwise_flatMap.2 ⟨fun x _ => inOrder_of_rank fun i => hrank x.1 x.2 i, ?_⟩
      refine (pairwise_zipIdx items).imp fun hab i hi j hj => ?_
      rw [hrank _ _ i hi, hrank _ _ j hj]
      exact Prod.Lex.toLex_le_toLex.2 (.inr ⟨rfl, Nat.succ_le_succ hab.le⟩)
    · exact List.pairwise_singleton _ _

/-! ## The parts of a document -/

/-- The paths of the parts of a document. -/
inductive IsPart : Path → Prop
  | version : IsPart [.name "version"]
  | trigger : IsPart [.name "trigger"]
  | step (i : Nat) : IsPart [.name "steps", .index i]
  | metadata : IsPart [.name "metadata"]

/-- The issues in a part. -/
def issuesIn (part : Path) (found : List Issue) : List Issue :=
  found.filter fun i => part.isPrefixOf i.path

theorem issuesIn_append (part : Path) (found more : List Issue) :
    issuesIn part (found ++ more) = issuesIn part found ++ issuesIn part more :=
  List.filter_append ..

theorem issuesIn_eq_self {part : Path} {found : List Issue}
    (h : ∀ i ∈ found, ∃ rest, i.path = part ++ rest) : issuesIn part found = found := by
  refine List.filter_eq_self.2 fun i hi => ?_
  obtain ⟨rest, hrest⟩ := h i hi
  rw [hrest, List.isPrefixOf_iff_prefix]
  exact List.prefix_append part rest

section
variable {check : Path → Entries → List Issue} {B : Entries → Path → Prop} {name other : String}
  {entries : Entries}

/-- A field has no issues in the part of another field. -/
theorem issuesIn_other (h : ReportsIn [name] check B) (hne : other ≠ name) (rest : Path) :
    issuesIn (.name other :: rest) (check [] entries) = [] := by
  refine List.filter_eq_nil_iff.2 fun i hi hp => ?_
  obtain ⟨n, hn, tail, htail⟩ := h.named _ _ i hi
  obtain rfl := List.mem_singleton.1 hn
  rw [htail, List.isPrefixOf_iff_prefix, List.nil_append, List.cons_prefix_cons] at hp
  exact hne (PathPart.name.inj hp.1)

theorem issuesIn_own (h : ReportsIn [name] check B) :
    issuesIn [.name name] (check [] entries) = check [] entries :=
  issuesIn_eq_self fun i hi => by
    obtain ⟨n, hn, rest, hrest⟩ := h.named _ _ i hi
    obtain rfl := List.mem_singleton.1 hn
    exact ⟨rest, hrest⟩

end

/-- A step has no issues in the part of another step. -/
theorem issuesIn_item_ne {base : Path} {i k : Nat} {x : Value} (h : k ≠ i) :
    issuesIn (base ++ [.index (i : Nat)]) (checkStep (base ++ [.index (k : Nat)]) x) = [] := by
  refine List.filter_eq_nil_iff.2 fun j hj hp => ?_
  obtain ⟨rest, hrest⟩ := reports_step.below _ _ j hj
  rw [hrest, List.isPrefixOf_iff_prefix, List.append_assoc, List.prefix_append_right_inj,
    List.singleton_append, List.cons_prefix_cons] at hp
  exact h (Int.ofNat.inj (PathPart.index.inj hp.1)).symm

theorem issuesIn_checkList (base : Path) (items : List Value) (i : Nat) :
    issuesIn (base ++ [.index (i : Nat)]) (checkList checkStep base (.list items)) =
      (items[i]?.map (checkStep (base ++ [.index (i : Nat)]))).getD [] := by
  have hfrom : ∀ k, issuesIn (base ++ [.index (i : Nat)]) ((items.zipIdx k).flatMap fun item =>
      checkStep (base ++ [.index (item.2 : Nat)]) item.1) =
      if k ≤ i then (items[i - k]?.map (checkStep (base ++ [.index (i : Nat)]))).getD [] else [] := by
    induction items with
    | nil => intro k; simp [issuesIn]
    | cons x items ih =>
      intro k
      rw [List.zipIdx_cons, List.flatMap_cons, issuesIn_append, ih]
      rcases Nat.lt_trichotomy k i with hlt | rfl | hlt
      · rw [issuesIn_item_ne (Nat.ne_of_lt hlt), if_pos (Nat.succ_le_of_lt hlt),
          if_pos hlt.le, List.nil_append, List.getElem?_cons, if_neg (by omega), Nat.sub_sub]
      · rw [if_neg (by omega), if_pos le_rfl, Nat.sub_self, List.append_nil]
        exact issuesIn_eq_self fun j hj => reports_step.below _ _ j hj
      · rw [issuesIn_item_ne (Nat.ne_of_gt hlt), if_neg (by omega), if_neg (by omega)]; rfl
  exact hfrom 0

/-- The issues in a step are those of the item that stands there, if one does. -/
theorem issuesIn_steps (entries : Entries) (i : Nat) :
    issuesIn [.name "steps", .index (i : Nat)]
        (checkRequired entries "steps" [] (checkList checkStep)) =
      (((Value.map entries).at? [.name "steps", .index (i : Nat)]).map
        (checkStep [.name "steps", .index (i : Nat)])).getD [] := by
  unfold checkRequired
  cases hg : entries.get? "steps" with
  | none => simp [Value.at?, hg, issuesIn]
  | some v =>
    cases v with
    | list items =>
      have hat : (Value.map entries).at? [.name "steps", .index (i : Nat)] = items[i]? := by
        cases hi : items[i]? <;> simp [Value.at?, hg, hi]
      rw [hat]
      exact issuesIn_checkList [.name "steps"] items i
    | scalar s => simp [Value.at?, hg, checkList, issuesIn, Issue.mistyped]
    | map es => simp [Value.at?, hg, checkList, issuesIn, Issue.mistyped]

section
variable (entries : Entries)

theorem issues_map : issues (.map entries) =
    checkRequired entries "version" [] checkText ++ checkRequired entries "trigger" [] checkTrigger
      ++ checkRequired entries "steps" [] (checkList checkStep)
      ++ checkOptional entries "metadata" [] checkMetadata := rfl

theorem issuesIn_version : issuesIn [.name "version"] (issues (.map entries)) =
    checkRequired entries "version" [] checkText := by
  simp only [issues_map, issuesIn_append, issuesIn_own (reports_text.required "version"),
    issuesIn_other (reports_trigger.required "trigger") (by decide : "version" ≠ "trigger"),
    issuesIn_other (reports_step.items.required "steps") (by decide : "version" ≠ "steps"),
    issuesIn_other (reports_metadata.optional "metadata") (by decide : "version" ≠ "metadata"),
    List.append_nil]

theorem issuesIn_trigger : issuesIn [.name "trigger"] (issues (.map entries)) =
    checkRequired entries "trigger" [] checkTrigger := by
  simp only [issues_map, issuesIn_append, issuesIn_own (reports_trigger.required "trigger"),
    issuesIn_other (reports_text.required "version") (by decide : "trigger" ≠ "version"),
    issuesIn_other (reports_step.items.required "steps") (by decide : "trigger" ≠ "steps"),
    issuesIn_other (reports_metadata.optional "metadata") (by decide : "trigger" ≠ "metadata"),
    List.append_nil, List.nil_append]

theorem issuesIn_metadata : issuesIn [.name "metadata"] (issues (.map entries)) =
    checkOptional entries "metadata" [] checkMetadata := by
  simp only [issues_map, issuesIn_append, issuesIn_own (reports_metadata.optional "metadata"),
    issuesIn_other (reports_text.required "version") (by decide : "metadata" ≠ "version"),
    issuesIn_other (reports_trigger.required "trigger") (by decide : "metadata" ≠ "trigger"),
    issuesIn_other (reports_step.items.required "steps") (by decide : "metadata" ≠ "steps"),
    List.nil_append]

theorem issuesIn_step (i : Nat) : issuesIn [.name "steps", .index (i : Nat)] (issues (.map entries)) =
    (((Value.map entries).at? [.name "steps", .index (i : Nat)]).map
      (checkStep [.name "steps", .index (i : Nat)])).getD [] := by
  simp only [issues_map, issuesIn_append, issuesIn_steps,
    issuesIn_other (reports_text.required "version") (by decide : "steps" ≠ "version"),
    issuesIn_other (reports_trigger.required "trigger") (by decide : "steps" ≠ "trigger"),
    issuesIn_other (reports_metadata.optional "metadata") (by decide : "steps" ≠ "metadata"),
    List.append_nil, List.nil_append]

end

theorem at?_name (entries : Entries) (name : String) :
    (Value.map entries).at? [.name name] = entries.get? name := by
  cases h : entries.get? name <;> simp [Value.at?, h]

/-- The issues in a part depend on what stands there. -/
theorem issues_part {entries others : Entries} {part : Path} (hp : IsPart part)
    (h : (Value.map entries).at? part = (Value.map others).at? part) :
    issuesIn part (issues (.map entries)) = issuesIn part (issues (.map others)) := by
  cases hp with
  | version =>
    rw [at?_name, at?_name] at h
    rw [issuesIn_version, issuesIn_version, checkRequired, checkRequired, h]
  | trigger =>
    rw [at?_name, at?_name] at h
    rw [issuesIn_trigger, issuesIn_trigger, checkRequired, checkRequired, h]
  | step i => rw [issuesIn_step, issuesIn_step, h]
  | metadata =>
    rw [at?_name, at?_name] at h
    rw [issuesIn_metadata, issuesIn_metadata, checkOptional, checkOptional, Value.field?,
      Value.field?, h]

/-! ## The whole -/

/-- The issues of a document that stands at a path. -/
def issuesAt (base : Path) : Value → List Issue
  | .map entries =>
    checkRequired entries "version" base checkText ++ checkRequired entries "trigger" base checkTrigger
      ++ checkRequired entries "steps" base (checkList checkStep)
      ++ checkOptional entries "metadata" base checkMetadata
  | v => [.mistyped base "object" v]

theorem issuesAt_nil (v : Value) : issuesAt [] v = issues v := by
  cases v <;> rfl

theorem reports_issuesAt : Reports issuesAt Broken :=
  ((((reports_text.required "version").append (reports_trigger.required "trigger")
    (by decide)).append (reports_step.items.required "steps")
    (by decide)).append (reports_metadata.optional "metadata")
    (by decide)).mapping (fun _ _ => rfl) fun base v hno => by
    unfold issuesAt
    split
    · exact absurd rfl (hno _)
    · rfl

theorem mem_issues_iff (v : Value) (path : Path) :
    (∃ i ∈ issues v, i.path = path) ↔ Broken v path := by
  rw [← issuesAt_nil]
  exact reports_issuesAt.places [] v path

theorem once_issues (v : Value) : Once (issues v) := by
  rw [← issuesAt_nil]
  exact reports_issuesAt.once [] v

/-- The issues of a field lead to one place in the document, except those of the steps. -/
theorem rank_field {check : Path → Entries → List Issue} {B : Entries → Path → Prop} {name : String}
    (h : ReportsIn [name] check B) {P : Nat × Nat → Prop} (hP : ∀ rest, P (rank (.name name :: rest)))
    (entries : Entries) : ∀ i ∈ check [] entries, P (rank i.path) := by
  intro i hi
  obtain ⟨n, hn, rest, hrest⟩ := h.named _ _ i hi
  obtain rfl := List.mem_singleton.1 hn
  rw [hrest]
  exact hP rest

theorem inOrder_append {found more : List Issue} {r : Nat} (hf : InOrder found) (hm : InOrder more)
    (hlow : ∀ i ∈ found, (rank i.path).1 < r) (hhigh : ∀ i ∈ more, (rank i.path).1 = r) :
    InOrder (found ++ more) :=
  List.pairwise_append.2 ⟨hf, hm, fun i hi j hj =>
    Prod.Lex.toLex_le_toLex.2 (.inl (by rw [hhigh j hj]; exact hlow i hi))⟩

theorem inOrder_issues (v : Value) : InOrder (issues v) := by
  cases v with
  | scalar s => exact List.pairwise_singleton _ _
  | list items => exact List.pairwise_singleton _ _
  | map entries =>
    have hversion := rank_field (reports_text.required "version") (P := (· = (0, 0)))
      (fun _ => rfl) entries
    have htrigger := rank_field (reports_trigger.required "trigger") (P := (· = (1, 0)))
      (fun _ => rfl) entries
    have hsteps := rank_field (reports_step.items.required "steps") (P := (·.1 = 2))
      rank_steps entries
    have hmetadata := rank_field (reports_metadata.optional "metadata") (P := (· = (3, 0)))
      (fun _ => rfl) entries
    rw [issues_map]
    have h₁ := inOrder_append (r := 1) (inOrder_of_rank hversion) (inOrder_of_rank htrigger)
      (fun i hi => by rw [hversion i hi]; decide) (fun i hi => by rw [htrigger i hi])
    have h₂ := inOrder_append (r := 2) h₁ (inOrder_steps entries)
      (List.forall_mem_append.2 ⟨fun i hi => by rw [hversion i hi]; decide,
        fun i hi => by rw [htrigger i hi]; decide⟩) hsteps
    exact inOrder_append (r := 3) h₂ (inOrder_of_rank hmetadata)
      (List.forall_mem_append.2 ⟨List.forall_mem_append.2
        ⟨fun i hi => by rw [hversion i hi]; decide, fun i hi => by rw [htrigger i hi]; decide⟩,
        fun i hi => by rw [hsteps i hi]; decide⟩) fun i hi => by rw [hmetadata i hi]

end Schema

namespace Workflow

open Schema

/-- A value that can be checked has no issues exactly if it is a workflow in the format. Otherwise
the issues are at the broken places, in the order of the document, and at each place once but for
keys that are no texts. The issues in a part depend on what stands there alone. -/
theorem issuesOf_reports {raw : Value} (h : Checkable raw) :
    ∃ found, issuesOf raw = .ok found ∧
      (found = [] ↔ ∃ entries, raw = .map entries ∧ IsWorkflow entries) ∧
      (∀ path, (∃ i ∈ found, i.path = path) ↔ Broken raw path) ∧
      InOrder found ∧ Once found ∧
      ∀ entries others part more, raw = .map entries → IsPart part →
        (Value.map entries).at? part = (Value.map others).at? part →
        issuesOf (.map others) = .ok more → issuesIn part found = issuesIn part more := by
  refine ⟨issues raw, issuesOf_eq_ok.2 ⟨h, rfl⟩, issues_eq_nil, mem_issues_iff raw,
    inOrder_issues raw, once_issues raw, ?_⟩
  rintro entries others part more rfl hp hat hmore
  obtain ⟨-, rfl⟩ := issuesOf_eq_ok.1 hmore
  exact issues_part hp hat

/-- No version, a trigger of no known kind with a key that is no text, a step with a bad id, a step
that is none, and tags that are no list. -/
def draft : Value :=
  .record
    [("trigger", .record [("type", .str "cron"), ("config", .map [(.int 1, .null)])]),
      ("steps", .list
        [.record [("id", .str "a b"), ("name", .str "A"), ("type", .str "t"), ("config", .map [])],
          .null]),
      ("metadata", .record [("tags", .str "x")])]

theorem issuesOf_reports_draft :
    Checkable draft ∧ ∃ found, issuesOf draft = .ok found ∧
      found.map Issue.dotted = ["version", "trigger.type", "trigger.config.1", "steps.0.id",
        "steps.1", "metadata.tags"] ∧ InOrder found := by
  have h : Checkable draft := faults_eq_nil.1 (by decide +kernel)
  obtain ⟨found, hfound, -, -, horder, -⟩ := issuesOf_reports h
  obtain ⟨-, rfl⟩ := issuesOf_eq_ok.1 hfound
  exact ⟨h, _, hfound, by decide +kernel, horder⟩

end Workflow

end StepGraph
