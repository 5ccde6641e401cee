import StepGraph.Proofs.Legacy.Answers
import StepGraph.Proofs.Workflow.Issues

/-!
# The malformed places of a legacy document

A legacy document may hold something else where a stage, a list of blocks or a block should stand.
`MalformedIn` says, apart from the traversal, at which paths it does and what stands there;
`Precedes` is the order in which the traversal comes to the places.

* `Malformed.at?`, `MalformedStage.at?`: the path of a place leads to what stands there.
* `issueIn_map`: the places in a block are those of its own lists and of the blocks inside it, and
  the former come first (`precedes_children`).
* `pairwise_children_fst`: the blocks inside a block come one after the other.
-/

set_option autoImplicit false

namespace StepGraph.Legacy

open Value

/-! ## Malformed places -/

/-- At a path from a block on stands a value of another type than the one that should: the block is
no mapping, or what it has under a key for blocks is no list, or the same of a block inside it. -/
inductive Malformed : Value → Path → String → Value → Prop
  | block {v : Value} (hno : ∀ fields, v ≠ .map fields) : Malformed v [] "object" v
  | children {fields : Entries} {key : String} {v : Value} (hkey : key ∈ childKeys)
      (hv : field? fields key = some v) (hno : ∀ items, v ≠ .list items) :
      Malformed (.map fields) [.name key] "array" v
  | inside {fields : Entries} {key : String} {items : List Value} {i : Nat} {child v : Value}
      {path : Path} {type : String} (hkey : key ∈ childKeys)
      (hitems : field? fields key = some (.list items)) (hi : items[i]? = some child)
      (h : Malformed child path type v) :
      Malformed (.map fields) (.name key :: .index i :: path) type v

/-- The same from a stage on. A stage may be null, and without blocks in it. -/
inductive MalformedStage : Value → Path → String → Value → Prop
  | stage {v : Value} (hnull : v ≠ .null) (hno : ∀ fields, v ≠ .map fields) :
      MalformedStage v [] "object" v
  | blocks {fields : Entries} {v : Value} (hv : fields.get? "blocks" = some v)
      (hgiven : v.isGiven = true) (hno : ∀ items, v ≠ .list items) :
      MalformedStage (.map fields) [.name "blocks"] "array" v
  | inside {fields : Entries} {blocks : List Value} {i : Nat} {block v : Value} {path : Path}
      {type : String} (hblocks : fields.get? "blocks" = some (.list blocks))
      (hi : blocks[i]? = some block) (h : Malformed block path type v) :
      MalformedStage (.map fields) (.name "blocks" :: .index i :: path) type v

/-- The same from the root of a document on. -/
def MalformedIn (stageList : List Value) (path : Path) (type : String) (v : Value) : Prop :=
  ∃ (i : Nat) (stage : Value) (rest : Path), stageList[i]? = some stage ∧
    path = .name "stages" :: .index i :: rest ∧ MalformedStage stage rest type v

/-- The traversal comes to one place before another: stages and blocks one after the other, and in a
block first the lists that are none, then what is inside the others, each in the order of the
keys. -/
def Precedes : Path → Path → Prop
  | .index i :: p, .index j :: q => i < j ∨ i = j ∧ Precedes p q
  | .name a :: p, .name b :: q =>
    if a = b then Precedes p q
    else (p = [] ∧ q ≠ []) ∨ ((p = [] ↔ q = []) ∧ childKeys.idxOf a < childKeys.idxOf b)
  | _, _ => False

/-! ## Paths -/

theorem precedes_irrefl (p : Path) : ¬ Precedes p p := by
  induction p with
  | nil => exact id
  | cons part p ih => cases part <;> simp [Precedes, ih]

theorem precedes_append (base : Path) {p q : Path} (h : Precedes p q) :
    Precedes (base ++ p) (base ++ q) := by
  induction base with
  | nil => exact h
  | cons part base ih => cases part <;> simp [Precedes, ih]

/-- Everything from one path on comes before everything from another path on. -/
def Ahead (p q : Path) : Prop :=
  ∀ p' q', Precedes (p ++ p') (q ++ q')

theorem Ahead.append {p q : Path} (h : Ahead p q) (p' q' : Path) : Ahead (p ++ p') (q ++ q') :=
  fun r s => by
    rw [List.append_assoc, List.append_assoc]
    exact h _ _

theorem ahead_append (base : Path) {p q : Path} (h : Ahead p q) : Ahead (base ++ p) (base ++ q) :=
  fun r s => by
    rw [List.append_assoc, List.append_assoc]
    exact precedes_append base (h r s)

theorem ahead_index {i j : Nat} (h : i < j) : Ahead [.index i] [.index j] :=
  fun _ _ => .inl (Int.ofNat_lt.2 h)

theorem ahead_names {a b : String} (h : childKeys.idxOf a < childKeys.idxOf b) (i j : Nat) :
    Ahead [.name a, .index i] [.name b, .index j] := by
  have hne : a ≠ b := by
    rintro rfl
    exact Nat.lt_irrefl _ h
  intro p q
  simp [Precedes, hne, h]

theorem childKeys_pairwise :
    childKeys.Pairwise fun a b => childKeys.idxOf a < childKeys.idxOf b := by
  decide

theorem Malformed.at? {block v : Value} {path : Path} {type : String}
    (h : Malformed block path type v) : block.at? path = some v := by
  induction h with
  | block _ => cases v <;> rfl
  | children _ hv _ =>
    rw [Schema.at?_name]
    exact Schema.get?_of_field? hv
  | inside _ hitems hi _ ih =>
    simp [Value.at?, Schema.get?_of_field? hitems, hi, ih]

theorem MalformedStage.at? {stage v : Value} {path : Path} {type : String}
    (h : MalformedStage stage path type v) : stage.at? path = some v := by
  cases h with
  | stage _ _ => cases stage <;> rfl
  | blocks hv _ _ => rw [Schema.at?_name, hv]
  | inside hblocks hi h => simp [Value.at?, hblocks, hi, h.at?]

/-! ## What is found -/

/-- An issue of one of the places in a value that stands at a path. -/
def IssueIn (base : Path) (places : Path → String → Value → Prop) (i : Issue) : Prop :=
  ∃ path type v, places path type v ∧ i = .mistyped (base ++ path) type v

theorem IssueIn.path {base : Path} {places : Path → String → Value → Prop} {i : Issue}
    (h : IssueIn base places i) : ∃ path, i.path = base ++ path := by
  obtain ⟨path, type, v, -, rfl⟩ := h
  exact ⟨path, rfl⟩

/-- The issues are those with a property, in the order of the traversal. -/
structure Lists (P : Issue → Prop) (issues : List Issue) : Prop where
  mem_iff : ∀ i, i ∈ issues ↔ P i
  inOrder : issues.Pairwise fun i j => Precedes i.path j.path

section
variable {P Q : Issue → Prop} {issues others : List Issue}

theorem Lists.nil (h : ∀ i, ¬ P i) : Lists P [] :=
  ⟨fun i => iff_of_false List.not_mem_nil (h i), .nil⟩

theorem Lists.singleton {i : Issue} (h : ∀ j, P j ↔ j = i) : Lists P [i] :=
  ⟨fun j => List.mem_singleton.trans (h j).symm, List.pairwise_singleton _ _⟩

theorem Lists.congr (h : Lists P issues) (hPQ : ∀ i, P i ↔ Q i) : Lists Q issues :=
  ⟨fun i => (h.mem_iff i).trans (hPQ i), h.inOrder⟩

theorem Lists.append (h : Lists P issues) (h' : Lists Q others)
    (hbefore : ∀ i j, P i → Q j → Precedes i.path j.path) :
    Lists (fun i => P i ∨ Q i) (issues ++ others) where
  mem_iff i := by rw [List.mem_append, h.mem_iff, h'.mem_iff]
  inOrder := List.pairwise_append.2 ⟨h.inOrder, h'.inOrder, fun i hi j hj =>
    hbefore i j ((h.mem_iff i).1 hi) ((h'.mem_iff j).1 hj)⟩

end

/-! ## One block -/

theorem issueIn_other (base : Path) {block : Value} (hno : ∀ fields, block ≠ .map fields)
    (i : Issue) : IssueIn base (Malformed block) i ↔ i = .mistyped base "object" block := by
  constructor
  · rintro ⟨path, type, v, h, rfl⟩
    cases h with
    | block _ => rw [List.append_nil]
    | children _ _ _ => exact absurd rfl (hno _)
    | inside _ _ _ _ => exact absurd rfl (hno _)
  · rintro rfl
    exact ⟨[], "object", block, .block hno, by rw [List.append_nil]⟩

section
variable {fields : Entries} {id key : String} {path : Path} {i : Issue} {q : Pending}

theorem mem_childrenUnder_snd : i ∈ (childrenUnder fields id path key).2 ↔
    ∃ v, field? fields key = some v ∧ (∀ items, v ≠ .list items) ∧
      i = .mistyped (path ++ [.name key]) "array" v := by
  unfold childrenUnder
  split
  · rename_i hf
    simp [hf]
  · rename_i items hf
    simp [hf]
  · rename_i v hno hf
    simp only [List.mem_singleton, hf, Option.some.injEq, exists_eq_left']
    exact ⟨fun h => ⟨fun items hv => hno items hv, h⟩, fun h => h.2⟩

theorem mem_pendingItems {items : List Value} {parent : Option String} :
    q ∈ pendingItems items parent path ↔
      ∃ k child, items[k]? = some child ∧ q = ⟨child, parent, path ++ [.index (k : Nat)]⟩ := by
  simp only [pendingItems, List.mem_map, Prod.exists, List.mem_zipIdx_iff_getElem?]
  rw [exists_comm]
  simp only [eq_comm (b := q)]

theorem mem_childrenUnder_fst : q ∈ (childrenUnder fields id path key).1 ↔
    ∃ items k child, field? fields key = some (.list items) ∧ items[k]? = some child ∧
      q = ⟨child, some id, path ++ [.name key] ++ [.index (k : Nat)]⟩ := by
  unfold childrenUnder
  split
  · rename_i hf
    simp [hf]
  · rename_i items hf
    simp only [mem_pendingItems, hf, Option.some.injEq, Value.list.injEq, exists_and_left,
      exists_eq_left']
  · rename_i v hno hf
    simp only [hf, Option.some.injEq, List.not_mem_nil, false_iff]
    rintro ⟨items, k, child, rfl, -⟩
    exact hno items rfl

/-- The malformed places of a block are its own lists and those of the blocks inside it. -/
theorem issueIn_map (id : String) : IssueIn path (Malformed (.map fields)) i ↔
    i ∈ (children fields id path).2 ∨
      ∃ q ∈ (children fields id path).1, IssueIn q.path (Malformed q.block) i := by
  simp only [children, List.flatMap_map, List.mem_flatMap, mem_childrenUnder_snd,
    mem_childrenUnder_fst]
  constructor
  · rintro ⟨rest, type, v, h, rfl⟩
    cases h with
    | block hno => exact absurd rfl (hno fields)
    | children hkey hv hno => exact .inl ⟨_, hkey, v, hv, hno, rfl⟩
    | @inside _ key items k child _ rest _ hkey hitems hi h =>
      refine .inr ⟨_, ⟨key, hkey, items, k, child, hitems, hi, rfl⟩, rest, type, v, h, ?_⟩
      simp
  · rintro (⟨key, hkey, v, hv, hno, rfl⟩ | ⟨q, ⟨key, hkey, items, k, child, hitems, hi, rfl⟩,
      rest, type, v, h, rfl⟩)
    · exact ⟨_, _, v, .children hkey hv hno, rfl⟩
    · exact ⟨_, type, v, .inside hkey hitems hi h, by simp⟩

end

theorem pairwise_pendingItems (items : List Value) (parent : Option String) (path : Path) :
    (pendingItems items parent path).Pairwise fun q r => Ahead q.path r.path := by
  rw [pendingItems, List.pairwise_map]
  exact (Schema.pairwise_zipIdx items).imp fun h => ahead_append path (ahead_index h)

section
variable (fields : Entries) (id : String) (path : Path)

theorem map_block_children :
    (children fields id path).1.map Pending.block = inside (.map fields) := by
  simp only [children, List.flatMap_map, List.map_flatMap, childrenUnder_fst, inside, pendingItems,
    List.map_map, Function.comp_def]
  exact List.flatMap_congr fun key _ => List.zipIdx_map_fst 0 _

theorem pairwise_children_fst :
    (children fields id path).1.Pairwise fun q r => Ahead q.path r.path := by
  rw [children, List.flatMap_map, List.pairwise_flatMap]
  refine ⟨fun key _ => ?_, childKeys_pairwise.imp fun hlt q hq r hr => ?_⟩
  · rw [childrenUnder_fst]
    exact pairwise_pendingItems _ _ _
  · obtain ⟨_, k, _, _, _, rfl⟩ := mem_childrenUnder_fst.1 hq
    obtain ⟨_, l, _, _, _, rfl⟩ := mem_childrenUnder_fst.1 hr
    have h := ahead_append path (ahead_names hlt k l)
    simpa using h

theorem pairwise_children_snd :
    (children fields id path).2.Pairwise fun i j => Precedes i.path j.path := by
  simp only [children, List.flatMap_map, List.pairwise_flatMap]
  refine ⟨fun key _ => ?_, childKeys_pairwise.imp fun {a b} hlt i hi j hj => ?_⟩
  · unfold childrenUnder
    split
    · exact .nil
    · exact .nil
    · exact List.pairwise_singleton _ _
  · obtain ⟨_, _, _, rfl⟩ := mem_childrenUnder_snd.1 hi
    obtain ⟨_, _, _, rfl⟩ := mem_childrenUnder_snd.1 hj
    refine precedes_append path ?_
    have hne : a ≠ b := by
      rintro rfl
      exact Nat.lt_irrefl _ hlt
    simp [Precedes, hne, hlt]

/-- The lists of a block that are none come before everything in the blocks inside it. -/
theorem precedes_children {i : Issue} {q : Pending} (hi : i ∈ (children fields id path).2)
    (hq : q ∈ (children fields id path).1) (rest : Path) : Precedes i.path (q.path ++ rest) := by
  simp only [children, List.flatMap_map, List.mem_flatMap, mem_childrenUnder_snd,
    mem_childrenUnder_fst] at hi hq
  obtain ⟨a, ha, v, hv, hno, rfl⟩ := hi
  obtain ⟨b, hb, items, k, child, hitems, -, rfl⟩ := hq
  -- a key does not hold both a list and something else
  have hne : a ≠ b := by
    rintro rfl
    exact hno items (Option.some.inj (hv.symm.trans hitems))
  simp only [Issue.mistyped, List.append_assoc]
  refine precedes_append path ?_
  simp [Precedes, hne]

theorem path_of_mem_children {q : Pending} (hq : q ∈ (children fields id path).1) :
    ∃ rest, q.path = path ++ rest := by
  simp only [children, List.flatMap_map, List.mem_flatMap, mem_childrenUnder_fst] at hq
  obtain ⟨key, -, items, k, child, -, -, rfl⟩ := hq
  exact ⟨_, List.append_assoc _ _ _⟩

end

end StepGraph.Legacy
