import Mathlib.Data.List.Forall2
import StepGraph.Graph.Check
import StepGraph.Proofs.Value.Record

/-!
# Reading nodes and edges

A list is read item by item (`all_eq_ok`): the path under which a check reports does not matter for
the value that it gives (`pathFree_node`, `pathFree_edge`). Nodes and edges that were written are
read as they were (`node_toValue`, `edge_toValue`, `read_toValue`), whatever their ids, positions
and settings: none of the checks of `Graph.read` is about more than the types.
-/

set_option autoImplicit false

namespace StepGraph.Graph

/-! ## Reading items one by one -/

section
variable {α β γ : Type}

/-- The value that a check gives does not depend on the path under which it reports. -/
def PathFree (check : Path → Value → Checked α) : Prop :=
  ∀ p q v, (check p v).toOption = (check q v).toOption

theorem toOption_both {f : α → β → γ} {a a' : Checked α} {b b' : Checked β}
    (ha : a.toOption = a'.toOption) (hb : b.toOption = b'.toOption) :
    (Checked.both f a b).toOption = (Checked.both f a' b').toOption := by
  cases a <;> cases a' <;> cases ha <;> cases b <;> cases b' <;> cases hb <;> rfl

section
variable {check : Path → Value → Checked α} (h : PathFree check) (entries : Entries)
  (name : String) (p q : Path)
include h

theorem PathFree.required :
    (required entries name p check).toOption = (required entries name q check).toOption := by
  unfold Graph.required
  split
  · rfl
  · exact h _ _ _

theorem PathFree.optional (default : α) :
    (optional entries name default p check).toOption
      = (optional entries name default q check).toOption := by
  unfold Graph.optional
  split
  · rfl
  · exact h _ _ _

end

theorem pathFree_text : PathFree text := by
  intro p q v
  unfold text
  split <;> rfl

theorem pathFree_settings : PathFree settings := by
  intro p q v
  unfold settings
  split
  · split <;> rfl
  · rfl

theorem pathFree_coordinate : PathFree coordinate := by
  intro p q v
  unfold coordinate
  dsimp only
  split <;> rfl

theorem pathFree_position : PathFree position := by
  intro p q v
  cases v with
  | map entries =>
    exact toOption_both (pathFree_coordinate.required entries "x" p q)
      (pathFree_coordinate.required entries "y" p q)
  | scalar s => rfl
  | list items => rfl

theorem pathFree_data : PathFree data := by
  intro p q v
  cases v with
  | map entries =>
    exact toOption_both (pathFree_text.optional entries "label" p q _)
      (pathFree_settings.optional entries "config" p q _)
  | scalar s => rfl
  | list items => rfl

theorem pathFree_node : PathFree node := by
  intro p q v
  cases v with
  | map entries =>
    exact toOption_both
      (toOption_both (pathFree_text.required entries "id" p q)
        (pathFree_text.optional entries "type" p q _))
      (toOption_both (pathFree_position.optional entries "position" p q _)
        (pathFree_data.optional entries "data" p q _))
  | scalar s => rfl
  | list items => rfl

theorem pathFree_edge : PathFree edge := by
  intro p q v
  cases v with
  | map entries =>
    exact toOption_both
      (toOption_both (pathFree_text.optional entries "id" p q _)
        (toOption_both (pathFree_text.required entries "source" p q)
          (pathFree_text.required entries "target" p q)))
      (pathFree_text.optional entries "type" p q _)
  | scalar s => rfl
  | list items => rfl

theorem both_eq_ok {f : α → β → γ} {a : Checked α} {b : Checked β} {c : γ} :
    Checked.both f a b = .ok c ↔ ∃ x y, a = .ok x ∧ b = .ok y ∧ f x y = c := by
  cases a <;> cases b <;> simp [Checked.both]

theorem PathFree.eq_ok {check : Path → Value → Checked α} (h : PathFree check) {p : Path}
    {v : Value} {x : α} : check p v = .ok x ↔ (check [] v).toOption = some x := by
  rw [← h p [] v]
  cases check p v <;> simp [Except.toOption]

/-- A list is read if each item is. -/
theorem all_eq_ok {check : Path → Value → Checked α} (h : PathFree check) {path : Path}
    {items : List Value} {xs : List α} : Checked.all check path items = .ok xs ↔
      List.Forall₂ (fun v x => (check [] v).toOption = some x) items xs := by
  have hall : ∀ k xs, (items.zipIdx k).foldr (fun item rest => Checked.both List.cons
      (check (path ++ [.index (item.2 : Nat)]) item.1) rest) (.ok []) = .ok xs ↔
      List.Forall₂ (fun v x => (check [] v).toOption = some x) items xs := by
    induction items with
    | nil =>
      intro k xs
      rw [List.forall₂_nil_left_iff]
      exact ⟨fun h => (by cases h; rfl), fun h => (by rw [h]; rfl)⟩
    | cons v items ih =>
      intro k xs
      simp only [List.zipIdx_cons, List.foldr_cons, both_eq_ok, h.eq_ok, ih (k + 1),
        List.forall₂_cons_left_iff]
      refine exists_congr fun x => exists_congr fun rest => ?_
      rw [eq_comm (a := xs)]
  exact hall 0 xs

end

theorem read_list_eq_ok {nodeItems edgeItems : List Value} {nodes : List Node} {edges : List Edge} :
    read (.list nodeItems) (.list edgeItems) = .ok (nodes, edges) ↔
      Checked.all node [.name "nodes"] nodeItems = .ok nodes ∧
        Checked.all edge [.name "edges"] edgeItems = .ok edges := by
  have hboth : read (.list nodeItems) (.list edgeItems) = .ok (nodes, edges) ↔
      Checked.both Prod.mk (Checked.all node [.name "nodes"] nodeItems)
        (Checked.all edge [.name "edges"] edgeItems) = .ok (nodes, edges) := by
    simp only [read, itemsOf, bind, Except.bind]
    generalize Checked.both Prod.mk _ _ = checked
    cases checked with
    | ok graph => exact ⟨fun h => (by cases h; rfl), fun h => (by cases h; rfl)⟩
    | error issues => exact ⟨fun h => (by cases h), fun h => (by cases h)⟩
  rw [hboth, both_eq_ok]
  constructor
  · rintro ⟨_, _, hnodes, hedges, ⟨⟩⟩
    exact ⟨hnodes, hedges⟩
  · rintro ⟨hnodes, hedges⟩
    exact ⟨nodes, edges, hnodes, hedges, rfl⟩

/-! ## What was written -/

section
variable {α : Type} {fields : Fields} {name : String} {v : Value} {path : Path} {x : α}
  {check : Path → Value → Checked α}

theorem required_entries (hl : fields.lookup name = some v) (hc : ∀ path, check path v = .ok x) :
    required fields.entries name path check = .ok x := by
  rw [required, Value.get?_entries, hl]
  exact hc _

theorem optional_entries {default : α} (hl : fields.lookup name = some v)
    (hc : ∀ path, check path v = .ok x) :
    optional fields.entries name default path check = .ok x := by
  rw [optional, Value.get?_entries, hl]
  exact hc _

theorem required_text {s : String} (hl : fields.lookup name = some (.str s)) :
    required fields.entries name path text = .ok s :=
  required_entries hl fun _ => rfl

theorem optional_text {s default : String} (hl : fields.lookup name = some (.str s)) :
    optional fields.entries name default path text = .ok s :=
  optional_entries hl fun _ => rfl

theorem required_coordinate {n : Number} (hl : fields.lookup name = some (.num n)) :
    required fields.entries name path coordinate = .ok n :=
  required_entries hl fun _ => rfl

theorem all_map (hfree : PathFree check) {write : α → Value}
    (h : ∀ path x, check path (write x) = .ok x) (xs : List α) :
    Checked.all check path (xs.map write) = .ok xs := by
  rw [all_eq_ok hfree, List.forall₂_map_left_iff, List.forall₂_same]
  intro x _
  rw [h]
  rfl

end

theorem record_record (type : String) (path : Path) (fields : Fields) :
    record type path (.record fields) = .ok fields.entries := rfl

theorem settings_record (path : Path) (fields : Fields) :
    settings path (.record fields) = .ok fields := by
  have h : fields.entries.filter (!·.1.isString) = [] := by
    rw [List.filter_eq_nil_iff]
    intro entry hentry
    simp [Value.isString_of_mem_entries hentry]
  change settings path (.map fields.entries) = .ok fields
  simp only [settings, h, Value.fields_entries]

theorem position_toValue (path : Path) (p : Position) : position path p.toValue = .ok p := by
  simp only [position, Position.toValue, record_record, bind, Except.bind]
  rw [required_coordinate rfl, required_coordinate rfl]
  rfl

theorem data_record (path : Path) (label : String) (config : Fields) :
    data path (.record [("label", .str label), ("config", .record config)])
      = .ok (label, config) := by
  simp only [data, record_record, bind, Except.bind]
  rw [optional_text rfl, optional_entries rfl fun q => settings_record q config]
  rfl

theorem node_toValue (path : Path) (n : Node) : node path n.toValue = .ok n := by
  simp only [node, Node.toValue, record_record, bind, Except.bind]
  rw [required_text rfl, optional_text rfl,
    optional_entries rfl fun q => position_toValue q n.position,
    optional_entries rfl fun q => data_record q n.label n.config]
  rfl

theorem edge_toValue (path : Path) (e : Edge) : edge path e.toValue = .ok e := by
  simp only [edge, Edge.toValue, record_record, bind, Except.bind]
  rw [optional_text rfl, required_text rfl, required_text rfl, optional_text rfl]
  rfl

theorem read_toValue (nodes : List Node) (edges : List Edge) :
    read (.list (nodes.map Node.toValue)) (.list (edges.map Edge.toValue))
      = .ok (nodes, edges) :=
  read_list_eq_ok.2
    ⟨all_map pathFree_node node_toValue nodes, all_map pathFree_edge edge_toValue edges⟩

end StepGraph.Graph
