import StepGraph.Proofs.Related
import StepGraph.Proofs.Value.Equal

/-!
# Places in a value

A place is a way into a value, by indexes and keys (`Value.inside?`). Two values are alike inside if
they have the same places, with values of one type at each of them: any two lists and any two
mappings, but the same boolean, the same text and numbers of equal value.

* `deepEqual_iff_alikeInside`: values are equal exactly if they are alike inside. So a boolean
  stands only where the other value has the same one.
-/

set_option autoImplicit false

namespace StepGraph

theorem Entries.exists_find? {entries : Entries} {e : Scalar × Value} (h : e ∈ entries) :
    ∃ v, Entries.find? e.1 entries = some v := by
  induction entries with
  | nil => cases h
  | cons first rest ih =>
    unfold Entries.find?
    split
    · exact ⟨_, rfl⟩
    · rename_i hne
      rcases List.mem_cons.1 h with rfl | h
      · exact absurd (Scalar.sameKey_iff.2 rfl) hne
      · exact ih h

namespace Value

/-- A step into a value. -/
inductive Place
  | item (i : Nat)
  | entry (key : Scalar)

/-- What is found by going step by step into a value. -/
def inside? : List Place → Value → Option Value
  | [], v => some v
  | .item i :: rest, .list items => items[i]?.bind (inside? rest)
  | .entry k :: rest, .map entries => (Entries.find? k entries).bind (inside? rest)
  | _, _ => none

/-- Two values of one type: the same null, boolean or text, equal numbers, any two lists, any two
mappings. -/
inductive Alike : Value → Value → Prop
  | null : Alike .null .null
  | bool (b : Bool) : Alike (.bool b) (.bool b)
  | num {m n : Number} (h : m.sameValue n = true) : Alike (.num m) (.num n)
  | str (s : String) : Alike (.str s) (.str s)
  | list (items others : List Value) : Alike (.list items) (.list others)
  | map (entries others : Entries) : Alike (.map entries) (.map others)

/-- Two values have the same places, with values that are alike. -/
def AlikeInside (v w : Value) : Prop :=
  ∀ place, Option.Rel Alike (v.inside? place) (w.inside? place)

/-! ## Equal values are alike inside -/

section
variable {v w : Value}

theorem alike_scalar_iff {s : Scalar} :
    Alike (.scalar s) v ↔ ∃ t, v = .scalar t ∧ s.equal t = true := by
  constructor
  · intro h
    cases h with
    | null => exact ⟨_, rfl, rfl⟩
    | bool b => exact ⟨_, rfl, beq_self_eq_true b⟩
    | num h => exact ⟨_, rfl, h⟩
    | str s => exact ⟨_, rfl, beq_self_eq_true s⟩
  · rintro ⟨t, rfl, h⟩
    cases s with
    | null =>
      cases t with
      | null => exact .null
      | _ => cases h
    | bool b =>
      cases t with
      | bool c =>
        obtain rfl := eq_of_beq h
        exact .bool b
      | _ => cases h
    | num m =>
      cases t with
      | num n => exact .num h
      | _ => cases h
    | str s =>
      cases t with
      | str s' =>
        obtain rfl := eq_of_beq h
        exact .str s
      | _ => cases h

theorem deepEqual_alike (h : v.deepEqual w = true) : Alike v w := by
  cases v with
  | scalar s => exact alike_scalar_iff.2 (deepEqual_scalar_iff.1 h)
  | list items =>
    obtain ⟨others, rfl, -⟩ := deepEqual_list_iff.1 h
    exact .list items others
  | map entries =>
    obtain ⟨others, rfl, -⟩ := deepEqual_map_iff.1 h
    exact .map entries others

/-- Equal mappings have equal values under a key, or both none. -/
theorem deepEqual_find? {entries others : Entries}
    (h : (map entries).deepEqual (.map others) = true) (k : Scalar) :
    Option.Rel (fun v w => deepEqual v w = true) (Entries.find? k entries)
      (Entries.find? k others) := by
  obtain ⟨others, hothers, hback, hall⟩ := deepEqual_map_iff.1 h
  cases hothers
  cases hv : Entries.find? k entries with
  | some v =>
    obtain ⟨k', hmem, hkey⟩ := Entries.exists_mem_of_find? hv
    obtain ⟨w, hw, hvw⟩ := hall _ hmem
    rw [← Entries.find?_congr hkey others, hw]
    exact .some hvw
  | none =>
    cases hw : Entries.find? k others with
    | none => exact .none
    | some w =>
      obtain ⟨k', hmem, hkey⟩ := Entries.exists_mem_of_find? hw
      obtain ⟨v, hv'⟩ := hback _ hmem
      rw [Entries.find?_congr hkey entries, hv] at hv'
      cases hv'

/-- Equal lists have equal items at an index, or both none. -/
theorem deepEqual_getElem? {items others : List Value}
    (h : (list items).deepEqual (.list others) = true) (i : Nat) :
    Option.Rel (fun v w => deepEqual v w = true) items[i]? others[i]? := by
  obtain ⟨others, hothers, hitems⟩ := deepEqual_list_iff.1 h
  cases hothers
  exact forall₂_iff_getElem?.1 hitems i

theorem alikeInside_of_deepEqual (h : v.deepEqual w = true) : AlikeInside v w := by
  intro place
  induction place generalizing v w with
  | nil => exact .some (deepEqual_alike h)
  | cons step rest ih =>
    have hrest : ∀ {x y : Option Value}, Option.Rel (fun v w => deepEqual v w = true) x y →
        Option.Rel Alike (x.bind (inside? rest)) (y.bind (inside? rest)) := by
      intro x y hxy
      cases hxy with
      | none => exact .none
      | some hvw => exact ih hvw
    cases v with
    | scalar s =>
      obtain ⟨t, rfl, -⟩ := deepEqual_scalar_iff.1 h
      cases step <;> exact .none
    | list items =>
      obtain ⟨others, rfl, -⟩ := deepEqual_list_iff.1 h
      cases step with
      | item i => exact hrest (deepEqual_getElem? h i)
      | entry k => exact .none
    | map entries =>
      obtain ⟨others, rfl, -⟩ := deepEqual_map_iff.1 h
      cases step with
      | item i => exact .none
      | entry k => exact hrest (deepEqual_find? h k)

/-! ## Values that are alike inside -/

theorem AlikeInside.alike (h : AlikeInside v w) : Alike v w := by
  cases h [] with
  | some hvw => exact hvw

/-- What is found by one step into two values is related if it is wherever it is alike inside. -/
theorem AlikeInside.rel {R : Value → Value → Prop} {x y : Option Value}
    (h : ∀ rest, Option.Rel Alike (x.bind (inside? rest)) (y.bind (inside? rest)))
    (hR : ∀ v w, x = some v → AlikeInside v w → R v w) : Option.Rel R x y := by
  cases x with
  | none =>
    cases y with
    | none => exact .none
    | some w => cases h []
  | some v =>
    cases y with
    | none => cases h []
    | some w => exact .some (hR v w rfl h)

theorem deepEqual_map_of_find? {entries others : Entries} (hd : entries.Distinct)
    (h : ∀ k, Option.Rel (fun v w => deepEqual v w = true) (Entries.find? k entries)
      (Entries.find? k others)) : (map entries).deepEqual (.map others) = true := by
  refine deepEqual_map_iff.2 ⟨others, rfl, fun e he => ?_, fun e he => ?_⟩
  · have hrel := h e.1
    obtain ⟨w, hw⟩ := Entries.exists_find? he
    rw [hw] at hrel
    generalize Entries.find? e.1 entries = x at hrel ⊢
    cases hrel with
    | @some v _ _ => exact ⟨v, rfl⟩
  · have hrel := h e.1
    rw [hd.find? he] at hrel
    generalize Entries.find? e.1 others = x at hrel ⊢
    cases hrel with
    | @some _ w hvw => exact ⟨w, rfl, hvw⟩

theorem deepEqual_of_alikeInside (hk : v.DistinctKeys) (h : AlikeInside v w) :
    v.deepEqual w = true := by
  induction v using Value.induction generalizing w with
  | scalar s => exact deepEqual_scalar_iff.2 (alike_scalar_iff.1 h.alike)
  | list items ih =>
    have hitems := distinctKeys_list.1 hk
    cases h.alike with
    | list _ others =>
      refine deepEqual_list_iff.2 ⟨others, rfl, forall₂_iff_getElem?.2 fun i => ?_⟩
      refine AlikeInside.rel (fun rest => h (.item i :: rest)) fun v w hv hvw => ?_
      have hmem := List.mem_of_getElem? hv
      exact ih v hmem (hitems v hmem) hvw
  | map entries ih =>
    obtain ⟨hd, hinside⟩ := distinctKeys_map.1 hk
    cases h.alike with
    | map _ others =>
      refine deepEqual_map_of_find? hd fun k => ?_
      refine AlikeInside.rel (fun rest => h (.entry k :: rest)) fun v w hv hvw => ?_
      obtain ⟨k', hmem, -⟩ := Entries.exists_mem_of_find? hv
      exact ih _ hmem (hinside _ hmem) hvw

/-- Values are equal exactly if they have the same places and are alike at each of them. -/
theorem deepEqual_iff_alikeInside (hk : v.DistinctKeys) :
    v.deepEqual w = true ↔ AlikeInside v w :=
  ⟨alikeInside_of_deepEqual, deepEqual_of_alikeInside hk⟩

end

end Value

end StepGraph
