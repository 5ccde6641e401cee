import Mathlib.Logic.Relation
import StepGraph.Proofs.Value.Place

/-!
# Values that differ at one place

`Inside R` relates two values that are the same but for one place, at any depth, where they are
related by `R`. If equality holds between what is related by `R`, it holds between the two values
(`Inside.deepEqual`); if it never does, it does not (`Inside.not_deepEqual`).

* `deepEqual_equivalence`: on comparable values equality is an equivalence, and the order of keys is
  nothing to it, at any depth (`Reordered`); values are equal exactly if they are alike inside.
* `deepEqual_of_counted`: a value in which a boolean was replaced by the number that it counts as
  never equals the one before.
* `deepEqual_of_countedKey`: if the boolean was a key, the two values are equal. Keys are matched as
  the numbers that they count as, so equality does not tell them apart.
-/

set_option autoImplicit false

namespace StepGraph

theorem Entries.Distinct.replace {before after : Entries} {k k' : Scalar} {v w : Value}
    (h : Entries.Distinct (before ++ (k, v) :: after)) (hkey : k'.asKey = k.asKey) :
    Entries.Distinct (before ++ (k', w) :: after) := by
  simpa [Entries.Distinct, hkey] using h

namespace Value

/-- Two values that are the same but for one place, where they are related. -/
inductive Inside (R : Value → Value → Prop) : Value → Value → Prop
  | here {v w : Value} (h : R v w) : Inside R v w
  | item (before after : List Value) {v w : Value} (h : Inside R v w) :
      Inside R (.list (before ++ v :: after)) (.list (before ++ w :: after))
  | entry (before after : Entries) (k : Scalar) {v w : Value} (h : Inside R v w) :
      Inside R (.map (before ++ (k, v) :: after)) (.map (before ++ (k, w) :: after))

/-- A value in which nothing is NaN and no mapping has a key twice. -/
structure Comparable (v : Value) : Prop where
  noNaN : v.NoNaN
  distinctKeys : v.DistinctKeys

/-! ## Comparable values -/

section
variable {v w : Value} {items : List Value} {entries : Entries}

theorem Comparable.deepEqual_self (h : v.Comparable) : v.deepEqual v = true :=
  Value.deepEqual_self h.noNaN h.distinctKeys

theorem comparable_scalar {s : Scalar} : (scalar s).Comparable ↔ s.isNaN = false :=
  ⟨fun h => noNaN_scalar.1 h.noNaN, fun h => ⟨.scalar h, .scalar s⟩⟩

theorem comparable_list : (list items).Comparable ↔ ∀ v ∈ items, v.Comparable := by
  constructor
  · rintro ⟨hn, hk⟩ v hv
    exact ⟨noNaN_list.1 hn v hv, distinctKeys_list.1 hk v hv⟩
  · intro h
    exact ⟨.list fun v hv => (h v hv).noNaN, .list fun v hv => (h v hv).distinctKeys⟩

theorem comparable_map :
    (map entries).Comparable ↔ entries.Distinct ∧ ∀ e ∈ entries, e.2.Comparable := by
  constructor
  · rintro ⟨hn, hk⟩
    obtain ⟨hkeys, hk⟩ := distinctKeys_map.1 hk
    cases hn with
    | map hn => exact ⟨hkeys, fun e he => ⟨hn e he, hk e he⟩⟩
  · rintro ⟨hkeys, h⟩
    exact ⟨.map fun e he => (h e he).noNaN, .map hkeys fun e he => (h e he).distinctKeys⟩

end

/-! ## Mappings with the same keys -/

section
variable {entries others : Entries}

/-- Mappings are equal if each entry of one has an equal one under its key in the other. -/
theorem deepEqual_map_of_matched (hd : entries.Distinct) (hd' : others.Distinct)
    (h : ∀ e ∈ entries, ∃ e' ∈ others, e'.1.asKey = e.1.asKey ∧ e.2.deepEqual e'.2 = true)
    (h' : ∀ e' ∈ others, ∃ e ∈ entries, e.1.asKey = e'.1.asKey) :
    (map entries).deepEqual (.map others) = true := by
  refine deepEqual_map_iff.2 ⟨others, rfl, fun e' he' => ?_, fun e he => ?_⟩
  · obtain ⟨e, he, hkey⟩ := h' e' he'
    exact ⟨e.2, (Entries.find?_congr hkey entries).symm.trans (hd.find? he)⟩
  · obtain ⟨e', he', hkey, heq⟩ := h e he
    exact ⟨e'.2, (Entries.find?_congr hkey others).symm.trans (hd'.find? he'), heq⟩

/-- An entry may be replaced by an equal one under the same key. -/
theorem deepEqual_replace {before after : Entries} {k k' : Scalar} {v w : Value}
    (h : (map (before ++ (k, v) :: after)).Comparable) (hkey : k'.asKey = k.asKey)
    (hvw : v.deepEqual w = true) :
    (map (before ++ (k, v) :: after)).deepEqual (.map (before ++ (k', w) :: after)) = true := by
  obtain ⟨hd, hall⟩ := comparable_map.1 h
  rw [List.forall_mem_append, List.forall_mem_cons] at hall
  obtain ⟨hbefore, -, hafter⟩ := hall
  refine deepEqual_map_of_matched hd (hd.replace hkey) ?_ ?_
  · intro e he
    rcases List.mem_append.1 he with he | he
    · exact ⟨e, List.mem_append_left _ he, rfl, (hbefore e he).deepEqual_self⟩
    · rcases List.mem_cons.1 he with rfl | he
      · exact ⟨_, List.mem_append_right _ List.mem_cons_self, hkey, hvw⟩
      · exact ⟨e, List.mem_append_right _ (List.mem_cons_of_mem _ he), rfl,
          (hafter e he).deepEqual_self⟩
  · intro e he
    rcases List.mem_append.1 he with he | he
    · exact ⟨e, List.mem_append_left _ he, rfl⟩
    · rcases List.mem_cons.1 he with rfl | he
      · exact ⟨_, List.mem_append_right _ List.mem_cons_self, hkey.symm⟩
      · exact ⟨e, List.mem_append_right _ (List.mem_cons_of_mem _ he), rfl⟩

end

/-! ## One place -/

namespace Inside

variable {R : Value → Value → Prop} {v w : Value}

theorem comparable (hR : ∀ v w, R v w → v.Comparable → w.Comparable) (h : Inside R v w)
    (hv : v.Comparable) : w.Comparable := by
  induction h with
  | here h => exact hR _ _ h hv
  | item before after _ ih =>
    rw [comparable_list, List.forall_mem_append, List.forall_mem_cons] at hv ⊢
    exact ⟨hv.1, ih hv.2.1, hv.2.2⟩
  | entry before after k _ ih =>
    rw [comparable_map, List.forall_mem_append, List.forall_mem_cons] at hv ⊢
    exact ⟨hv.1.replace rfl, hv.2.1, ih hv.2.2.1, hv.2.2.2⟩

theorem deepEqual (hR : ∀ v w, R v w → v.Comparable → v.deepEqual w = true) (h : Inside R v w)
    (hv : v.Comparable) : v.deepEqual w = true := by
  have hself : ∀ items : List Value, (∀ v ∈ items, v.Comparable) →
      List.Forall₂ (fun v w => Value.deepEqual v w = true) items items := fun _ hitems =>
    List.forall₂_same.2 fun x hx => (hitems x hx).deepEqual_self
  induction h with
  | here h => exact hR _ _ h hv
  | item before after _ ih =>
    rw [comparable_list, List.forall_mem_append, List.forall_mem_cons] at hv
    obtain ⟨hbefore, hv, hafter⟩ := hv
    exact deepEqual_list_iff.2
      ⟨_, rfl, List.rel_append (hself before hbefore) (.cons (ih hv) (hself after hafter))⟩
  | entry before after k _ ih =>
    have hall := (comparable_map.1 hv).2
    rw [List.forall_mem_append, List.forall_mem_cons] at hall
    exact deepEqual_replace hv rfl (ih hall.2.1)

theorem not_deepEqual (hR : ∀ v w, R v w → v.deepEqual w = false) (h : Inside R v w)
    (hv : v.Comparable) : v.deepEqual w = false := by
  induction h with
  | here h => exact hR _ _ h
  | item before after _ ih =>
    rw [comparable_list, List.forall_mem_append, List.forall_mem_cons] at hv
    refine Bool.eq_false_iff.2 fun heq => ?_
    obtain ⟨others, hothers, hitems⟩ := deepEqual_list_iff.1 heq
    cases hothers
    have hrest := List.forall₂_drop before.length hitems
    rw [List.drop_left, List.drop_left] at hrest
    cases hrest with
    | cons hvw _ => exact Bool.eq_false_iff.1 (ih hv.2.1) hvw
  | entry before after k _ ih =>
    obtain ⟨hd, hall⟩ := comparable_map.1 hv
    rw [List.forall_mem_append, List.forall_mem_cons] at hall
    refine Bool.eq_false_iff.2 fun heq => ?_
    obtain ⟨others, hothers, -, hentries⟩ := deepEqual_map_iff.1 heq
    cases hothers
    obtain ⟨x, hx, hvx⟩ := hentries _ (List.mem_append_right _ List.mem_cons_self)
    -- under the key there is nothing but the other value
    rw [(hd.replace rfl).find? (List.mem_append_right _ List.mem_cons_self)] at hx
    obtain rfl := Option.some.inj hx
    exact Bool.eq_false_iff.1 (ih hall.2.1) hvx

end Inside

/-! ## The order of keys -/

/-- A mapping with its entries in another order. -/
inductive Permuted : Value → Value → Prop
  | map {entries others : Entries} (h : entries.Perm others) : Permuted (.map entries) (.map others)

/-- The same value with keys in another order, at any depth. -/
def Reordered : Value → Value → Prop :=
  Relation.ReflTransGen (Inside Permuted)

section
variable {v w : Value}

theorem Permuted.comparable (h : Permuted v w) (hv : v.Comparable) : w.Comparable := by
  cases h with
  | map h =>
    obtain ⟨hd, hall⟩ := comparable_map.1 hv
    exact comparable_map.2 ⟨(h.map _).nodup_iff.1 hd, fun e he => hall e (h.mem_iff.2 he)⟩

theorem Permuted.deepEqual (h : Permuted v w) (hv : v.Comparable) : v.deepEqual w = true := by
  have hw := h.comparable hv
  cases h with
  | map h =>
    obtain ⟨hd, hall⟩ := comparable_map.1 hv
    exact deepEqual_map_of_matched hd (comparable_map.1 hw).1
      (fun e he => ⟨e, h.mem_iff.1 he, rfl, (hall e he).deepEqual_self⟩)
      fun e he => ⟨e, h.mem_iff.2 he, rfl⟩

theorem Reordered.comparable (h : Reordered v w) (hv : v.Comparable) : w.Comparable := by
  induction h with
  | refl => exact hv
  | tail _ hstep ih => exact hstep.comparable (fun _ _ => Permuted.comparable) ih

theorem Reordered.deepEqual (h : Reordered v w) (hv : v.Comparable) : v.deepEqual w = true := by
  induction h with
  | refl => exact hv.deepEqual_self
  | tail hpath hstep ih =>
    exact deepEqual_trans ih
      (hstep.deepEqual (fun _ _ => Permuted.deepEqual) (Reordered.comparable hpath hv))

/-- Equality is an equivalence on comparable values, keys in another order change nothing about it,
and values are equal exactly if they are alike at every place. -/
theorem deepEqual_equivalence :
    Equivalence (fun v w : {v : Value // v.Comparable} => v.1.deepEqual w.1 = true) ∧
      (∀ v w v' w' : Value, v.Comparable → w.Comparable → v.Reordered v' → w.Reordered w' →
        v'.deepEqual w' = v.deepEqual w) ∧
      ∀ v w : Value, v.DistinctKeys → (v.deepEqual w = true ↔ AlikeInside v w) := by
  refine ⟨⟨fun v => v.2.deepEqual_self, fun {_ w} h => deepEqual_symm w.2.distinctKeys h,
    fun h h' => deepEqual_trans h h'⟩, fun v w v' w' hv hw hvv' hww' => ?_,
    fun v w => deepEqual_iff_alikeInside⟩
  have hv' := hvv'.deepEqual hv
  have hw' := hww'.deepEqual hw
  rw [Bool.eq_iff_iff]
  constructor
  · intro h
    have hback := deepEqual_symm (hww'.comparable hw).distinctKeys hw'
    exact deepEqual_trans (deepEqual_trans hv' h) hback
  · intro h
    have hback := deepEqual_symm (hvv'.comparable hv).distinctKeys hv'
    exact deepEqual_trans (deepEqual_trans hback h) hw'

/-- A mapping inside a list, with a number as one of its keys. -/
def limits : Value :=
  .map [(.str "on", .bool true),
    (.str "limits", .list [.map [(.int 1, .str "job"), (.str "pause", .int 2)]])]

/-- The same with both mappings turned around. -/
def limitsTurned : Value :=
  .map [(.str "limits", .list [.map [(.str "pause", .int 2), (.int 1, .str "job")]]),
    (.str "on", .bool true)]

/-- The same with a double for each number. -/
def limitsInDoubles : Value :=
  .map [(.str "on", .bool true),
    (.str "limits", .list [.map [(.float (.ofInt 1), .str "job"),
      (.str "pause", .float (.ofInt 2))]])]

theorem deepEqual_equivalence_limits :
    limits.Comparable ∧ limits.Reordered limitsTurned ∧ limits.deepEqual limitsInDoubles = true ∧
      limitsTurned.deepEqual limitsInDoubles = true ∧ AlikeInside limits limitsInDoubles := by
  have hdoubles : (Double.ofInt 1).isNaN = false ∧ (Double.ofInt 2).isNaN = false := by
    decide +kernel
  have hcomparable : limits.Comparable := by
    simp [limits, comparable_map, comparable_list, comparable_scalar, Entries.Distinct,
      Scalar.asKey, Scalar.isNaN, Number.isNaN]
  have hcomparable' : limitsInDoubles.Comparable := by
    simp [limitsInDoubles, comparable_map, comparable_list, comparable_scalar, Entries.Distinct,
      Scalar.asKey, Scalar.isNaN, Number.isNaN, hdoubles]
  have hinner : Inside Permuted limits (.map [(.str "on", .bool true),
      (.str "limits", .list [.map [(.str "pause", .int 2), (.int 1, .str "job")]])]) :=
    .entry [(.str "on", .bool true)] [] (.str "limits")
      (.item [] [] (.here (.map (.swap _ _ []))))
  have houter : Inside Permuted _ limitsTurned := .here (.map (.swap _ _ []))
  have hturned : limits.Reordered limitsTurned := .tail (.tail .refl hinner) houter
  have hequal : limits.deepEqual limitsInDoubles = true := by decide +kernel
  obtain ⟨-, hreordered, halike⟩ := deepEqual_equivalence
  have hsame := hreordered _ _ _ _ hcomparable hcomparable' hturned .refl
  exact ⟨hcomparable, hturned, hequal, hsame.trans hequal,
    (halike _ _ hcomparable.distinctKeys).1 hequal⟩

end

/-! ## Booleans and the numbers that they count as -/

/-- A boolean and a number that it counts as. -/
inductive Counted : Value → Value → Prop
  | bool {b : Bool} {n : Number} (h : (Scalar.bool b).sameKey (.num n) = true) :
      Counted (.bool b) (.num n)

/-- A mapping with a boolean key and with a number in its place. -/
inductive CountedKey : Value → Value → Prop
  | map (before after : Entries) {b : Bool} {n : Number} {v : Value}
      (h : (Scalar.bool b).sameKey (.num n) = true) :
      CountedKey (.map (before ++ (.bool b, v) :: after)) (.map (before ++ (.num n, v) :: after))

section
variable {v w : Value}

theorem deepEqual_of_counted (h : Inside Counted v w) (hv : v.Comparable) :
    v.deepEqual w = false ∧ w.deepEqual v = false := by
  have hvw : v.deepEqual w = false := h.not_deepEqual (fun _ _ h => by cases h; rfl) hv
  refine ⟨hvw, Bool.eq_false_iff.2 fun hwv => ?_⟩
  exact Bool.eq_false_iff.1 hvw (deepEqual_symm hv.distinctKeys hwv)

theorem deepEqual_of_countedKey (h : Inside CountedKey v w) (hv : v.Comparable) :
    v.deepEqual w = true := by
  refine h.deepEqual (fun v w hvw hv => ?_) hv
  cases hvw with
  | map before after hkey =>
    have hall := (comparable_map.1 hv).2
    rw [List.forall_mem_append, List.forall_mem_cons] at hall
    exact deepEqual_replace hv (Scalar.sameKey_iff.1 hkey).symm hall.2.1.deepEqual_self

example : (Value.map [(.bool true, .str "x")]).deepEqual (.map [(.int 1, .str "x")]) = true := by
  decide

end

end Value

end StepGraph
