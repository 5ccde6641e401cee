import Mathlib.Data.List.Nodup
import StepGraph.Proofs.Related
import StepGraph.Proofs.Value.Record
import StepGraph.Value.Equal

/-!
# Equality of values is an equivalence

`Value.deepEqual` is taken apart into what it asks of a scalar, of items and of entries
(`deepEqual_scalar_iff`, `deepEqual_list_iff`, `deepEqual_map_iff`). Entries are found by their
keys, so their places do not matter. In a mapping that is put together key by key no key comes twice
(`Entries.distinct_ofPairs`).

* `deepEqual_trans`: equality is transitive on all values.
* `deepEqual_symm`: it is symmetric where no mapping has a key twice.
* `deepEqual_self`: it is reflexive where moreover no value is NaN.
-/

set_option autoImplicit false

namespace StepGraph

/-! ## Scalars -/

namespace Scalar

def isNaN : Scalar → Bool
  | .num n => n.isNaN
  | _ => false

variable {a b c : Scalar}

theorem sameKey_iff : a.sameKey b = true ↔ a.asKey = b.asKey :=
  beq_iff_eq

theorem equal_self (h : a.isNaN = false) : a.equal a = true := by
  cases a with
  | num n =>
    have hn : n.isNaN = false := h
    simp [equal, Number.sameValue, hn]
  | _ => simp [equal]

/-- Not a number equals nothing. -/
theorem isNaN_of_equal (h : a.equal b = true) : a.isNaN = false := by
  cases a <;> cases b <;> simp_all [equal, isNaN, Number.sameValue]

theorem equal_symm (h : a.equal b = true) : b.equal a = true := by
  cases a <;> cases b <;> simp_all [equal, Number.sameValue]

theorem equal_trans (h : a.equal b = true) (h' : b.equal c = true) : a.equal c = true := by
  cases a <;> cases b <;> cases c <;> simp_all [equal, Number.sameValue]

end Scalar

/-! ## Entries -/

namespace Entries

variable {entries others : Entries} {k k' : Scalar} {v : Value}

/-- No key comes twice. -/
def Distinct (entries : Entries) : Prop :=
  (entries.map fun entry => entry.1.asKey).Nodup

theorem find?_congr (h : k.asKey = k'.asKey) (entries : Entries) :
    find? k entries = find? k' entries := by
  induction entries with
  | nil => rfl
  | cons entry rest ih =>
    have hkey : entry.1.sameKey k = entry.1.sameKey k' := by rw [Scalar.sameKey, Scalar.sameKey, h]
    rw [find?, find?, hkey, ih]

theorem exists_mem_of_find? (h : find? k entries = some v) :
    ∃ k', (k', v) ∈ entries ∧ k'.asKey = k.asKey := by
  induction entries with
  | nil => cases h
  | cons entry rest ih =>
    unfold find? at h
    split at h
    · rename_i hk
      cases h
      exact ⟨entry.1, List.mem_cons_self, Scalar.sameKey_iff.1 hk⟩
    · obtain ⟨k', hk', hkey⟩ := ih h
      exact ⟨k', List.mem_cons_of_mem _ hk', hkey⟩

theorem Distinct.find? (h : entries.Distinct) (hv : (k, v) ∈ entries) :
    find? k entries = some v := by
  induction entries with
  | nil => cases hv
  | cons entry rest ih =>
    obtain ⟨hentry, hrest⟩ := List.nodup_cons.1 h
    rcases List.mem_cons.1 hv with rfl | hv
    · exact if_pos (Scalar.sameKey_iff.2 rfl)
    · have hne : ¬ entry.1.sameKey k = true := fun hk =>
        hentry (List.mem_map.2 ⟨(k, v), hv, (Scalar.sameKey_iff.1 hk).symm⟩)
      exact (if_neg hne).trans (ih hrest hv)

theorem map_asKey_insert (k : Scalar) (v : Value) (entries : Entries) :
    (insert k v entries).map (fun entry => entry.1.asKey) =
      if k.asKey ∈ entries.map (fun entry => entry.1.asKey)
      then entries.map fun entry => entry.1.asKey
      else entries.map (fun entry => entry.1.asKey) ++ [k.asKey] := by
  induction entries with
  | nil => rfl
  | cons entry rest ih =>
    by_cases hk : entry.1.asKey = k.asKey
    · simp [insert, Scalar.sameKey, hk]
    · simp only [insert, Scalar.sameKey, beq_iff_eq, hk, if_false, List.map_cons, ih, List.mem_cons,
        Ne.symm hk, false_or]
      split <;> rfl

theorem Distinct.insert (h : entries.Distinct) (k : Scalar) (v : Value) :
    Distinct (insert k v entries) := by
  rw [Distinct, map_asKey_insert]
  split
  · exact h
  · rename_i hk
    refine List.nodup_append.2 ⟨h, List.nodup_singleton _, fun a ha b hb hab => hk ?_⟩
    rwa [← List.mem_singleton.1 hb, ← hab]

/-- A mapping that is put together key by key has no key twice. -/
theorem distinct_ofPairs (pairs : List (Scalar × Value)) : Distinct (ofPairs pairs) := by
  suffices h : ∀ entries : Entries, entries.Distinct →
      Distinct (pairs.foldl (fun entries pair => insert pair.1 pair.2 entries) entries) from
    h [] .nil
  induction pairs with
  | nil => exact fun _ h => h
  | cons pair pairs ih => exact fun entries h => ih _ (h.insert pair.1 pair.2)

theorem insert_of_notMem (h : k.asKey ∉ entries.map fun entry => entry.1.asKey) :
    insert k v entries = entries ++ [(k, v)] := by
  induction entries with
  | nil => rfl
  | cons entry rest ih =>
    obtain ⟨hentry, hrest⟩ := not_or.1 (mt List.mem_cons.2 h)
    have hkey : ¬ entry.1.sameKey k = true := fun hk => hentry (Scalar.sameKey_iff.1 hk).symm
    rw [insert, if_neg hkey, ih hrest, List.cons_append]

/-- Pairs with different keys are the entries that they leave. -/
theorem ofPairs_of_distinct {pairs : List (Scalar × Value)} (h : Distinct pairs) :
    ofPairs pairs = pairs := by
  suffices hfold : ∀ entries : Entries, Distinct (entries ++ pairs) →
      pairs.foldl (fun entries pair => insert pair.1 pair.2 entries) entries = entries ++ pairs from
    hfold [] h
  clear h
  induction pairs with
  | nil => exact fun entries _ => (List.append_nil entries).symm
  | cons pair pairs ih =>
    intro entries h
    have hnew : pair.1.asKey ∉ entries.map fun entry => entry.1.asKey := by
      intro hmem
      rw [Distinct, List.map_append, List.map_cons] at h
      exact (List.nodup_append.1 h).2.2 _ hmem _ List.mem_cons_self rfl
    rw [List.append_cons] at h ⊢
    rw [List.foldl_cons, insert_of_notMem hnew, ih _ h]

theorem sameKeys_iff : sameKeys entries others = true ↔
    (∀ e ∈ entries, ∃ w, Entries.find? e.1 others = some w) ∧
      ∀ e ∈ others, ∃ v, Entries.find? e.1 entries = some v := by
  simp [sameKeys, keysWithin, hasKey, Option.isSome_iff_exists]

end Entries

/-! ## Values -/

namespace Value

/-- What holds of a value if it holds of the items and of the values of the entries in it. -/
theorem induction {P : Value → Prop} (scalar : ∀ s, P (.scalar s))
    (list : ∀ items, (∀ v ∈ items, P v) → P (.list items))
    (map : ∀ entries : Entries, (∀ e ∈ entries, P e.2) → P (.map entries)) (v : Value) : P v := by
  refine @Value.rec P (fun items => ∀ v ∈ items, P v) (fun entries => ∀ e ∈ entries, P e.2)
    (fun e => P e.2) scalar list map ?_ ?_ ?_ ?_ ?_ v
  all_goals simp +contextual

/-- Neither the value nor one inside it is NaN. -/
inductive NoNaN : Value → Prop
  | scalar {s : Scalar} (h : s.isNaN = false) : NoNaN (.scalar s)
  | list {items : List Value} (h : ∀ v ∈ items, NoNaN v) : NoNaN (.list items)
  | map {entries : List (Scalar × Value)} (h : ∀ e ∈ entries, NoNaN e.2) : NoNaN (.map entries)

/-- No mapping has a key twice, at any depth. -/
inductive DistinctKeys : Value → Prop
  | scalar (s : Scalar) : DistinctKeys (.scalar s)
  | list {items : List Value} (h : ∀ v ∈ items, DistinctKeys v) : DistinctKeys (.list items)
  | map {entries : List (Scalar × Value)} (hkeys : Entries.Distinct entries)
      (h : ∀ e ∈ entries, DistinctKeys e.2) : DistinctKeys (.map entries)

@[simp] theorem noNaN_scalar {s : Scalar} : (scalar s).NoNaN ↔ s.isNaN = false :=
  ⟨fun h => (by cases h; assumption), .scalar⟩

@[simp] theorem noNaN_list {items : List Value} : (list items).NoNaN ↔ ∀ v ∈ items, v.NoNaN :=
  ⟨fun h => (by cases h; assumption), .list⟩

@[simp] theorem noNaN_record {fields : Fields} :
    (record fields).NoNaN ↔ ∀ field ∈ fields, field.2.NoNaN := by
  constructor
  · intro h
    cases h with
    | map h => exact fun field hf => h _ (List.mem_map_of_mem hf)
  · intro h
    refine .map fun e he => ?_
    obtain ⟨field, hf, rfl⟩ := List.mem_map.1 he
    exact h field hf

theorem noNaN_texts (items : List String) : (texts items).NoNaN := by
  simp [texts, Scalar.isNaN]

@[simp] theorem distinctKeys_scalar (s : Scalar) : (scalar s).DistinctKeys :=
  .scalar s

@[simp] theorem distinctKeys_list {items : List Value} :
    (list items).DistinctKeys ↔ ∀ v ∈ items, v.DistinctKeys :=
  ⟨fun h => (by cases h; assumption), .list⟩

theorem distinctKeys_map {entries : Entries} : (map entries).DistinctKeys ↔
    entries.Distinct ∧ ∀ e ∈ entries, e.2.DistinctKeys :=
  ⟨fun h => (by cases h; constructor <;> assumption), fun h => .map h.1 h.2⟩

theorem distinctKeys_empty : (map []).DistinctKeys :=
  .map .nil (List.forall_mem_nil _)

@[simp] theorem distinctKeys_record {fields : Fields} : (record fields).DistinctKeys ↔
    (fields.map Prod.fst).Nodup ∧ ∀ field ∈ fields, field.2.DistinctKeys := by
  have hkeys : Entries.Distinct (fields.map fun field => (.str field.1, field.2)) ↔
      (fields.map Prod.fst).Nodup := by
    have hinj : Function.Injective Scalar.str := fun _ _ => Scalar.str.inj
    rw [Entries.Distinct, List.map_map, ← List.nodup_map_iff hinj, List.map_map]
    rfl
  constructor
  · intro h
    cases h with
    | map hnd h => exact ⟨hkeys.1 hnd, fun field hf => h _ (List.mem_map_of_mem hf)⟩
  · rintro ⟨hnd, h⟩
    refine .map (hkeys.2 hnd) fun e he => ?_
    obtain ⟨field, hf, rfl⟩ := List.mem_map.1 he
    exact h field hf

theorem distinctKeys_texts (items : List String) : (texts items).DistinctKeys := by
  simp [texts]

/-! ### What equality asks for -/

section
variable {s : Scalar} {items : List Value} {entries : Entries} {v : Value}

theorem deepEqual_scalar_iff :
    deepEqual (.scalar s) v = true ↔ ∃ t, v = .scalar t ∧ s.equal t = true := by
  cases v <;> simp [deepEqual]

theorem deepEqualItems_iff {others : List Value} : deepEqualItems items others = true ↔
    List.Forall₂ (fun v w => deepEqual v w = true) items others := by
  induction items generalizing others with
  | nil => cases others <;> simp [deepEqualItems]
  | cons v items ih => cases others <;> simp [deepEqualItems, ih]

theorem deepEqual_list_iff : deepEqual (.list items) v = true ↔
    ∃ others, v = .list others ∧ List.Forall₂ (fun v w => deepEqual v w = true) items others := by
  cases v <;> simp [deepEqual, deepEqualItems_iff]

theorem deepEqualEntries_iff {others : Entries} : deepEqualEntries entries others = true ↔
    ∀ e ∈ entries, ∃ w, Entries.find? e.1 others = some w ∧ deepEqual e.2 w = true := by
  induction entries with
  | nil => simp [deepEqualEntries]
  | cons e entries ih =>
    obtain ⟨k, v⟩ := e
    rw [deepEqualEntries, Bool.and_eq_true, ih, List.forall_mem_cons]
    cases Entries.find? k others <;> simp

/-- A mapping equals one that has its keys and no other, with equal values under them. -/
theorem deepEqual_map_iff : deepEqual (.map entries) v = true ↔
    ∃ others : Entries, v = .map others ∧
      (∀ e ∈ others, ∃ v, Entries.find? e.1 entries = some v) ∧
      ∀ e ∈ entries, ∃ w, Entries.find? e.1 others = some w ∧ deepEqual e.2 w = true := by
  cases v with
  | scalar s => simp [deepEqual]
  | list items => simp [deepEqual]
  | map others =>
    rw [deepEqual, Bool.and_eq_true, Entries.sameKeys_iff, deepEqualEntries_iff]
    constructor
    · rintro ⟨⟨-, hothers⟩, hall⟩
      exact ⟨others, rfl, hothers, hall⟩
    · rintro ⟨others, h, hothers, hall⟩
      cases h
      refine ⟨⟨fun e he => ?_, hothers⟩, hall⟩
      obtain ⟨w, hw, -⟩ := hall e he
      exact ⟨w, hw⟩

end

/-! ### The laws -/

theorem deepEqual_self {v : Value} (hn : v.NoNaN) (hk : v.DistinctKeys) : v.deepEqual v = true := by
  induction hn with
  | scalar hs => exact deepEqual_scalar_iff.2 ⟨_, rfl, Scalar.equal_self hs⟩
  | list _ ih =>
    cases hk with
    | list hk =>
      exact deepEqual_list_iff.2 ⟨_, rfl, List.forall₂_same.2 fun v hv => ih v hv (hk v hv)⟩
  | @map entries _ ih =>
    cases hk with
    | map hkeys hk =>
      have hfind : ∀ e ∈ entries, Entries.find? e.1 entries = some e.2 := fun e he =>
        Entries.Distinct.find? hkeys he
      exact deepEqual_map_iff.2 ⟨entries, rfl, fun e he => ⟨e.2, hfind e he⟩, fun e he =>
        ⟨e.2, hfind e he, ih e he (hk e he)⟩⟩

/-- In a value that equals some value nothing is NaN. -/
theorem noNaN_of_deepEqual {v w : Value} (h : v.deepEqual w = true) : v.NoNaN := by
  induction v using Value.induction generalizing w with
  | scalar s =>
    obtain ⟨t, -, hst⟩ := deepEqual_scalar_iff.1 h
    exact .scalar (Scalar.isNaN_of_equal hst)
  | list items ih =>
    obtain ⟨others, -, hitems⟩ := deepEqual_list_iff.1 h
    refine .list fun v hv => ?_
    obtain ⟨w, -, hvw⟩ := exists_mem_of_forall₂ hitems.flip hv
    exact ih v hv hvw
  | map entries ih =>
    obtain ⟨others, -, -, hall⟩ := deepEqual_map_iff.1 h
    refine .map fun e he => ?_
    obtain ⟨w, -, hvw⟩ := hall e he
    exact ih e he hvw

theorem deepEqual_symm {v w : Value} (hk : w.DistinctKeys) (h : v.deepEqual w = true) :
    w.deepEqual v = true := by
  induction v using Value.induction generalizing w with
  | scalar s =>
    obtain ⟨t, rfl, hst⟩ := deepEqual_scalar_iff.1 h
    exact deepEqual_scalar_iff.2 ⟨s, rfl, Scalar.equal_symm hst⟩
  | list items ih =>
    obtain ⟨others, rfl, hitems⟩ := deepEqual_list_iff.1 h
    refine deepEqual_list_iff.2 ⟨items, rfl, ?_⟩
    cases hk with
    | list hk =>
      clear h
      induction hitems with
      | nil => exact .nil
      | cons hvw _ ih' =>
        obtain ⟨hv, ih⟩ := List.forall_mem_cons.1 ih
        obtain ⟨hw, hk⟩ := List.forall_mem_cons.1 hk
        exact .cons (hv hw hvw) (ih' ih hk)
  | map entries ih =>
    obtain ⟨others, rfl, hothers, hall⟩ := deepEqual_map_iff.1 h
    cases hk with
    | map hkeys hk =>
      refine deepEqual_map_iff.2 ⟨entries, rfl, fun e he => ?_, fun e he => ?_⟩
      · obtain ⟨w, hw, -⟩ := hall e he
        exact ⟨w, hw⟩
      · obtain ⟨v, hv⟩ := hothers e he
        obtain ⟨k, hmem, hkey⟩ := Entries.exists_mem_of_find? hv
        obtain ⟨w, hw, hvw⟩ := hall _ hmem
        -- the key leads back to the entry, as no other entry has it
        rw [Entries.find?_congr hkey, Entries.Distinct.find? hkeys he] at hw
        obtain rfl := Option.some.inj hw
        exact ⟨v, hv, ih _ hmem (hk e he) hvw⟩

theorem deepEqual_trans {u v w : Value} (h : u.deepEqual v = true) (h' : v.deepEqual w = true) :
    u.deepEqual w = true := by
  induction u using Value.induction generalizing v w with
  | scalar s =>
    obtain ⟨t, rfl, hst⟩ := deepEqual_scalar_iff.1 h
    obtain ⟨r, rfl, htr⟩ := deepEqual_scalar_iff.1 h'
    exact deepEqual_scalar_iff.2 ⟨r, rfl, Scalar.equal_trans hst htr⟩
  | list items ih =>
    obtain ⟨others, rfl, hitems⟩ := deepEqual_list_iff.1 h
    obtain ⟨more, rfl, hothers⟩ := deepEqual_list_iff.1 h'
    refine deepEqual_list_iff.2 ⟨more, rfl, ?_⟩
    clear h h'
    induction hitems generalizing more with
    | nil => exact hothers
    | cons huv _ ih' =>
      obtain ⟨hu, ih⟩ := List.forall_mem_cons.1 ih
      obtain ⟨w, more, hvw, hrest, rfl⟩ := List.forall₂_cons_left_iff.1 hothers
      exact .cons (hu huv hvw) (ih' ih more hrest)
  | map entries ih =>
    obtain ⟨others, rfl, hothers, hall⟩ := deepEqual_map_iff.1 h
    obtain ⟨more, rfl, hmore, hall'⟩ := deepEqual_map_iff.1 h'
    refine deepEqual_map_iff.2 ⟨more, rfl, fun e he => ?_, fun e he => ?_⟩
    · obtain ⟨v, hv⟩ := hmore e he
      obtain ⟨k, hmem, hkey⟩ := Entries.exists_mem_of_find? hv
      obtain ⟨u, hu⟩ := hothers _ hmem
      exact ⟨u, (Entries.find?_congr hkey entries).symm.trans hu⟩
    · obtain ⟨v, hv, huv⟩ := hall e he
      obtain ⟨k, hmem, hkey⟩ := Entries.exists_mem_of_find? hv
      obtain ⟨w, hw, hvw⟩ := hall' _ hmem
      exact ⟨w, (Entries.find?_congr hkey more).symm.trans hw, ih e he huv hvw⟩

end Value

end StepGraph
