import Mathlib.Data.List.Nodup
import StepGraph.Order.Repeats
import StepGraph.Proofs.Related

/-!
# Repeated and distinct items

The repeated items are those that come at least twice, each once, in the order of their second
occurrences (`IsRepeats`, `isRepeats_repeats`): a further item becomes the last of them exactly when
it comes for the second time. There are none exactly in a list without duplicates
(`repeats_eq_nil`).
The distinct items are those of the list (`mem_distinct`), each once (`nodup_distinct`), a further
item coming last if it is new (`distinct_concat`); a list without duplicates keeps all its items
(`distinct_of_nodup`).
-/

set_option autoImplicit false

namespace StepGraph.Order

variable {ι : Type} [DecidableEq ι]

/-! ## Repeated items -/

/-- The place at which an item comes for the second time. -/
structure SecondAt (items : List ι) (x : ι) (i : Nat) : Prop where
  item : items[i]? = some x
  before : (items.take i).count x = 1

/-- The items that come more than once, each once, by the places of their second occurrences. -/
structure IsRepeats (items repeated : List ι) : Prop where
  nodup : repeated.Nodup
  mem_iff : ∀ x, x ∈ repeated ↔ 2 ≤ items.count x
  ordered : ∃ places, places.Pairwise (· < ·) ∧ List.Forall₂ (SecondAt items) repeated places

section
variable {items repeated seen : List ι} {x : ι} {i : Nat}

theorem SecondAt.lt (h : SecondAt items x i) : i < items.length :=
  (List.getElem?_eq_some_iff.1 h.item).1

theorem SecondAt.append (h : SecondAt items x i) (more : List ι) : SecondAt (items ++ more) x i where
  item := by rw [List.getElem?_append_left h.lt, h.item]
  before := by rw [List.take_append_of_le_length (Nat.le_of_lt h.lt), h.before]

theorem secondAt_concat (h : items.count x = 1) : SecondAt (items ++ [x]) x items.length where
  item := List.getElem?_concat_length
  before := by rw [List.take_left, h]

theorem IsRepeats.subset (h : IsRepeats items repeated) (hx : x ∈ repeated) : x ∈ items := by
  have hcount := (h.mem_iff x).1 hx
  exact List.count_pos_iff.1 (by omega)

theorem IsRepeats.nil : IsRepeats ([] : List ι) [] :=
  ⟨.nil, by simp, [], .nil, .nil⟩

/-- A further item adds nothing to the repeated ones if it is new or is among them. -/
theorem IsRepeats.concat_of_mem_iff (h : IsRepeats items repeated) (hx : x ∈ repeated ↔ x ∈ items) :
    IsRepeats (items ++ [x]) repeated := by
  obtain ⟨places, hplaces, hsecond⟩ := h.ordered
  refine ⟨h.nodup, fun y => ?_, places, hplaces, hsecond.imp fun _ _ hy => hy.append [x]⟩
  rw [h.mem_iff, List.count_append, List.count_singleton]
  split
  · rename_i hxy
    obtain rfl : x = y := by simpa using hxy
    rw [h.mem_iff, ← List.one_le_count_iff] at hx
    omega
  · omega

/-- An item that comes for the second time is the last of the repeated ones. -/
theorem IsRepeats.concat_of_notMem (h : IsRepeats items repeated) (hx : x ∈ items)
    (hno : x ∉ repeated) : IsRepeats (items ++ [x]) (repeated ++ [x]) := by
  have hone : items.count x = 1 := by
    rw [h.mem_iff] at hno
    have := List.one_le_count_iff.2 hx
    omega
  obtain ⟨places, hplaces, hsecond⟩ := h.ordered
  have hlt : ∀ i ∈ places, i < items.length := by
    intro i hi
    obtain ⟨y, -, hy⟩ := exists_mem_of_forall₂ hsecond hi
    exact hy.lt
  refine ⟨h.nodup.append (List.nodup_singleton x) (by simpa using hno), fun y => ?_,
    places ++ [items.length], ?_, ?_⟩
  · rw [List.mem_append, h.mem_iff, List.mem_singleton, List.count_append, List.count_singleton]
    by_cases hxy : x = y
    · subst hxy; simp [hone]
    · have hyx : y ≠ x := Ne.symm hxy
      simp [hxy, hyx]
  · rw [List.pairwise_append]
    exact ⟨hplaces, List.pairwise_singleton _ _, by simpa using hlt⟩
  · exact List.rel_append (hsecond.imp fun _ _ hy => hy.append [x]) (.cons (secondAt_concat hone) .nil)

/-- The rest of a list is gone through when `seen` holds the items before it. -/
theorem isRepeats_repeatsFrom {rest : List ι} (hseen : ∀ x, x ∈ seen ↔ x ∈ items)
    (h : IsRepeats items repeated) : IsRepeats (items ++ rest) (repeatsFrom seen repeated rest) := by
  induction rest generalizing items seen repeated with
  | nil => rwa [List.append_nil]
  | cons x rest ih =>
    rw [← List.singleton_append, ← List.append_assoc, List.singleton_append]
    simp only [repeatsFrom, List.contains_iff_mem]
    by_cases hx : x ∈ seen
    · have hx' : x ∈ items := (hseen x).1 hx
      have hseen' : ∀ y, y ∈ seen ↔ y ∈ items ++ [x] := by
        intro y
        rw [hseen, List.mem_append, List.mem_singleton]
        exact ⟨.inl, fun hy => hy.elim id fun hy => hy ▸ hx'⟩
      rw [if_pos hx]
      refine ih hseen' ?_
      split
      · exact h.concat_of_mem_iff (iff_of_true ‹_› hx')
      · exact h.concat_of_notMem hx' ‹_›
    · have hx' : x ∉ items := mt (hseen x).2 hx
      have hno : x ∉ repeated := fun hm => hx' (h.subset hm)
      have hseen' : ∀ y, y ∈ x :: seen ↔ y ∈ items ++ [x] := by
        intro y
        rw [List.mem_cons, hseen, List.mem_append, List.mem_singleton, or_comm]
      rw [if_neg hx]
      exact ih hseen' (h.concat_of_mem_iff (iff_of_false hno hx'))

end

theorem isRepeats_repeats (items : List ι) : IsRepeats items (repeats items) :=
  isRepeats_repeatsFrom (fun _ => Iff.rfl) .nil

theorem repeats_eq_nil {l : List ι} : repeats l = [] ↔ l.Nodup := by
  simp only [List.eq_nil_iff_forall_not_mem, (isRepeats_repeats l).mem_iff,
    List.nodup_iff_count_le_one]
  exact forall_congr' fun x => by omega

/-! ## Distinct items -/

theorem distinctFrom_cons (seen l : List ι) (x : ι) :
    distinctFrom seen (x :: l) =
      if x ∈ seen then distinctFrom seen l else x :: distinctFrom (x :: seen) l := by
  simp only [distinctFrom, List.contains_iff_mem]

theorem mem_distinctFrom {seen l : List ι} {x : ι} :
    x ∈ distinctFrom seen l ↔ x ∈ l ∧ x ∉ seen := by
  induction l generalizing seen with
  | nil => simp [distinctFrom]
  | cons y l ih =>
    rw [distinctFrom_cons]
    split
    · rw [ih, List.mem_cons]
      constructor
      · exact fun ⟨hx, hs⟩ => ⟨.inr hx, hs⟩
      · rintro ⟨rfl | hx, hs⟩
        · contradiction
        · exact ⟨hx, hs⟩
    · rw [List.mem_cons, ih, List.mem_cons, List.mem_cons]
      by_cases hxy : x = y
      · subst hxy; simp [*]
      · simp [hxy]

theorem nodup_distinctFrom (seen l : List ι) : (distinctFrom seen l).Nodup := by
  induction l generalizing seen with
  | nil => exact .nil
  | cons x l ih =>
    rw [distinctFrom_cons]
    split
    · exact ih seen
    · refine List.nodup_cons.2 ⟨fun hx => ?_, ih (x :: seen)⟩
      exact (mem_distinctFrom.1 hx).2 List.mem_cons_self

theorem distinctFrom_concat (seen l : List ι) (x : ι) :
    distinctFrom seen (l ++ [x]) =
      if x ∈ seen ∨ x ∈ l then distinctFrom seen l else distinctFrom seen l ++ [x] := by
  induction l generalizing seen with
  | nil => simp [distinctFrom_cons, distinctFrom]
  | cons y l ih =>
    rw [List.cons_append, distinctFrom_cons, distinctFrom_cons, ih, ih]
    by_cases hy : y ∈ seen
    · have hx : x ∈ seen ∨ x = y ∨ x ∈ l ↔ x ∈ seen ∨ x ∈ l := by
        constructor
        · rintro (h | rfl | h)
          exacts [.inl h, .inl hy, .inr h]
        · rintro (h | h)
          exacts [.inl h, .inr (.inr h)]
      simp only [hy, if_true, List.mem_cons, hx]
    · have hx : (x = y ∨ x ∈ seen) ∨ x ∈ l ↔ x ∈ seen ∨ x = y ∨ x ∈ l := by tauto
      simp only [hy, if_false, List.mem_cons, hx]
      split <;> rfl

theorem distinctFrom_of_nodup {seen l : List ι} (hnd : l.Nodup) (h : ∀ x ∈ l, x ∉ seen) :
    distinctFrom seen l = l := by
  induction l generalizing seen with
  | nil => rfl
  | cons x l ih =>
    obtain ⟨hx, hnd⟩ := List.nodup_cons.1 hnd
    rw [distinctFrom_cons, if_neg (h x List.mem_cons_self), ih hnd]
    intro y hy
    rw [List.mem_cons, not_or]
    exact ⟨by rintro rfl; exact hx hy, h y (List.mem_cons_of_mem x hy)⟩

theorem mem_distinct {l : List ι} {x : ι} : x ∈ distinct l ↔ x ∈ l := by
  simp [distinct, mem_distinctFrom]

theorem nodup_distinct (l : List ι) : (distinct l).Nodup :=
  nodup_distinctFrom [] l

theorem distinct_concat (l : List ι) (x : ι) :
    distinct (l ++ [x]) = if x ∈ l then distinct l else distinct l ++ [x] := by
  simp [distinct, distinctFrom_concat]

theorem distinct_of_nodup {l : List ι} (h : l.Nodup) : distinct l = l :=
  distinctFrom_of_nodup h (by simp)

theorem perm_distinct {l l' : List ι} (h : l.Perm l') : (distinct l).Perm (distinct l') := by
  rw [List.perm_ext_iff_of_nodup (nodup_distinct l) (nodup_distinct l')]
  intro x
  rw [mem_distinct, mem_distinct, h.mem_iff]

theorem distinct_eq_nil {l : List ι} : distinct l = [] ↔ l = [] := by
  simp [List.eq_nil_iff_forall_not_mem, mem_distinct]

end StepGraph.Order
