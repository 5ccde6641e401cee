import Mathlib.Data.List.Chain
import Mathlib.Data.List.Nodup
import StepGraph.Order.Walk

/-!
# The invariant of a walk

`Walk.Sound` holds of a depth-first walk at every moment: the finished items are those emitted and
the open ones those on the stack, each once; an open item stands on the stack above one that
depends on it; what an open item depends on is still to be looked at, emitted, or the item right
above; and an emitted item comes after everything it depends on (`Closed`, the last one first).

* `step_ok`, `step_error`: everything that a step can do, and every way in which it can fail.
* `Sound.step`: a step keeps the invariant, and one that fails names an obstacle that is there
  (`Sound.step_genuine`, `Obstacle.Genuine`).
-/

set_option autoImplicit false

namespace StepGraph.Order

variable {ι : Type}

/-- Every item comes before the items that it depends on. -/
def Closed (dependencies : ι → List ι) : List ι → Prop
  | [] => True
  | x :: rest => (∀ d ∈ dependencies x, d ∈ rest) ∧ Closed dependencies rest

/-- Every item comes after the items that it depends on. -/
def DependenciesFirst (dependencies : ι → List ι) (items : List ι) : Prop :=
  ∀ before x after, items = before ++ x :: after → ∀ d ∈ dependencies x, d ∈ before

/-- The obstacle is there: a listed item with an unlisted dependency, or listed items, all
different, each depending on the next and the last on the first. -/
def Obstacle.Genuine (items : List ι) (dependencies : ι → List ι) : Obstacle ι → Prop
  | .unknown x d => x ∈ items ∧ d ∈ dependencies x ∧ d ∉ items
  | .cycle path =>
    2 ≤ path.length ∧ path.head? = path.getLast? ∧ path.dropLast.Nodup ∧
      (∀ x ∈ path.dropLast, x ∈ items) ∧ path.IsChain fun x d => d ∈ dependencies x

theorem Closed.of_append {dependencies : ι → List ι} {l₁ l₂ : List ι}
    (h : Closed dependencies (l₁ ++ l₂)) : Closed dependencies l₂ := by
  induction l₁ with
  | nil => exact h
  | cons _ l₁ ih => exact ih h.2

theorem Closed.dependenciesFirst {dependencies : ι → List ι} {l : List ι}
    (h : Closed dependencies l) : DependenciesFirst dependencies l.reverse := by
  intro before x after he d hd
  have hl : l = after.reverse ++ x :: before.reverse := by
    rw [← List.reverse_reverse l, he]; simp
  rw [hl] at h
  simpa using h.of_append.1 d hd

namespace Walk

/-- The frames of a stack whose innermost one stands below the item `above`: see `Sound`. -/
def FramesOk (dependencies : ι → List ι) (emitted : List ι) :
    Option ι → List (ι × List ι) → Prop
  | _, [] => True
  | above, (x, pending) :: rest =>
    (∀ d, above = some d → d ∈ dependencies x) ∧ (∀ d ∈ pending, d ∈ dependencies x) ∧
      (∀ d ∈ dependencies x, d ∈ pending ∨ d ∈ emitted ∨ above = some d) ∧
      FramesOk dependencies emitted (some x) rest

/-- The items on the stack, the innermost first. -/
def openItems (w : Walk ι) : List ι :=
  w.stack.map Prod.fst

theorem FramesOk.mono {dependencies : ι → List ι} {e₁ e₂ : List ι} (hs : ∀ x ∈ e₁, x ∈ e₂) :
    ∀ {stack : List (ι × List ι)} {above : Option ι},
      FramesOk dependencies e₁ above stack → FramesOk dependencies e₂ above stack
  | [], _, _ => trivial
  | _ :: _, _, ⟨ha, hp, hd, hr⟩ =>
    ⟨ha, hp, fun d h => (hd d h).imp_right (Or.imp_left (hs d)), FramesOk.mono hs hr⟩

/-- Emitting the item above the frames. -/
theorem FramesOk.emit {dependencies : ι → List ι} {emitted : List ι} {x : ι}
    {stack : List (ι × List ι)} (h : FramesOk dependencies emitted (some x) stack) :
    FramesOk dependencies (x :: emitted) none stack := by
  cases stack with
  | nil => trivial
  | cons frame rest =>
    obtain ⟨-, hp, hd, hr⟩ := h
    refine ⟨by simp, hp, fun d h => ?_, hr.mono fun y hy => List.mem_cons_of_mem x hy⟩
    rcases hd d h with h | h | h
    · exact .inl h
    · exact .inr (.inl (List.mem_cons_of_mem x h))
    · cases h; exact .inr (.inl List.mem_cons_self)

theorem FramesOk.isChain {dependencies : ι → List ι} {emitted : List ι} :
    ∀ {stack : List (ι × List ι)} {above : Option ι}, FramesOk dependencies emitted above stack →
      (stack.map Prod.fst).IsChain fun d x => d ∈ dependencies x
  | [], _, _ => .nil
  | [_], _, _ => .singleton _
  | (_, _) :: (_, _) :: _, _, ⟨_, _, _, hr⟩ => .cons_cons (hr.1 _ rfl) hr.isChain

variable [DecidableEq ι]

/-- The invariant (module doc). -/
structure Sound (items : List ι) (dependencies : ι → List ι) (w : Walk ι) : Prop where
  done_iff : ∀ x, w.mark? x = some .done ↔ x ∈ w.emitted
  open_iff : ∀ x, w.mark? x = some .open ↔ x ∈ w.openItems
  nodup_emitted : w.emitted.Nodup
  nodup_open : w.openItems.Nodup
  emitted_listed : ∀ x ∈ w.emitted, x ∈ items
  open_listed : ∀ x ∈ w.openItems, x ∈ items
  frames : FramesOk dependencies w.emitted none w.stack
  closed : Closed dependencies w.emitted

variable {items : List ι} {dependencies : ι → List ι} {w w' : Walk ι}

theorem mark?_cons (x y : ι) (v : Visit) (stack : List (ι × List ι)) (emitted : List ι) :
    Walk.mark? ⟨(x, v) :: w.marks, stack, emitted⟩ y = if y = x then some v else w.mark? y := by
  simp only [mark?, List.lookup_cons]
  split <;> simp_all

/-! ## Steps -/

section
variable {x d : ι} {pending : List ι} {rest : List (ι × List ι)}

theorem step_finish (hst : w.stack = (x, []) :: rest) :
    w.step items dependencies = .ok ⟨(x, .done) :: w.marks, rest, x :: w.emitted⟩ := by
  rw [step, hst]

variable (hst : w.stack = (x, d :: pending) :: rest)
include hst

theorem step_pass (hd : d ∈ items) (hm : w.mark? d = some .done) :
    w.step items dependencies = .ok ⟨w.marks, (x, pending) :: rest, w.emitted⟩ := by
  simp only [mark?] at hm
  simp [step, hst, hd, mark?, hm]

theorem step_enter (hd : d ∈ items) (hm : w.mark? d = none) : w.step items dependencies =
    .ok ⟨(d, .open) :: w.marks, (d, dependencies d) :: (x, pending) :: rest, w.emitted⟩ := by
  simp only [mark?] at hm
  simp [step, hst, hd, mark?, hm, enter]

theorem step_cycle (hd : d ∈ items) (hm : w.mark? d = some .open) :
    w.step items dependencies = .error (.cycle (w.cycleAt d)) := by
  simp only [mark?] at hm
  simp [step, hst, hd, mark?, hm, cycleAt, path]

theorem step_unknown (hd : d ∉ items) : w.step items dependencies = .error (.unknown x d) := by
  simp [step, hst, hd]

end

/-- Everything that a step can do. -/
theorem step_ok (h : w.step items dependencies = .ok w') (hne : w.stack ≠ []) :
    (∃ x rest, w.stack = (x, []) :: rest ∧
      w' = ⟨(x, .done) :: w.marks, rest, x :: w.emitted⟩) ∨
    (∃ x d pending rest, w.stack = (x, d :: pending) :: rest ∧ d ∈ items ∧
      w.mark? d = some .done ∧ w' = ⟨w.marks, (x, pending) :: rest, w.emitted⟩) ∨
    ∃ x d pending rest, w.stack = (x, d :: pending) :: rest ∧ d ∈ items ∧ w.mark? d = none ∧
      w' = ⟨(d, .open) :: w.marks, (d, dependencies d) :: (x, pending) :: rest, w.emitted⟩ := by
  unfold step at h
  split at h
  · exact absurd ‹_› hne
  · rename_i x rest hs
    cases h; exact .inl ⟨x, rest, hs, rfl⟩
  · rename_i x d pending rest hs
    simp only [List.contains_iff_mem] at h
    split at h
    · split at h
      · cases h; exact .inr (.inl ⟨x, d, pending, rest, hs, ‹_›, ‹_›, rfl⟩)
      · cases h
      · cases h; exact .inr (.inr ⟨x, d, pending, rest, hs, ‹_›, ‹_›, rfl⟩)
    · cases h

/-- Every way in which a step can fail. -/
theorem step_error {o : Obstacle ι} (h : w.step items dependencies = .error o) :
    ∃ x d pending rest, w.stack = (x, d :: pending) :: rest ∧
      ((d ∉ items ∧ o = .unknown x d) ∨
        d ∈ items ∧ w.mark? d = some .open ∧ o = .cycle (w.cycleAt d)) := by
  unfold step at h
  split at h
  · cases h
  · cases h
  · rename_i x d pending rest hs
    simp only [List.contains_iff_mem] at h
    refine ⟨x, d, pending, rest, hs, ?_⟩
    split at h
    · split at h
      · cases h
      · cases h
        refine .inr ⟨‹_›, ‹_›, ?_⟩
        simp [cycleAt, path, hs]
      · cases h
    · cases h; exact .inl ⟨‹_›, rfl⟩

/-- An item that is emitted or on the stack has a mark. -/
theorem Sound.not_mem (hs : Sound items dependencies w) {x : ι} (hx : w.mark? x = none) :
    x ∉ w.emitted ∧ x ∉ w.openItems := by
  constructor <;> intro hm
  · have := (hs.done_iff x).2 hm
    rw [hx] at this; cases this
  · have := (hs.open_iff x).2 hm
    rw [hx] at this; cases this

theorem Sound.not_emitted (hs : Sound items dependencies w) {x : ι} (hx : x ∈ w.openItems) :
    x ∉ w.emitted := fun hm => by
  have h := (hs.done_iff x).2 hm
  rw [(hs.open_iff x).2 hx] at h; cases h

/-- An item that has not been met becomes the innermost one. -/
theorem Sound.descend (hs : Sound items dependencies w) {d : ι} {stack : List (ι × List ι)}
    (hd : d ∈ items) (hm : w.mark? d = none) (hst : stack.map Prod.fst = w.openItems)
    (hf : FramesOk dependencies w.emitted (some d) stack) :
    Sound items dependencies ⟨(d, .open) :: w.marks, (d, dependencies d) :: stack, w.emitted⟩ := by
  obtain ⟨hne, hno⟩ := hs.not_mem hm
  refine ⟨fun y => ?_, fun y => ?_, hs.nodup_emitted, ?_, hs.emitted_listed, ?_, ?_, hs.closed⟩
  · rw [mark?_cons]
    split
    · subst y; simpa using hne
    · exact hs.done_iff y
  · rw [mark?_cons]
    change _ ↔ y ∈ d :: stack.map Prod.fst
    rw [hst, List.mem_cons]
    split
    · simp [*]
    · rw [hs.open_iff y, or_iff_right ‹_›]
  · exact List.nodup_cons.2 ⟨by rwa [hst], by rw [hst]; exact hs.nodup_open⟩
  · simp only [openItems, List.map_cons, List.mem_cons, hst]
    rintro y (rfl | hy)
    · exact hd
    · exact hs.open_listed y hy
  · exact ⟨by simp, fun _ h => h, fun _ h => .inl h, hf⟩

theorem Sound.step (hs : Sound items dependencies w)
    (h : w.step items dependencies = .ok w') : Sound items dependencies w' := by
  by_cases hne : w.stack = []
  · rw [Walk.step, hne] at h; cases h; exact hs
  obtain ⟨x, rest, hst, rfl⟩ | ⟨x, d, pending, rest, hst, -, hm, rfl⟩ |
    ⟨x, d, pending, rest, hst, hd, hm, rfl⟩ := step_ok h hne
  all_goals
    have hf := hs.frames
    have ho : w.openItems = x :: rest.map Prod.fst := by simp [openItems, hst]
    rw [hst] at hf
    obtain ⟨ha, hp, hdeps, hr⟩ := hf
  · -- the innermost item is emitted
    have hx : x ∉ w.emitted := hs.not_emitted (by simp [ho])
    have hnd : x ∉ rest.map Prod.fst ∧ (rest.map Prod.fst).Nodup := by
      simpa [ho] using hs.nodup_open
    refine ⟨fun y => ?_, fun y => ?_, by simp [hx, hs.nodup_emitted], hnd.2, ?_, ?_, hr.emit, ?_⟩
    · rw [mark?_cons]
      split
      · simp [*]
      · rw [hs.done_iff y]; simp [*]
    · rw [mark?_cons]
      split
      · subst y; simpa [openItems] using hnd.1
      · rw [hs.open_iff y, ho, List.mem_cons]; simp [openItems, *]
    · rintro y (_ | ⟨_, hy⟩)
      · exact hs.open_listed x (by simp [ho])
      · exact hs.emitted_listed y hy
    · exact fun y hy => hs.open_listed y (by rw [ho]; exact List.mem_cons_of_mem x hy)
    · exact ⟨fun d hd => by simpa using hdeps d hd, hs.closed⟩
  · -- a finished dependency is passed over
    have ho' : openItems ⟨w.marks, (x, pending) :: rest, w.emitted⟩ = w.openItems := ho.symm
    refine ⟨hs.done_iff, ?_, hs.nodup_emitted, ?_, hs.emitted_listed, ?_, ?_, hs.closed⟩
    · rw [ho']; exact hs.open_iff
    · rw [ho']; exact hs.nodup_open
    · rw [ho']; exact hs.open_listed
    · refine ⟨ha, fun y hy => hp y (List.mem_cons_of_mem d hy), fun y hy => ?_, hr⟩
      rcases hdeps y hy with hy | hy
      · rcases List.mem_cons.1 hy with rfl | hy
        · exact .inr (.inl ((hs.done_iff y).1 hm))
        · exact .inl hy
      · exact .inr hy
  · -- a dependency that has not been met is entered
    refine hs.descend hd hm (by simp [ho]) ⟨?_, fun y hy => hp y (List.mem_cons_of_mem d hy),
      fun y hy => ?_, hr⟩
    · rintro _ ⟨⟩; exact hp d List.mem_cons_self
    · rcases hdeps y hy with hy | hy | hy
      · rcases List.mem_cons.1 hy with rfl | hy
        · exact .inr (.inr rfl)
        · exact .inl hy
      · exact .inr (.inl hy)
      · cases hy

/-- The path from an open item on is a cycle if the innermost item depends on it. -/
theorem Sound.cycle_genuine (hs : Sound items dependencies w) {x d : ι}
    {pending : List ι} {rest : List (ι × List ι)} (hst : w.stack = (x, d :: pending) :: rest)
    (hd : d ∈ w.openItems) : (Obstacle.cycle (w.cycleAt d)).Genuine items dependencies := by
  have hpath : w.path = w.openItems.reverse := rfl
  have hnd : w.path.Nodup := by rw [hpath]; exact List.nodup_reverse.2 hs.nodup_open
  have hchain : w.path.IsChain fun x d => d ∈ dependencies x := by
    rw [hpath, List.isChain_reverse]; exact hs.frames.isChain
  have hlast : w.path.getLast? = some x := by simp [hpath, openItems, hst]
  have hedge : d ∈ dependencies x := by
    have hf := hs.frames
    rw [hst] at hf
    exact hf.2.1 d List.mem_cons_self
  obtain ⟨before, after, hp⟩ := List.append_of_mem (show d ∈ w.path by simpa [hpath] using hd)
  rw [hp] at hnd hchain hlast
  have hcyc : w.cycleAt d = d :: after ++ [d] := by
    have hb : ∀ y ∈ before, (y != d) = true := fun y hy => by
      simpa using fun he => (List.nodup_append.1 hnd).2.2 y hy d List.mem_cons_self he
    rw [cycleAt, hp, List.dropWhile_append_of_pos hb]
    simp
  have hsuf : d :: after <:+ before ++ d :: after := List.suffix_append ..
  rw [hcyc]
  refine ⟨by simp, by rw [List.getLast?_concat]; rfl, ?_, fun y hy => ?_, ?_⟩
  · rw [List.dropLast_concat]
    exact hnd.sublist hsuf.sublist
  · rw [List.dropLast_concat] at hy
    refine hs.open_listed y ?_
    rw [← List.mem_reverse, ← hpath, hp]
    exact hsuf.subset hy
  · refine (hchain.suffix hsuf).append (.singleton d) fun y hy z hz => ?_
    have hy' : y = x := by
      rw [List.getLast?_append_of_ne_nil _ (by simp)] at hlast
      rw [hlast] at hy; simpa using hy.symm
    have hz' : z = d := by simpa using hz.symm
    rw [hy', hz']; exact hedge

theorem Sound.step_genuine (hs : Sound items dependencies w) {o : Obstacle ι}
    (h : w.step items dependencies = .error o) : o.Genuine items dependencies := by
  obtain ⟨x, d, pending, rest, hst, ⟨hd, rfl⟩ | ⟨-, hm, rfl⟩⟩ := step_error h
  · have hf := hs.frames
    rw [hst] at hf
    exact ⟨hs.open_listed x (by simp [openItems, hst]), hf.2.1 d List.mem_cons_self, hd⟩
  · exact hs.cycle_genuine hst ((hs.open_iff d).1 hm)

/-- A mark is never taken away. -/
theorem step_marked (h : w.step items dependencies = .ok w') {x : ι} (hx : w.mark? x ≠ none) :
    w'.mark? x ≠ none := by
  by_cases hne : w.stack = []
  · rw [step, hne] at h; cases h; exact hx
  obtain ⟨y, rest, -, rfl⟩ | ⟨y, d, pending, rest, -, -, -, rfl⟩ |
    ⟨y, d, pending, rest, -, -, -, rfl⟩ := step_ok h hne
  · rw [mark?_cons]; split
    · simp
    · exact hx
  · exact hx
  · rw [mark?_cons]; split
    · simp
    · exact hx

end Walk

end StepGraph.Order
