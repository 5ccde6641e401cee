import Mathlib.Computability.Language
import StepGraph.Text.Pattern

/-!
# The language of a pattern

`Pattern.language` is the set of texts that a pattern describes, put together from those of its parts
by union, concatenation and repetition. Taking derivatives decides it.

* `accepts_iff`: a pattern accepts exactly the texts of its language. The step is
  `mem_language_after`: a derivative has the texts that go on after the character.

After these come the texts of the patterns that others are built from, and `Needs`, by which a pattern
is known not to have a text in which a character is missing.
-/

set_option autoImplicit false

open scoped Computability

namespace StepGraph.Text.Pattern

/-- The texts of one character that satisfies `f`. -/
def single (f : Char → Bool) : Language Char :=
  {cs | ∃ c, f c = true ∧ cs = [c]}

theorem mem_single {f : Char → Bool} {cs : List Char} :
    cs ∈ single f ↔ ∃ c, f c = true ∧ cs = [c] :=
  Iff.rfl

def language : Pattern → Language Char
  | .never => 0
  | .nothing => 1
  | .one f => single f
  | .both p q => p.language * q.language
  | .either p q => p.language + q.language
  | .many p => p.language∗

/-! ## Derivatives -/

section
variable {k l : Language Char} {c : Char} {cs : List Char}

theorem nil_mem_mul : [] ∈ k * l ↔ [] ∈ k ∧ [] ∈ l := by
  rw [Language.mem_mul]
  constructor
  · rintro ⟨xs, hxs, ys, hys, h⟩
    obtain ⟨rfl, rfl⟩ := List.append_eq_nil_iff.1 h
    exact ⟨hxs, hys⟩
  · rintro ⟨hk, hl⟩
    exact ⟨[], hk, [], hl, rfl⟩

/-- A text that is one of `k` and one of `l` starts in the first, unless that is empty. -/
theorem cons_mem_mul : c :: cs ∈ k * l ↔
    (∃ xs ys, cs = xs ++ ys ∧ c :: xs ∈ k ∧ ys ∈ l) ∨ [] ∈ k ∧ c :: cs ∈ l := by
  rw [Language.mem_mul]
  constructor
  · rintro ⟨xs, hxs, ys, hys, h⟩
    cases xs with
    | nil => exact .inr ⟨hxs, h ▸ hys⟩
    | cons x xs =>
      obtain ⟨rfl, rfl⟩ := List.cons.inj h
      exact .inl ⟨xs, ys, rfl, hxs, hys⟩
  · rintro (⟨xs, ys, rfl, hxs, hys⟩ | ⟨hk, hl⟩)
    · exact ⟨c :: xs, hxs, ys, hys, rfl⟩
    · exact ⟨[], hk, c :: cs, hl, rfl⟩

/-- A repetition that is not empty starts with a text that is not. -/
theorem cons_mem_kstar : c :: cs ∈ l∗ ↔ ∃ xs ys, cs = xs ++ ys ∧ c :: xs ∈ l ∧ ys ∈ l∗ := by
  constructor
  · rw [Language.mem_kstar_iff_exists_nonempty]
    rintro ⟨parts, hparts, hmem⟩
    cases parts with
    | nil => cases hparts
    | cons part rest =>
      obtain ⟨hpart, hne⟩ := hmem part List.mem_cons_self
      obtain ⟨x, xs, rfl⟩ := List.exists_cons_of_ne_nil hne
      rw [List.flatten_cons, List.cons_append] at hparts
      obtain ⟨rfl, rfl⟩ := List.cons.inj hparts
      exact ⟨xs, rest.flatten, rfl, hpart,
        Language.join_mem_kstar fun part h => (hmem part (List.mem_cons_of_mem _ h)).1⟩
  · rintro ⟨xs, ys, rfl, hxs, hys⟩
    obtain ⟨parts, rfl, hmem⟩ := Language.mem_kstar.1 hys
    exact Language.mem_kstar.2 ⟨(c :: xs) :: parts, rfl, List.forall_mem_cons.2 ⟨hxs, hmem⟩⟩

end

section
variable {p q : Pattern} {c : Char} {cs : List Char}

theorem nil_mem_language : [] ∈ p.language ↔ p.acceptsNothing = true := by
  induction p with
  | never => simp [language, acceptsNothing]
  | nothing => simp [language, acceptsNothing]
  | one f => simp [language, mem_single, acceptsNothing]
  | both p q ihp ihq => rw [language, nil_mem_mul, ihp, ihq, acceptsNothing, Bool.and_eq_true]
  | either p q ihp ihq =>
    rw [language, Language.mem_add, ihp, ihq, acceptsNothing, Bool.or_eq_true]
  | many p => simp [language, acceptsNothing, Language.nil_mem_kstar]

@[simp] theorem language_joined (p q : Pattern) :
    (joined p q).language = p.language * q.language := by
  cases p <;> simp [joined, language]

@[simp] theorem language_united (p q : Pattern) :
    (united p q).language = p.language + q.language := by
  cases p <;> cases q <;> simp [united, language]

theorem mem_language_after : cs ∈ (p.after c).language ↔ c :: cs ∈ p.language := by
  induction p generalizing cs with
  | never => simp [after, language]
  | nothing => simp [after, language]
  | one f => by_cases h : f c = true <;> simp [after, h, language, mem_single]
  | both p q ihp ihq =>
    have hjoined : cs ∈ (joined (p.after c) q).language ↔
        ∃ xs ys, cs = xs ++ ys ∧ c :: xs ∈ p.language ∧ ys ∈ q.language := by
      rw [language_joined, Language.mem_mul]
      simp only [ihp]
      exact ⟨fun ⟨xs, hxs, ys, hys, h⟩ => ⟨xs, ys, h.symm, hxs, hys⟩,
        fun ⟨xs, ys, h, hxs, hys⟩ => ⟨xs, hxs, ys, hys, h.symm⟩⟩
    rw [after, language, cons_mem_mul, nil_mem_language]
    split
    · rename_i hp
      rw [language_united, Language.mem_add, hjoined, ihq, and_iff_right hp]
    · rename_i hp
      rw [hjoined, or_iff_left fun h => hp h.1]
  | either p q ihp ihq =>
    rw [after, language_united, language, Language.mem_add, Language.mem_add, ihp, ihq]
  | many p ih =>
    rw [after, language_joined, language, cons_mem_kstar, Language.mem_mul]
    simp only [ih]
    exact ⟨fun ⟨xs, hxs, ys, hys, h⟩ => ⟨xs, ys, h.symm, hxs, hys⟩,
      fun ⟨xs, ys, h, hxs, hys⟩ => ⟨xs, hxs, ys, hys, h.symm⟩⟩

/-- A pattern accepts the texts of its language. -/
theorem accepts_iff : p.accepts cs = true ↔ cs ∈ p.language := by
  induction cs generalizing p with
  | nil => exact nil_mem_language.symm
  | cons c cs ih => exact ih.trans mem_language_after

end

/-! ## Built patterns -/

section
variable {p q : Pattern} {ps : List Pattern} {f : Char → Bool} {c : Char} {s : String}
  {ss : List String} {cs : List Char}

theorem append_mem_language_all {xs ys : List Char} (hxs : xs ∈ p.language)
    (hys : ys ∈ (all ps).language) : xs ++ ys ∈ (all (p :: ps)).language :=
  Language.append_mem_mul hxs hys

theorem mem_language_all_singleton : cs ∈ (all [p]).language ↔ cs ∈ p.language := by
  rw [show (all [p]).language = p.language * 1 from rfl, mul_one]

theorem language_choice_cons (p : Pattern) (ps : List Pattern) :
    (choice (p :: ps)).language = p.language + (choice ps).language :=
  rfl

theorem mem_language_char : cs ∈ (char c).language ↔ cs = [c] := by
  simp [char, language, mem_single]

theorem mem_language_choice : cs ∈ (choice ps).language ↔ ∃ p ∈ ps, cs ∈ p.language := by
  induction ps with
  | nil => simp [choice, language]
  | cons p ps ih =>
    rw [language_choice_cons, Language.mem_add, ih, List.exists_mem_cons_iff]

theorem mem_language_word : cs ∈ (word s).language ↔ cs = s.toList := by
  rw [word]
  induction s.toList generalizing cs with
  | nil => simp [language]
  | cons c rest ih =>
    rw [List.foldr_cons, language, Language.mem_mul]
    simp only [mem_language_char, ih]
    exact ⟨fun ⟨_, hx, _, hy, h⟩ => (by rw [← h, hx, hy]; rfl), fun h => ⟨[c], rfl, rest, rfl, h.symm⟩⟩

theorem mem_language_words : cs ∈ (words ss).language ↔ ∃ s ∈ ss, cs = s.toList := by
  rw [words, mem_language_choice]
  simp [mem_language_word]

/-- A repetition may be empty or of any length. -/
theorem mem_language_many (h : ∀ c ∈ cs, f c = true) : cs ∈ (many (one f)).language := by
  refine Language.mem_kstar.2 ⟨cs.map fun c => [c], ?_, ?_⟩
  · rw [← List.flatMap_def, List.flatMap_singleton']
  · intro part hpart
    obtain ⟨c, hc, rfl⟩ := List.mem_map.1 hpart
    exact ⟨c, h c hc, rfl⟩

theorem mem_language_some (hne : cs ≠ []) (h : ∀ c ∈ cs, f c = true) :
    cs ∈ (some (one f)).language := by
  obtain ⟨c, rest, rfl⟩ := List.exists_cons_of_ne_nil hne
  obtain ⟨hc, hrest⟩ := List.forall_mem_cons.1 h
  exact Language.append_mem_mul (a := [c]) ⟨c, hc, rfl⟩ (mem_language_many hrest)

theorem mem_language_optional : cs ∈ (optional p).language ↔ cs = [] ∨ cs ∈ p.language := by
  rw [optional, language, Language.mem_add, language, Language.mem_one]

end

/-! ## Characters that a pattern needs -/

/-- Every text of the pattern has the character. -/
def Needs (c : Char) (p : Pattern) : Prop :=
  ∀ cs ∈ p.language, c ∈ cs

section
variable {p q : Pattern} {ps : List Pattern} {c : Char}

theorem needs_char (c : Char) : Needs c (char c) := by
  intro cs h
  rw [mem_language_char.1 h]
  exact List.mem_cons_self

theorem Needs.all (hp : p ∈ ps) (h : Needs c p) : Needs c (all ps) := by
  induction ps with
  | nil => cases hp
  | cons first rest ih =>
    rintro cs ⟨xs, hxs, ys, hys, rfl⟩
    rcases List.mem_cons.1 hp with rfl | hp
    · exact List.mem_append_left _ (h xs hxs)
    · exact List.mem_append_right _ (ih hp ys hys)

theorem Needs.choice (h : ∀ p ∈ ps, Needs c p) : Needs c (choice ps) := by
  intro cs hcs
  obtain ⟨p, hp, hcs⟩ := mem_language_choice.1 hcs
  exact h p hp cs hcs

end

end StepGraph.Text.Pattern
