import Mathlib.Tactic.FieldSimp
import StepGraph.Proofs.Num.Shortest

/-!
# How a decimal is spelt

The text of a decimal is a run of digits, digits after a point, and an exponent (`Spelling`). Of all
notations a style can choose, `exists_spells` says at once what a reader needs to know: where digits
stand, that no zero comes first, and that the text has the value of the decimal.

* `exists_spells_finite`: in every style, the digits and the power that the text of a finite double
  spells are read as the double.
-/

set_option autoImplicit false

namespace StepGraph

/-! ## Digits -/

theorem isDigit_of_mem_decimal {n : Nat} {c : Char} (h : c ∈ Nat.toDigits 10 n) :
    c.isDigit = true :=
  Nat.isDigit_of_mem_toDigits (by decide) (by decide) h

/-- A positive number does not start with a zero. -/
theorem exists_toDigits_eq_cons {n : Nat} (hn : 0 < n) :
    ∃ c rest, Nat.toDigits 10 n = c :: rest ∧ c ≠ '0' := by
  induction n using Nat.strong_induction_on with
  | _ n ih =>
    rw [Nat.toDigits_eq_if (by decide)]
    split
    · rename_i hlt
      have hall : ∀ n < 10, 0 < n → n.digitChar ≠ '0' := by decide
      exact ⟨_, [], rfl, hall n hlt hn⟩
    · obtain ⟨c, rest, h, hc⟩ := ih (n / 10) (by omega) (by omega)
      rw [h]
      exact ⟨c, _, rfl, hc⟩

namespace FloatStyle

/-- The digits of an exponent, padded to two. -/
def exponentDigits (e : Int) : List Char :=
  (if e.natAbs < 10 then ['0'] else []) ++ Nat.toDigits 10 e.natAbs

theorem exponentText_toList (e : Int) : (exponentText e).toList =
    'e' :: (if e < 0 then '-' else '+') :: exponentDigits e := by
  unfold exponentText exponentDigits
  split <;> split <;> simp [Nat.repr_eq_ofList_toDigits]

theorem isDigit_exponentDigits (e : Int) : ∀ c ∈ exponentDigits e, c.isDigit = true := by
  intro c hc
  rcases List.mem_append.1 hc with hc | hc
  · split at hc
    · rw [List.mem_singleton.1 hc]; rfl
    · cases hc
  · exact isDigit_of_mem_decimal hc

theorem exponentDigits_ne_nil (e : Int) : exponentDigits e ≠ [] := by
  simp [exponentDigits, Nat.toDigits_ne_nil]

theorem ofDigitChars_exponentDigits (e : Int) :
    Nat.ofDigitChars 10 (exponentDigits e) 0 = e.natAbs := by
  rw [exponentDigits, Nat.ofDigitChars_append]
  split <;> simp [Nat.ofDigitChars_cons]

/-- The parts of a decimal's text. -/
structure Spelling where
  whole : List Char
  fraction : List Char
  exponent : Option Int

namespace Spelling

def exponentPart (s : Spelling) : List Char :=
  match s.exponent with
  | none => []
  | some e => (exponentText e).toList

/-- A point stands before a fraction only. -/
def text (s : Spelling) : List Char :=
  s.whole ++ ((if s.fraction = [] then [] else '.' :: s.fraction) ++ s.exponentPart)

/-- The digits as one number, and the power of ten that it counts. -/
def digits (s : Spelling) : Nat :=
  Nat.ofDigitChars 10 (s.whole ++ s.fraction) 0

def power (s : Spelling) : Int :=
  s.exponent.getD 0 - s.fraction.length

end Spelling

/-- The spelling is that of a decimal in a style. -/
structure Spells (style : FloatStyle) (d : Decimal) (s : Spelling) : Prop where
  text : (style.magnitude d).toList = s.text
  whole_ne_nil : s.whole ≠ []
  isDigit_whole : ∀ c ∈ s.whole, c.isDigit = true
  isDigit_fraction : ∀ c ∈ s.fraction, c.isDigit = true
  /-- No zero comes first but the one in front of a point. -/
  leading : (d.digits = 0 → d.power = 0) → s.whole = ['0'] ∨ s.whole.head? ≠ some '0'
  /-- The text is not that of a whole number. -/
  marked : s.fraction ≠ [] ∨ s.exponent ≠ none
  pointed : style.pointBeforeExponent = true → s.fraction ≠ []
  value : (s.digits : ℚ) * 10 ^ s.power = d.digits * 10 ^ d.power

section
variable {style : FloatStyle} {d : Decimal}

/-- More digits and a power that is smaller by as many make the same value. -/
theorem value_of_shift {s : Spelling} {k : Nat} (hdigits : s.digits = d.digits * 10 ^ k)
    (hpower : s.power = d.power - k) : (s.digits : ℚ) * 10 ^ s.power = d.digits * 10 ^ d.power := by
  rw [hdigits, hpower, zpow_sub₀ (by norm_num), zpow_natCast]
  push_cast
  field_simp

theorem isDigit_toDigits : ∀ c ∈ Nat.toDigits 10 d.digits, c.isDigit = true :=
  fun _ => isDigit_of_mem_decimal

theorem isDigit_replicate (n : Nat) : ∀ c ∈ List.replicate n '0', c.isDigit = true := by
  intro c hc
  rw [List.eq_of_mem_replicate hc]
  rfl

theorem head?_ne_zero (h : d.digits ≠ 0) {first rest : List Char} (hne : first ≠ [])
    (hsplit : Nat.toDigits 10 d.digits = first ++ rest) : first.head? ≠ some '0' := by
  obtain ⟨c, cs, hcons, hc⟩ := exists_toDigits_eq_cons (Nat.pos_of_ne_zero h)
  obtain ⟨c', first, rfl⟩ := List.exists_cons_of_ne_nil hne
  rw [hcons, List.cons_append, List.cons.injEq] at hsplit
  simpa [← hsplit.1] using hc

/-- Zeros fill the places up to the point. -/
theorem spells_whole (hp : 0 ≤ d.power)
    (htext : (style.magnitude d).toList =
      Nat.toDigits 10 d.digits ++ List.replicate d.power.toNat '0' ++ ['.', '0']) :
    Spells style d ⟨Nat.toDigits 10 d.digits ++ List.replicate d.power.toNat '0', ['0'], none⟩ where
  text := by rw [htext]; simp [Spelling.text, Spelling.exponentPart]
  whole_ne_nil := by simp [Nat.toDigits_ne_nil]
  isDigit_whole := List.forall_mem_append.2 ⟨isDigit_toDigits, isDigit_replicate _⟩
  isDigit_fraction := by simp
  leading h := by
    by_cases h0 : d.digits = 0
    · exact .inl (by simp [h0, h h0])
    · rw [List.head?_append_of_ne_nil _ Nat.toDigits_ne_nil]
      exact .inr (head?_ne_zero h0 Nat.toDigits_ne_nil (List.append_nil _).symm)
  marked := .inl (by simp)
  pointed _ := by simp
  value := by
    refine value_of_shift (k := d.power.toNat + 1) ?_ ?_
    · simp [Spelling.digits, Nat.ofDigitChars_append, Nat.ofDigitChars_cons, pow_succ]
      ring
    · simp [Spelling.power, hp]

/-- The point stands between the digits. -/
theorem spells_split (n : Nat) (exponent : Option Int) (hn : 0 < n)
    (hlt : n < (Nat.toDigits 10 d.digits).length)
    (hpower : exponent.getD 0 - ((Nat.toDigits 10 d.digits).length - n) = d.power)
    (htext : (style.magnitude d).toList =
      (Spelling.mk ((Nat.toDigits 10 d.digits).take n) ((Nat.toDigits 10 d.digits).drop n)
        exponent).text) :
    Spells style d
      ⟨(Nat.toDigits 10 d.digits).take n, (Nat.toDigits 10 d.digits).drop n, exponent⟩ where
  text := htext
  whole_ne_nil := by simp [List.take_eq_nil_iff, hn.ne', Nat.toDigits_ne_nil]
  isDigit_whole c hc := isDigit_toDigits c (List.mem_of_mem_take hc)
  isDigit_fraction c hc := isDigit_toDigits c (List.mem_of_mem_drop hc)
  leading _ := by
    have h0 : d.digits ≠ 0 := by
      intro h0
      rw [h0, Nat.toDigits_zero, List.length_singleton] at hlt
      omega
    refine .inr (head?_ne_zero h0 ?_ (List.take_append_drop n _).symm)
    simp [List.take_eq_nil_iff, hn.ne', Nat.toDigits_ne_nil]
  marked := .inl (by simpa using hlt)
  pointed _ := by simpa using hlt
  value := by
    refine value_of_shift (k := 0) ?_ ?_
    · simp [Spelling.digits]
    · rw [← hpower, Spelling.power, List.length_drop, Nat.cast_sub hlt.le]
      simp

/-- Zeros fill the places after the point. -/
theorem spells_below (n : Nat) (hn : (n + (Nat.toDigits 10 d.digits).length : Int) = -d.power)
    (htext : (style.magnitude d).toList =
      ['0', '.'] ++ (List.replicate n '0' ++ Nat.toDigits 10 d.digits)) :
    Spells style d ⟨['0'], List.replicate n '0' ++ Nat.toDigits 10 d.digits, none⟩ where
  text := by rw [htext]; simp [Spelling.text, Spelling.exponentPart, Nat.toDigits_ne_nil]
  whole_ne_nil := by simp
  isDigit_whole := by simp
  isDigit_fraction := List.forall_mem_append.2 ⟨isDigit_replicate _, isDigit_toDigits⟩
  leading _ := .inl rfl
  marked := .inl (by simp [Nat.toDigits_ne_nil])
  pointed _ := by simp [Nat.toDigits_ne_nil]
  value := by
    refine value_of_shift (k := 0) ?_ ?_
    · simp [Spelling.digits, Nat.ofDigitChars_append, Nat.ofDigitChars_cons]
    · simp only [Spelling.power, List.length_append, List.length_replicate, Option.getD_none]
      omega

/-- A lone digit has an exponent, and a fraction if a point is asked for. -/
theorem spells_lone {c : Char} (hc : Nat.toDigits 10 d.digits = [c])
    (htext : (style.magnitude d).toList =
      (Spelling.mk [c] (if style.pointBeforeExponent then ['0'] else []) (some d.power)).text) :
    Spells style d ⟨[c], if style.pointBeforeExponent then ['0'] else [], some d.power⟩ where
  text := htext
  whole_ne_nil := by simp
  isDigit_whole := hc ▸ isDigit_toDigits
  isDigit_fraction := by split <;> simp
  leading _ := by
    by_cases h0 : d.digits = 0
    · exact .inl (by rw [← hc, h0, Nat.toDigits_zero])
    · exact .inr (head?_ne_zero h0 (by simp) (hc.trans (List.append_nil _).symm))
  marked := .inr (by simp)
  pointed h := by simp [h]
  value := by
    have hvalue := Nat.ofDigitChars_ten_toDigits (n := d.digits)
    rw [hc] at hvalue
    refine value_of_shift (k := if style.pointBeforeExponent then 1 else 0) ?_ ?_
    · rw [Spelling.digits, Nat.ofDigitChars_append, hvalue]
      split <;> simp [Nat.ofDigitChars_cons, mul_comm]
    · rw [Spelling.power]
      split <;> simp

end

/-- Every notation has digits before a point or an exponent, and the value of the decimal. -/
theorem exists_spells (style : FloatStyle) (d : Decimal) : ∃ s, Spells style d s := by
  have hmagnitude : style.magnitude d = style.magnitude d := rfl
  conv_rhs at hmagnitude => unfold magnitude
  dsimp only at hmagnitude
  split at hmagnitude
  · split at hmagnitude
    · rename_i hp
      exact ⟨_, spells_whole hp (by rw [hmagnitude]; simp)⟩
    · split at hmagnitude
      · -- the point comes after the digit that counts ones
        refine ⟨_, spells_split ((Nat.toDigits 10 d.digits).length + d.power - 1 + 1).toNat none
          (by omega) (by omega) (by rw [Option.getD_none]; omega) ?_⟩
        have hdrop : (Nat.toDigits 10 d.digits).drop
            ((Nat.toDigits 10 d.digits).length + d.power - 1 + 1).toNat ≠ [] := by
          rw [Ne, List.drop_eq_nil_iff]
          omega
        simp only [hmagnitude, String.toList_ofList, Spelling.text, Spelling.exponentPart,
          if_neg hdrop, List.append_nil]
      · refine ⟨_, spells_below (-((Nat.toDigits 10 d.digits).length + d.power - 1) - 1).toNat
          (by omega) ?_⟩
        simp [hmagnitude]
  · cases hdigits : Nat.toDigits 10 d.digits with
    | nil => exact absurd hdigits Nat.toDigits_ne_nil
    | cons first rest =>
      rw [hdigits] at hmagnitude
      cases rest with
      | nil =>
        refine ⟨_, spells_lone hdigits ?_⟩
        rw [hmagnitude]
        cases style.pointBeforeExponent <;> simp [Spelling.text, Spelling.exponentPart]
      | cons second rest =>
        refine ⟨_, spells_split 1 (some ((first :: second :: rest).length + d.power - 1)) (by omega)
          (by simp [hdigits]) ?_ ?_⟩
        · simp only [hdigits, List.length_cons, Option.getD_some]
          omega
        · simp [hmagnitude, hdigits, Spelling.text, Spelling.exponentPart]

/-- The text of a finite double is its sign and the spelling of a decimal, which is read as the
double. -/
theorem exists_spells_finite (style : FloatStyle) {negative : Bool} {m : Nat} {e : Int}
    (hc : Double.Canonical m e) : ∃ d s, Spells style d s ∧ (d.digits = 0 → d.power = 0) ∧
      (style.write (.finite negative m e hc)).toList
        = (if negative then ['-'] else []) ++ s.text ∧
      Double.ofDecimal negative s.digits s.power = .finite negative m e hc := by
  have htext : ∀ {d s}, Spells style d s → (if m = 0 then ⟨0, 0⟩ else .shortest m e) = d →
      (style.write (.finite negative m e hc)).toList
        = (if negative then ['-'] else []) ++ s.text := by
    rintro d s hs rfl
    rw [← hs.text]
    cases negative <;> simp [write]
  by_cases hm : m = 0
  · subst hm
    obtain rfl : e = -1074 := hc.2.2.2.resolve_left (by decide)
    obtain ⟨s, hs⟩ := exists_spells style ⟨0, 0⟩
    have hvalue := hs.value
    rw [Nat.cast_zero, zero_mul, mul_eq_zero, Nat.cast_eq_zero] at hvalue
    have hdigits : s.digits = 0 := hvalue.resolve_right (by positivity)
    refine ⟨⟨0, 0⟩, s, hs, fun _ => rfl, htext hs (if_pos rfl), ?_⟩
    rw [hdigits, Double.ofDecimal, if_pos rfl]
    rfl
  · obtain ⟨h0, hsurrounds⟩ := Decimal.shortest_spec hc hm
    obtain ⟨s, hs⟩ := exists_spells style (.shortest m e)
    refine ⟨_, s, hs, fun h => absurd h h0, htext hs (if_neg hm), ?_⟩
    exact Double.ofDecimal_of_surrounds hc hm (hs.value ▸ hsurrounds)

end FloatStyle

end StepGraph
