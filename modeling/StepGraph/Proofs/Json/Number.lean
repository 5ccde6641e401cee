import StepGraph.Json.Read
import StepGraph.Json.Write
import StepGraph.Proofs.Num.Spelling

/-!
# Numbers in JSON

A number is read up to the first character that cannot belong to one (`EndsNumber`). A spelling is
taken apart into the digits that it was put together from (`number_spelling`).

* `isWord_int`: a whole number is read as it was written, unless it has too many digits.
* `isWord_float`: so is every double.
-/

set_option autoImplicit false

namespace StepGraph.Json

open FloatStyle (Spelling Spells)

/-! ## Runs of digits -/

theorem isDigit_eq (c : Char) : isDigit c = c.isDigit := by
  simp [isDigit, Char.isDigit, Char.le_def]

/-- A text that does not go on with a digit. -/
def EndsDigits (rest : List Char) : Prop :=
  ∀ c ∈ rest.head?, c.isDigit = false

/-- A text that does not go on with any part of a number. -/
def EndsNumber (rest : List Char) : Prop :=
  ∀ c ∈ rest.head?, c.isDigit = false ∧ c ≠ '.' ∧ c ≠ 'e' ∧ c ≠ 'E'

theorem EndsNumber.endsDigits {rest : List Char} (h : EndsNumber rest) : EndsDigits rest :=
  fun c hc => (h c hc).1

section
variable {digits rest : List Char}

theorem span_digits (hdigits : ∀ c ∈ digits, c.isDigit = true) (hrest : EndsDigits rest) :
    (digits ++ rest).span isDigit = (digits, rest) := by
  have hall : ∀ c ∈ digits, isDigit c = true := fun c hc => by rw [isDigit_eq, hdigits c hc]
  rw [List.span_eq_takeWhile_dropWhile, List.takeWhile_append_of_pos hall,
    List.dropWhile_append_of_pos hall]
  cases rest with
  | nil => simp
  | cons c rest =>
    have hc : isDigit c = false := by rw [isDigit_eq, hrest c rfl]
    simp [hc]

theorem ofDigits_digitValues (digits : List Char) :
    Numeral.ofDigits 10 (digitValues digits) = Nat.ofDigitChars 10 digits 0 := by
  rw [Numeral.ofDigits, digitValues, List.foldl_map, Nat.ofDigitChars_eq_foldl]

theorem wholeDigits_append (hdigits : ∀ c ∈ digits, c.isDigit = true)
    (hleading : digits = ['0'] ∨ digits.head? ≠ some '0') (hne : digits ≠ [])
    (hrest : EndsDigits rest) : wholeDigits (digits ++ rest) = (digits, rest) := by
  rcases hleading with rfl | hleading
  · rfl
  · obtain ⟨c, cs, rfl⟩ := List.exists_cons_of_ne_nil hne
    rw [← span_digits hdigits hrest, List.cons_append, wholeDigits]
    rintro rest ⟨⟩
    exact hleading rfl

/-- A point that stands before digits belongs to the number. -/
theorem fractionDigits_point (hdigits : ∀ c ∈ digits, c.isDigit = true) (hne : digits ≠ [])
    (hrest : EndsDigits rest) : fractionDigits ('.' :: (digits ++ rest)) = (digits, rest) := by
  obtain ⟨c, cs, rfl⟩ := List.exists_cons_of_ne_nil hne
  rw [fractionDigits, span_digits hdigits hrest]

theorem fractionDigits_none (hrest : rest.head? ≠ some '.') :
    fractionDigits rest = ([], rest) := by
  cases rest with
  | nil => rfl
  | cons c rest =>
    rw [fractionDigits]
    rintro rest ⟨⟩
    exact hrest rfl

theorem exponent?_none (hrest : EndsNumber rest) : exponent? rest = none := by
  cases rest with
  | nil => rfl
  | cons c rest =>
    obtain ⟨-, -, he, hE⟩ := hrest c rfl
    rw [exponent?, if_neg]
    simp [he, hE]

theorem exponent?_exponentText (e : Int) (hrest : EndsDigits rest) :
    exponent? ((FloatStyle.exponentText e).toList ++ rest) = some (e, rest) := by
  have hspan := span_digits (FloatStyle.isDigit_exponentDigits e) hrest
  have hvalue := ofDigits_digitValues (FloatStyle.exponentDigits e)
  rw [FloatStyle.ofDigitChars_exponentDigits] at hvalue
  obtain ⟨c, cs, hcons⟩ := List.exists_cons_of_ne_nil (FloatStyle.exponentDigits_ne_nil e)
  rw [FloatStyle.exponentText_toList, List.cons_append, List.cons_append, exponent?,
    if_pos (.inl rfl)]
  rw [hcons] at hspan hvalue ⊢
  by_cases he : e < 0
  · simp only [if_pos he, Numeral.sign, hspan, hvalue, if_true]
    congr 2
    omega
  · simp only [if_neg he, Numeral.sign, hspan, hvalue, Bool.false_eq_true, if_false]
    congr 2
    omega

end

/-! ## Numbers -/

section
variable {rest : List Char}

theorem endsDigits_exponentPart (s : Spelling) (hrest : EndsNumber rest) :
    EndsDigits (s.exponentPart ++ rest) := by
  unfold Spelling.exponentPart
  split
  · exact hrest.endsDigits
  · rw [FloatStyle.exponentText_toList]
    rintro c ⟨⟩
    rfl

theorem exponentPart_head? (s : Spelling) (hrest : EndsNumber rest) :
    (s.exponentPart ++ rest).head? ≠ some '.' := by
  unfold Spelling.exponentPart
  split
  · intro h
    exact (hrest '.' h).2.1 rfl
  · simp [FloatStyle.exponentText_toList]

/-- The sign that a number is written with. -/
def signText (negative : Bool) : List Char :=
  if negative then ['-'] else []

/-- What is made of the digits of a number: its exponent or a fraction makes it a double. -/
def numberOf (negative : Bool) (whole fraction afterFraction : List Char) :
    Attempt Flaw (Value × List Char) :=
  let float (exponent : Int) : Value :=
    .float (.ofDecimal negative (Nat.ofDigitChars 10 (whole ++ fraction) 0)
      (exponent - fraction.length))
  match exponent? afterFraction with
  | some (exponent, rest) => .ok (float exponent, rest)
  | none =>
    if fraction ≠ [] then .ok (float 0, afterFraction)
    else if Numeral.maxDigits < whole.length then breakOff .notANumber
    else
      let n : Int := Nat.ofDigitChars 10 whole 0
      .ok (.int (if negative then -n else n), afterFraction)

theorem number_eq (negative : Bool) {c : Char} {cs whole afterWhole : List Char}
    {fraction afterFraction : List Char} (hc : c.isDigit = true)
    (hwhole : wholeDigits (c :: cs) = (whole, afterWhole)) (hne : whole ≠ [])
    (hfraction : fractionDigits afterWhole = (fraction, afterFraction)) :
    number (signText negative ++ c :: cs) = numberOf negative whole fraction afterFraction := by
  obtain ⟨w, ws, rfl⟩ := List.exists_cons_of_ne_nil hne
  cases negative with
  | true =>
    rw [signText, if_pos rfl, List.singleton_append, number]
    simp only [hwhole, hfraction, ofDigits_digitValues]
    rfl
  | false =>
    rw [signText, if_neg (by decide), List.nil_append, number]
    · simp only [hwhole, hfraction, ofDigits_digitValues]
      rfl
    · -- a digit is no sign
      rintro rest ⟨⟩
      cases hc

/-- A sign and a spelling are read as the double of its digits. -/
theorem number_spelling (negative : Bool) {style : FloatStyle} {d : Decimal} {s : Spelling}
    (hs : Spells style d s) (hd : d.digits = 0 → d.power = 0) (hrest : EndsNumber rest) :
    number (signText negative ++ (s.text ++ rest))
      = .ok (.float (.ofDecimal negative s.digits s.power), rest) := by
  have hends := endsDigits_exponentPart s hrest
  have hfraction : fractionDigits ((if s.fraction = [] then [] else '.' :: s.fraction)
      ++ (s.exponentPart ++ rest)) = (s.fraction, s.exponentPart ++ rest) := by
    split
    · rename_i hnone
      rw [hnone]
      exact fractionDigits_none (exponentPart_head? s hrest)
    · rename_i hsome
      exact fractionDigits_point hs.isDigit_fraction hsome hends
  have hafter : EndsDigits ((if s.fraction = [] then [] else '.' :: s.fraction)
      ++ (s.exponentPart ++ rest)) := by
    split
    · exact hends
    · rintro c ⟨⟩
      rfl
  have hwhole := wholeDigits_append hs.isDigit_whole (hs.leading hd) hs.whole_ne_nil hafter
  obtain ⟨c, cs, hcons⟩ := List.exists_cons_of_ne_nil hs.whole_ne_nil
  have hc : c.isDigit = true := hs.isDigit_whole c (by rw [hcons]; exact List.mem_cons_self)
  have htext : s.text ++ rest = c :: (cs ++ ((if s.fraction = [] then [] else '.' :: s.fraction)
      ++ (s.exponentPart ++ rest))) := by
    rw [Spelling.text, hcons, List.append_assoc, List.append_assoc, List.cons_append]
  rw [hcons, List.cons_append, ← hcons] at hwhole
  rw [htext, number_eq negative hc hwhole hs.whole_ne_nil hfraction, numberOf]
  unfold Spelling.exponentPart Spelling.digits Spelling.power
  cases he : s.exponent with
  | some e => simp only [exponent?_exponentText e hrest.endsDigits, Option.getD_some]
  | none =>
    have hpoint : s.fraction ≠ [] := hs.marked.resolve_right fun h => h he
    simp only [List.nil_append, exponent?_none hrest, if_pos hpoint, Option.getD_none]

theorem toList_toString_int (n : Int) :
    (toString n).toList = signText (decide (n < 0)) ++ Nat.toDigits 10 n.natAbs := by
  cases n <;> simp [toString, Int.repr, signText, Nat.repr_eq_ofList_toDigits]

/-- A whole number of a length that is read at all. -/
theorem number_int {n : Int} (hn : (Nat.toDigits 10 n.natAbs).length ≤ Numeral.maxDigits)
    (hrest : EndsNumber rest) : number ((toString n).toList ++ rest) = .ok (.int n, rest) := by
  have hdigits : ∀ c ∈ Nat.toDigits 10 n.natAbs, c.isDigit = true :=
    fun c => isDigit_of_mem_decimal
  have hleading : Nat.toDigits 10 n.natAbs = ['0'] ∨
      (Nat.toDigits 10 n.natAbs).head? ≠ some '0' := by
    by_cases h0 : n.natAbs = 0
    · exact .inl (by rw [h0, Nat.toDigits_zero])
    · obtain ⟨c, cs, hcons, hc⟩ := exists_toDigits_eq_cons (Nat.pos_of_ne_zero h0)
      exact .inr (by rw [hcons]; simpa using hc)
  have hne := Nat.toDigits_ne_nil (b := 10) (n := n.natAbs)
  have hwhole := wholeDigits_append hdigits hleading hne hrest.endsDigits
  have hfraction := fractionDigits_none fun h => (hrest '.' h).2.1 rfl
  have hvalue := Nat.ofDigitChars_ten_toDigits (n := n.natAbs)
  rw [toList_toString_int, List.append_assoc]
  obtain ⟨c, cs, hcons⟩ := List.exists_cons_of_ne_nil hne
  rw [hcons] at hdigits hwhole hn hvalue ⊢
  rw [List.cons_append] at hwhole ⊢
  rw [number_eq _ (hdigits c List.mem_cons_self) hwhole (by simp) hfraction, numberOf]
  simp only [exponent?_none hrest, ne_eq, not_true_eq_false, if_false, if_neg (not_lt.2 hn), hvalue,
    decide_eq_true_eq]
  congr 3
  split <;> omega

/-! ## Constants -/

theorem plain_constant {word : String} {v : Value} (h : (word, v) ∈ constants) :
    plain (word.toList ++ rest) = .ok (v, rest) := by
  simp only [constants, List.mem_cons, Prod.mk.injEq, List.not_mem_nil, or_false] at h
  rcases h with ⟨rfl, rfl⟩ | ⟨rfl, rfl⟩ | ⟨rfl, rfl⟩ | ⟨rfl, rfl⟩ | ⟨rfl, rfl⟩ | ⟨rfl, rfl⟩ <;> rfl

/-- No constant starts like a number. -/
theorem plain_eq_number (negative : Bool) {c : Char} (hc : c.isDigit = true) (cs : List Char) :
    plain (signText negative ++ c :: cs) = number (signText negative ++ c :: cs) := by
  have hother : ∀ d : Char, d.isDigit = false → d ≠ c := by
    rintro d hd rfl
    rw [hc] at hd
    cases hd
  have hfirst : 'n' ≠ c ∧ 't' ≠ c ∧ 'f' ≠ c ∧ 'N' ≠ c ∧ 'I' ≠ c ∧ '-' ≠ c :=
    ⟨hother _ rfl, hother _ rfl, hother _ rfl, hother _ rfl, hother _ rfl, hother _ rfl⟩
  have hnone : (constants.find? fun constant =>
      constant.1.toList.isPrefixOf (signText negative ++ c :: cs)) = none := by
    cases negative <;> simp [constants, signText, hfirst]
  rw [plain, hnone]

/-! ## Words -/

/-- A text that starts like a value, but neither like a text nor like a collection. -/
def StartsWord (cs : List Char) : Prop :=
  ∃ c tail, cs = c :: tail ∧ isSpace c = false ∧ c ∉ ['"', '[', ']', '\x7b', '\x7d']

theorem startsWord_digits (negative : Bool) {c : Char} (hc : c.isDigit = true) (cs : List Char) :
    StartsWord (signText negative ++ c :: cs) := by
  have hother : ∀ d : Char, d.isDigit = false → c ≠ d := by
    rintro d hd rfl
    rw [hc] at hd
    cases hd
  cases negative with
  | true => exact ⟨'-', c :: cs, rfl, rfl, by decide⟩
  | false =>
    refine ⟨c, cs, rfl, ?_, ?_⟩
    · simp [isSpace, hother ' ' rfl, hother '\t' rfl, hother '\n' rfl, hother '\r' rfl]
    · simp [hother '"' rfl, hother '[' rfl, hother ']' rfl, hother '\x7b' rfl,
        hother '\x7d' rfl]

theorem startsWord_constant {word : String} {v : Value} (h : (word, v) ∈ constants)
    (rest : List Char) : StartsWord (word.toList ++ rest) := by
  simp only [constants, List.mem_cons, Prod.mk.injEq, List.not_mem_nil, or_false] at h
  rcases h with ⟨rfl, -⟩ | ⟨rfl, -⟩ | ⟨rfl, -⟩ | ⟨rfl, -⟩ | ⟨rfl, -⟩ | ⟨rfl, -⟩ <;>
    exact ⟨_, _, rfl, by decide, by decide⟩

/-- A text that is read as a value wherever it ends, and is neither a text nor a collection. -/
def IsWord (cs : List Char) (v : Value) : Prop :=
  ∀ rest, EndsNumber rest → StartsWord (cs ++ rest) ∧ plain (cs ++ rest) = .ok (v, rest)

theorem isWord_constant {word : String} {v : Value} (h : (word, v) ∈ constants) :
    IsWord word.toList v :=
  fun rest _ => ⟨startsWord_constant h rest, plain_constant h⟩

theorem isWord_int {n : Int} (hn : (Nat.toDigits 10 n.natAbs).length ≤ Numeral.maxDigits) :
    IsWord (toString n).toList (.int n) := by
  intro rest hrest
  have hread := number_int hn hrest
  rw [toList_toString_int, List.append_assoc] at hread ⊢
  have hne := Nat.toDigits_ne_nil (b := 10) (n := n.natAbs)
  obtain ⟨c, cs, hcons⟩ := List.exists_cons_of_ne_nil hne
  have hc : c.isDigit = true := isDigit_of_mem_decimal (by rw [hcons]; exact List.mem_cons_self)
  rw [hcons, List.cons_append] at hread ⊢
  exact ⟨startsWord_digits _ hc _, (plain_eq_number _ hc _).trans hread⟩

/-- Every double is written with the digits that lead back to it, or as one of three words. -/
theorem isWord_float (d : Double) : IsWord (floatStyle.write d).toList (.float d) := by
  cases d with
  | nan => exact @isWord_constant "NaN" _ (by simp [constants])
  | infinity negative =>
    cases negative with
    | false => exact @isWord_constant "Infinity" _ (by simp [constants])
    | true => exact @isWord_constant "-Infinity" _ (by simp [constants])
  | finite negative m e hc =>
    intro rest hrest
    obtain ⟨d, s, hs, hd, htext, hvalue⟩ :=
      @FloatStyle.exists_spells_finite floatStyle negative m e hc
    have hread := number_spelling negative hs hd hrest
    obtain ⟨c, cs, hcons⟩ := List.exists_cons_of_ne_nil hs.whole_ne_nil
    have hc : c.isDigit = true := hs.isDigit_whole c (by rw [hcons]; exact List.mem_cons_self)
    rw [hvalue] at hread
    rw [htext, List.append_assoc]
    change StartsWord (signText negative ++ (s.text ++ rest)) ∧
      plain (signText negative ++ (s.text ++ rest)) = _
    rw [Spelling.text, hcons, List.cons_append, List.cons_append] at hread ⊢
    exact ⟨startsWord_digits _ hc _, (plain_eq_number _ hc _).trans hread⟩

end

end StepGraph.Json
