import StepGraph.Proofs.Num.Spelling
import StepGraph.Proofs.Yaml.Resolve
import StepGraph.Yaml.Node.Compose
import StepGraph.Yaml.Node.ToValue
import StepGraph.Yaml.Write

/-!
# Scalars written plain

The plain text of a null, a boolean, a whole number or a double gets the tag of its type when it is
read (`resolve_ofScalar`): a whole number has no point, which every double's text needs and has
(`fraction_magnitude`). A string is written plain only if the writer's table calls its text a string,
and the reader's table agrees.

* `resolve_plain`: what the reader's table gives to a text, from what the writer's gives; and a scalar
  that is written plain, whatever its kind, is read with its own tag.
-/

set_option autoImplicit false

namespace StepGraph

open Text

/-! ## Digits -/

theorem mem_digits {c : Char} (h : c.isDigit = true) : c ∈ "0123456789".toList := by
  have hall : ∀ n < 10, Char.ofNat (48 + n) ∈ "0123456789".toList := by decide
  have hn : 48 ≤ c.toNat ∧ c.toNat ≤ 57 := by
    simpa [Char.isDigit, UInt32.le_iff_toNat_le] using h
  have hc := hall (c.toNat - 48) (by omega)
  rwa [show 48 + (c.toNat - 48) = c.toNat by omega, Char.ofNat_toNat] at hc

theorem contains_of_isDigit {cs : List Char} {c : Char}
    (hcs : "0123456789".toList.all cs.contains = true) (h : c.isDigit = true) :
    cs.contains c = true :=
  List.all_eq_true.1 hcs c (mem_digits h)

namespace FloatStyle

/-- Nothing, or the exponent of ten. -/
inductive Exponent : List Char → Prop
  | none : Exponent []
  | some {sign : Char} {digits : List Char} (hsign : sign = '-' ∨ sign = '+') (hne : digits ≠ [])
      (hdigits : ∀ c ∈ digits, c.isDigit = true) : Exponent ('e' :: sign :: digits)

/-- Digits with a point after the first ones, and an exponent. -/
inductive Fraction : List Char → Prop
  | mk (whole fraction : List Char) {exponent : List Char} (hne : whole ≠ [])
      (hwhole : ∀ c ∈ whole, c.isDigit = true) (hfraction : ∀ c ∈ fraction, c.isDigit = true)
      (hexponent : Exponent exponent) : Fraction (whole ++ '.' :: (fraction ++ exponent))

theorem exponent_exponentPart (s : Spelling) : Exponent s.exponentPart := by
  unfold Spelling.exponentPart
  split
  · exact .none
  · rename_i e _
    rw [exponentText_toList]
    exact .some (by split <;> simp) (exponentDigits_ne_nil e) (isDigit_exponentDigits e)

/-- If a point is asked for before an exponent, there are digits on both sides of a point. -/
theorem fraction_magnitude (style : FloatStyle) (hstyle : style.pointBeforeExponent = true)
    (d : Decimal) : Fraction (style.magnitude d).toList := by
  obtain ⟨s, hs⟩ := exists_spells style d
  rw [hs.text, Spelling.text, if_neg (hs.pointed hstyle)]
  exact .mk _ _ hs.whole_ne_nil hs.isDigit_whole hs.isDigit_fraction (exponent_exponentPart s)

end FloatStyle

namespace Yaml

/-! ## The rules for numbers -/

namespace Rule

/-- The sign of a written number. -/
def signText (negative : Bool) : List Char :=
  if negative then ['-'] else []

theorem mem_language_sign (negative : Bool) : signText negative ∈ sign.language := by
  refine Pattern.mem_language_optional.2 ?_
  cases negative
  · exact .inl rfl
  · exact .inr ⟨'-', by decide, rfl⟩

theorem mem_language_digit {c : Char} (h : c.isDigit = true) : [c] ∈ digit.language :=
  ⟨c, contains_of_isDigit (by decide) h, rfl⟩

theorem mem_language_digits_ {cs : List Char} (h : ∀ c ∈ cs, c.isDigit = true) :
    cs ∈ digits_.language :=
  Pattern.mem_language_many fun c hc => contains_of_isDigit (by decide) (h c hc)

theorem mem_language_exponent {cs : List Char} (h : FloatStyle.Exponent cs) :
    cs ∈ exponent.language := by
  refine Pattern.mem_language_optional.2 ?_
  cases h with
  | none => exact .inl rfl
  | @some sign digits hsign hne hdigits =>
    have hsign : [sign] ∈ (Pattern.anyOf "-+").language := by
      refine ⟨sign, ?_, rfl⟩
      rcases hsign with rfl | rfl <;> decide
    have hdigits : digits ∈ (Pattern.some digit).language :=
      Pattern.mem_language_some hne fun c hc => contains_of_isDigit (by decide) (hdigits c hc)
    have hletter : ['e'] ∈ (Pattern.anyOf "eE").language := ⟨'e', by decide, rfl⟩
    exact .inr (Pattern.append_mem_language_all hletter
      (Pattern.append_mem_language_all hsign (Pattern.mem_language_all_singleton.2 hdigits)))

/-- A number starts with its sign or with its first digit. -/
theorem mem_of_head_signText {negative : Bool} {c : Char} {cs firsts : List Char}
    (hc : c.isDigit = true) (hfirsts : "-0123456789".toList.all firsts.contains = true) :
    ∀ first ∈ (signText negative ++ c :: cs).head?, first ∈ firsts := by
  intro first hfirst
  have hstart : first ∈ "-0123456789".toList := by
    cases negative <;> cases hfirst
    · exact List.mem_cons_of_mem _ (mem_digits hc)
    · exact List.mem_cons_self
  exact List.contains_iff_mem.1 (List.all_eq_true.1 hfirsts first hstart)

theorem float_applies {cs : List Char} (negative : Bool) (h : FloatStyle.Fraction cs) :
    float.applies (signText negative ++ cs) = true := by
  obtain ⟨whole, fraction, hne, hwhole, hfraction, hexponent⟩ := h
  rename_i exponent
  obtain ⟨c, rest, rfl⟩ := List.exists_cons_of_ne_nil hne
  obtain ⟨hc, hrest⟩ := List.forall_mem_cons.1 hwhole
  refine applies_of_mem (mem_of_head_signText hc (by decide)) (by simp)
    (Pattern.mem_language_choice.2 ⟨_, List.mem_cons_self, ?_⟩)
  have hpoint : ['.'] ∈ (Pattern.char '.').language := Pattern.mem_language_char.2 rfl
  have htail : '.' :: (fraction ++ exponent) ∈
      (Pattern.all [.char '.', digits_, Rule.exponent]).language :=
    Pattern.append_mem_language_all hpoint
      (Pattern.append_mem_language_all (mem_language_digits_ hfraction)
        (Pattern.mem_language_all_singleton.2 (mem_language_exponent hexponent)))
  have hdigit : [c] ∈ digit.language := mem_language_digit hc
  have hunsigned := Pattern.append_mem_language_all hdigit
    (Pattern.append_mem_language_all (mem_language_digits_ hrest) htail)
  exact Pattern.append_mem_language_all (mem_language_sign negative) hunsigned

theorem mem_language_decimal (n : Nat) :
    Nat.toDigits 10 n ∈ (Pattern.either (.char '0') (.both nonzero digits_)).language := by
  rw [Pattern.language, Language.mem_add]
  rcases Nat.eq_zero_or_pos n with rfl | hn
  · exact .inl (Pattern.mem_language_char.2 rfl)
  · obtain ⟨c, rest, h, hc⟩ := exists_toDigits_eq_cons hn
    have hdigits : ∀ d ∈ c :: rest, d.isDigit = true := fun d hd =>
      isDigit_of_mem_decimal (n := n) (by rwa [h])
    obtain ⟨hfirst, hrest⟩ := List.forall_mem_cons.1 hdigits
    have hnonzero : "123456789".toList.contains c = true := by
      rcases List.mem_cons.1 (mem_digits hfirst) with hzero | hmem
      · exact absurd hzero hc
      · exact List.contains_iff_mem.2 hmem
    rw [h]
    exact .inr (Language.append_mem_mul (a := [c]) ⟨c, hnonzero, rfl⟩ (mem_language_digits_ hrest))

theorem int_applies (negative : Bool) (n : Nat) :
    int.applies (signText negative ++ Nat.toDigits 10 n) = true := by
  have hne := Nat.toDigits_ne_nil (b := 10) (n := n)
  have hmem : signText negative ++ Nat.toDigits 10 n ∈ int.pattern.language :=
    Pattern.mem_language_choice.2 ⟨_, .tail _ (.tail _ (.head _)),
      Pattern.append_mem_language_all (mem_language_sign negative)
        (Pattern.mem_language_all_singleton.2 (mem_language_decimal n))⟩
  refine applies_of_mem ?_ (by simp [hne]) hmem
  obtain ⟨c, rest, h⟩ := List.exists_cons_of_ne_nil hne
  rw [h]
  exact mem_of_head_signText (isDigit_of_mem_decimal (n := n) (by simp [h])) (by decide)

/-- A whole number has no point. -/
theorem not_float_applies (negative : Bool) (n : Nat) :
    ¬ float.applies (signText negative ++ Nat.toDigits 10 n) = true := by
  refine not_applies_of_needs float_needs_point rfl fun hpoint => ?_
  rcases List.mem_append.1 hpoint with h | h
  · cases negative <;> simp [signText] at h
  · exact absurd (isDigit_of_mem_decimal h) (by decide)

end Rule

/-! ## Written scalars -/

theorem resolve_fraction {cs : List Char} (negative : Bool) (h : FloatStyle.Fraction cs) :
    resolve workflowRules (Rule.signText negative ++ cs) = .float := by
  have hfloat := Rule.float_applies negative h
  have hbool := Rule.not_applies_of_disjoint .workflowBool rfl (by decide) hfloat
  rw [workflowRules_eq, resolve_cons, if_neg hbool, resolve_cons, if_pos hfloat]
  rfl

theorem resolve_whole (negative : Bool) (n : Nat) :
    resolve workflowRules (Rule.signText negative ++ Nat.toDigits 10 n) = .int := by
  have hint := Rule.int_applies negative n
  have hbool := Rule.not_applies_of_disjoint .workflowBool rfl (by decide) hint
  rw [workflowRules_eq, resolve_cons, if_neg hbool, resolve_cons,
    if_neg (Rule.not_float_applies negative n), resolve_cons, if_pos hint]
  rfl

theorem resolve_toString (n : Int) : resolve workflowRules (toString n).toList = .int := by
  cases n with
  | ofNat n =>
    have htext : (toString (Int.ofNat n)).toList = Rule.signText false ++ Nat.toDigits 10 n := by
      simp [toString, Int.repr, Rule.signText, Nat.repr_eq_ofList_toDigits]
    rw [htext, resolve_whole]
  | negSucc n =>
    have htext : (toString (Int.negSucc n)).toList =
        Rule.signText true ++ Nat.toDigits 10 (n + 1) := by
      simp [toString, Int.repr, Rule.signText, Nat.repr_eq_ofList_toDigits]
    rw [htext, resolve_whole]

theorem resolve_writeFloat (d : Double) :
    resolve workflowRules (floatStyle.write d).toList = .float := by
  cases d with
  | nan => decide
  | infinity negative => cases negative <;> decide
  | finite negative m e h =>
    have htext : (floatStyle.write (.finite negative m e h)).toList = Rule.signText negative ++
        (floatStyle.magnitude (if m = 0 then ⟨0, 0⟩ else .shortest m e)).toList := by
      cases negative <;> simp [FloatStyle.write, Rule.signText]
    rw [htext, resolve_fraction negative (FloatStyle.fraction_magnitude _ rfl _)]

/-- Whatever is no string has the tag of its type. -/
theorem resolve_ofScalar (o : Options) {s : Scalar} (h : s.isString = false) :
    resolve workflowRules (Leaf.ofScalar o s).text = (Leaf.ofScalar o s).tag := by
  cases s with
  | null =>
    have hnull : resolve workflowRules "null".toList = .null := by decide
    exact hnull
  | bool b =>
    have hbool : ∀ b : Bool,
        resolve workflowRules (if b then "true" else "false").toList = .bool := by decide
    exact hbool b
  | num n =>
    cases n with
    | int n => exact resolve_toString n
    | float d => exact resolve_writeFloat d
  | str s => cases h

/-- A text that is a string by the writer's table is one by the reader's. -/
theorem resolve_str {cs : List Char} (h : resolve standardRules cs = .str) :
    resolve workflowRules cs = .str := by
  rw [resolve_workflowRules, h]

/-- Plain style is chosen only for a text of the right type. -/
theorem implicit_of_plain {t : TextTraits} {place : TextTraits.Place} {canonical implicit : Bool}
    {asked : Option ScalarStyle} (h : t.style place canonical implicit asked = .plain) :
    implicit = true := by
  cases himplicit : implicit with
  | true => rfl
  | false =>
    have hother : t.style place canonical false asked ≠ .plain := by
      simp only [TextTraits.style, Bool.false_and]
      grind
    exact absurd (himplicit ▸ h) hother

/-- A scalar without a tag that is a string is read as its text. -/
theorem toValue_of_str {text : String} (h : resolve workflowRules text.toList = .str)
    (place : Mark) :
    (Node.scalar (Composer.scalarTag ⟨none, none⟩ true text) text place).toValue =
      .ok (.str text) := by
  rw [Composer.scalarTag]
  simp only [h]
  rfl

/-- The tables differ on timestamps and on booleans only, in that these are strings for the reader.
A string for the writer is read as that string; a null, a boolean, a whole number and a double are
read with the tag of their type; and so is every scalar that is written plain. -/
theorem resolve_plain :
    (∀ cs, resolve workflowRules cs =
      match resolve standardRules cs with
      | .timestamp => .str
      | .bool => if cs ∈ Rule.lines Rule.workflowBooleans then .bool else .str
      | tag => tag) ∧
    (∀ text : String, resolve standardRules text.toList = .str → ∀ place,
      (Node.scalar (Composer.scalarTag ⟨none, none⟩ true text) text place).toValue =
        .ok (.str text)) ∧
    (∀ o, resolve workflowRules (Leaf.ofScalar o .null).text = .null ∧
      (∀ b, resolve workflowRules (Leaf.ofScalar o (.bool b)).text = .bool) ∧
      (∀ n, resolve workflowRules (Leaf.ofScalar o (.int n)).text = .int) ∧
      ∀ d, resolve workflowRules (Leaf.ofScalar o (.float d)).text = .float) ∧
    ∀ (o : Options) (place : TextTraits.Place) (s : Scalar), let l := Leaf.ofScalar o s
      (TextTraits.of o.unicode l.text).style place o.canonical
          (resolve standardRules l.text == l.tag) l.asked = .plain →
        resolve workflowRules l.text = l.tag := by
  refine ⟨resolve_workflowRules, fun text h => toValue_of_str (resolve_str h), fun o => ?_, ?_⟩
  · exact ⟨resolve_ofScalar o (s := .null) rfl, fun b => resolve_ofScalar o (s := .bool b) rfl,
      fun n => resolve_ofScalar o (s := .int n) rfl, fun d => resolve_ofScalar o (s := .float d) rfl⟩
  · intro o place s l hplain
    cases hs : s.isString with
    | false => exact resolve_ofScalar o hs
    | true =>
      have htag : l.tag = .str := by
        cases s with
        | str text => rfl
        | _ => cases hs
      have himplicit := eq_of_beq (implicit_of_plain hplain)
      rw [htag] at himplicit ⊢
      exact resolve_str himplicit

/-- The number of a version has two points. -/
theorem version_read_as_string :
    resolve standardRules "1.2.3".toList = .str ∧
    (∀ place, (Node.scalar (Composer.scalarTag ⟨none, none⟩ true "1.2.3") "1.2.3" place).toValue =
      .ok (.str "1.2.3")) ∧
    (TextTraits.of true "1.2.3".toList).style ⟨false, false⟩ false true none = .plain ∧
    resolve workflowRules "1.2.3".toList = .str := by
  have hplain : (TextTraits.of true "1.2.3".toList).style ⟨false, false⟩ false true none =
      .plain := by decide
  exact ⟨by decide, resolve_plain.2.1 "1.2.3" (by decide), hplain,
    resolve_plain.2.2.2 (.standard 2 80) ⟨false, false⟩ (.str "1.2.3") hplain⟩

end Yaml

end StepGraph
