import Mathlib.Data.List.Basic
import StepGraph.Json.Read
import StepGraph.Json.Write
import StepGraph.Proofs.Fault

/-!
# Texts in JSON

Each character of a text is written as itself, as an escape of one letter, or by its code units, and
in each of these forms it is read in one step (`stringChars_writeChar`), provided that the text goes
on: the closing quote always follows.

* `string_writeString`: a text is read as it was written.
-/

set_option autoImplicit false

namespace StepGraph

/-! ## Hexadecimal digits -/

namespace Text

theorem digit?_digitChar {d : Nat} (h : d < 16) : digit? 16 d.digitChar = some d := by
  have hall : ∀ d < 16, digit? 16 d.digitChar = some d := by decide
  exact hall d h

theorem isHexDigit_digitChar {d : Nat} (h : d < 16) : isHexDigit d.digitChar = true := by
  have hall : ∀ d < 16, isHexDigit d.digitChar = true := by decide
  exact hall d h

theorem isHexDigit_of_mem {n : Nat} {c : Char} (h : c ∈ Nat.toDigits 16 n) :
    isHexDigit c = true := by
  induction n using Nat.strongRecOn with
  | _ n ih =>
    rw [Nat.toDigits_eq_if (by decide)] at h
    split at h
    · rename_i hlt
      rw [List.mem_singleton.1 h]
      exact isHexDigit_digitChar hlt
    · rcases List.mem_append.1 h with h | h
      · exact ih (n / 16) (by omega) h
      · rw [List.mem_singleton.1 h]
        exact isHexDigit_digitChar (Nat.mod_lt n (by decide))

theorem readHex_append (ds : List Char) (c : Char) :
    readHex (ds ++ [c]) = 16 * readHex ds + (digit? 16 c).getD 0 := by
  rw [readHex, List.foldl_append]
  rfl

theorem readHex_toDigits (n : Nat) : readHex (Nat.toDigits 16 n) = n := by
  induction n using Nat.strongRecOn with
  | _ n ih =>
    rw [Nat.toDigits_eq_if (by decide)]
    split
    · rename_i hlt
      simp [readHex, digit?_digitChar hlt]
    · rw [readHex_append, ih (n / 16) (by omega), digit?_digitChar (Nat.mod_lt n (by decide))]
      exact Nat.div_add_mod n 16

theorem readHex_zeros (k : Nat) (ds : List Char) :
    readHex (List.replicate k '0' ++ ds) = readHex ds := by
  induction k with
  | zero => rfl
  | succ k ih => exact ih

section
variable {width n : Nat}

theorem readHex_hex (width n : Nat) : readHex (hex width n) = n := by
  rw [hex, readHex_zeros, readHex_toDigits]

/-- A code unit has four digits. -/
theorem length_hex (hn : n < 0x10000) : (hex 4 n).length = 4 := by
  have hle := (Nat.length_toDigits_le_iff (b := 16) (k := 4) (by decide) (by decide)).2 hn
  rw [hex, List.length_append, List.length_replicate]
  omega

theorem isHexDigit_hex : ∀ c ∈ hex width n, isHexDigit c = true := by
  intro c hc
  rcases List.mem_append.1 hc with hc | hc
  · rw [List.eq_of_mem_replicate hc]
    rfl
  · exact isHexDigit_of_mem hc

end

end Text

namespace Json

open Text

/-! ## Code units -/

section
variable {rest : List Char}

theorem codeUnit_hex {n : Nat} (hn : n < 0x10000) (hrest : rest ≠ []) :
    codeUnit (hex 4 n ++ rest) = .ok (n, rest) := by
  have hlen : (hex 4 n).length = 4 := length_hex hn
  have htake : (hex 4 n ++ rest).take 4 = hex 4 n := List.take_left' hlen
  have hdrop : (hex 4 n ++ rest).drop 4 = rest := List.drop_left' hlen
  have hall : (hex 4 n).all isHexDigit = true := List.all_eq_true.2 isHexDigit_hex
  rw [codeUnit]
  simp only [htake, hdrop, hlen, hall, hrest, ne_eq, not_false_eq_true, and_self, if_true,
    readHex_hex]

theorem toNat_cases (c : Char) : c.toNat < 0xD800 ∨ 0xE000 ≤ c.toNat ∧ c.toNat < 0x110000 := by
  rcases c.valid with h | ⟨hlow, hhigh⟩
  · exact .inl h
  · exact .inr ⟨hlow, hhigh⟩

/-- A character with one code unit. -/
theorem codePoint_hex {c : Char} (hc : c.toNat < 0x10000) (hrest : rest ≠ []) :
    codePoint (hex 4 c.toNat ++ rest) = .ok (c, rest) := by
  have hunit : charOfUnit c.toNat = c := by
    have hcases := toNat_cases c
    rw [charOfUnit, if_neg (by omega), Char.ofNat_toNat]
  have hhigh : isHighSurrogate c.toNat = false := by
    have hcases := toNat_cases c
    simp only [isHighSurrogate, Bool.and_eq_false_iff, decide_eq_false_iff_not]
    omega
  refine Attempt.bind_eq_ok.2 ⟨_, codeUnit_hex hc hrest, ?_⟩
  dsimp only
  split
  · simp only [hhigh, Bool.false_and, Bool.false_eq_true, if_false, hunit]
    rfl
  · rw [hunit]
    rfl

theorem lt_length_codeUnit (n : Nat) (hn : n < 0x10000) (hrest : rest ≠ []) :
    6 < ('\\' :: 'u' :: (hex 4 n ++ rest)).length := by
  have hpos := List.length_pos_iff.2 hrest
  have hfour : (hex 4 n).length = 4 := length_hex hn
  rw [List.length_cons, List.length_cons, List.length_append, hfour]
  omega

/-- A character with two code units. -/
theorem codePoint_pair {c : Char} {n : Nat} (hn : c.toNat = 0x10000 + n) (hrest : rest ≠ []) :
    codePoint (hex 4 (0xD800 + n / 0x400) ++
      '\\' :: 'u' :: (hex 4 (0xDC00 + n % 0x400) ++ rest)) = .ok (c, rest) := by
  have hlt : n < 0x100000 := by
    have hcases := toNat_cases c
    omega
  have hmod : n % 0x400 < 0x400 := Nat.mod_lt n (by decide)
  have hhigh : isHighSurrogate (0xD800 + n / 0x400) = true := by
    simp only [isHighSurrogate, Bool.and_eq_true, decide_eq_true_eq]
    omega
  have hlow : isLowSurrogate (0xDC00 + n % 0x400) = true := by
    simp only [isLowSurrogate, Bool.and_eq_true, decide_eq_true_eq]
    omega
  have hchar : Char.ofNat (0x10000 + 0x400 * (0xD800 + n / 0x400 - 0xD800)
      + (0xDC00 + n % 0x400 - 0xDC00)) = c := by
    have hvalue : 0x10000 + 0x400 * (0xD800 + n / 0x400 - 0xD800)
        + (0xDC00 + n % 0x400 - 0xDC00) = c.toNat := by omega
    rw [hvalue, Char.ofNat_toNat]
  have hunits : 0xDC00 + n % 0x400 < 0x10000 := by omega
  have hlen := lt_length_codeUnit _ hunits hrest
  refine Attempt.bind_eq_ok.2 ⟨_, codeUnit_hex (by omega) (by simp), ?_⟩
  dsimp only
  simp only [hhigh, hlen, decide_true, Bool.and_self, if_true]
  refine Attempt.bind_eq_ok.2 ⟨_, codeUnit_hex hunits hrest, ?_⟩
  simp only [hlow, if_true, hchar]
  rfl

end

/-! ## Texts -/

/-- A character beyond the first plane has two code units. -/
theorem writeChar_pair {c : Char} {n : Nat} (hn : c.toNat = 0x10000 + n) :
    writeChar c = unitEscape (0xD800 + n / 0x400) ++ unitEscape (0xDC00 + n % 0x400) := by
  have hne : ∀ d : Char, d.toNat < 0x10000 → c ≠ d := by
    rintro d hd rfl
    omega
  have hn' : c.toNat - 0x10000 = n := by omega
  rw [writeChar, if_neg (not_or.2 ⟨hne _ (by decide), hne _ (by decide)⟩),
    if_neg (hne _ (by decide)), if_neg (hne _ (by decide)), if_neg (hne _ (by decide)),
    if_neg (hne _ (by decide)), if_neg (hne _ (by decide)), if_neg (by omega), if_neg (by omega)]
  simp only [hn']

section
variable {start steps : Nat} {rest : List Char}

/-- What is left after one character of a text that goes on. -/
theorem stringChars_writeChar (c : Char) (hrest : rest ≠ []) {cs left : List Char}
    (h : stringChars start steps rest = .ok (cs, left)) :
    stringChars start (steps + 1) (writeChar c ++ rest) = .ok (c :: cs, left) := by
  have hescape : ∀ letter, letter ≠ 'u' → escapes.lookup letter = some c →
      stringChars start (steps + 1) ('\\' :: letter :: rest) = .ok (c :: cs, left) := by
    intro letter hu hletter
    rw [stringChars]
    · simp only [hletter]
      exact Attempt.bind_eq_ok.2 ⟨_, h, rfl⟩
    · exact hu
  have hunits : ∀ after, codePoint after = .ok (c, rest) →
      stringChars start (steps + 1) ('\\' :: 'u' :: after) = .ok (c :: cs, left) := by
    intro after hafter
    rw [stringChars]
    exact Attempt.bind_eq_ok.2 ⟨_, hafter, Attempt.bind_eq_ok.2 ⟨_, h, rfl⟩⟩
  by_cases hc : c.toNat < 0x10000
  · unfold writeChar
    split
    · rename_i hsame
      rcases hsame with rfl | rfl
      · exact hescape _ (by decide) rfl
      · exact hescape _ (by decide) rfl
    rename_i hother
    obtain ⟨hquote, hslash⟩ := not_or.1 hother
    split
    · rename_i heq
      subst heq
      exact hescape 'n' (by decide) rfl
    split
    · rename_i heq
      subst heq
      exact hescape 'r' (by decide) rfl
    split
    · rename_i heq
      subst heq
      exact hescape 't' (by decide) rfl
    split
    · rename_i heq
      subst heq
      exact hescape 'f' (by decide) rfl
    split
    · rename_i heq
      subst heq
      exact hescape 'b' (by decide) rfl
    split
    · rename_i hprintable
      rw [List.singleton_append, stringChars]
      · rw [if_neg (by omega)]
        exact Attempt.bind_eq_ok.2 ⟨_, h, rfl⟩
      · exact hquote
      · exact fun hc _ => hslash hc
      · exact fun _ hc _ => hslash hc
      · exact fun _ _ hc _ => hslash hc
    · exact hunits _ (codePoint_hex hc hrest)
  · obtain ⟨n, hn⟩ := Nat.exists_eq_add_of_le (Nat.le_of_not_lt hc)
    rw [writeChar_pair hn]
    simp only [unitEscape, List.append_assoc, List.cons_append]
    exact hunits _ (codePoint_pair hn hrest)

/-- The characters of a text are read up to its closing quote. -/
theorem stringChars_flatMap {cs : List Char} (hsteps : cs.length < steps) :
    stringChars start steps (cs.flatMap writeChar ++ '"' :: rest) = .ok (cs, rest) := by
  induction cs generalizing steps with
  | nil =>
    obtain ⟨steps, rfl⟩ := Nat.exists_eq_add_of_lt hsteps
    rw [List.flatMap_nil, List.nil_append, stringChars]
    simp
  | cons c cs ih =>
    obtain ⟨steps, rfl⟩ := Nat.exists_eq_succ_of_ne_zero (Nat.ne_zero_of_lt hsteps)
    rw [List.flatMap_cons, List.append_assoc]
    exact stringChars_writeChar c (by simp) (ih (Nat.lt_of_succ_lt_succ hsteps))

end

theorem writeChar_ne_nil (c : Char) : writeChar c ≠ [] := by
  unfold writeChar
  repeat' split
  all_goals exact List.cons_ne_nil _ _

theorem length_le_length_flatMap (cs : List Char) : cs.length ≤ (cs.flatMap writeChar).length := by
  induction cs with
  | nil => exact Nat.le_refl _
  | cons c cs ih =>
    have hpos := List.length_pos_iff.2 (writeChar_ne_nil c)
    rw [List.flatMap_cons, List.length_append, List.length_cons]
    omega

/-- A text is read as it was written. -/
theorem string_writeString (s : String) (rest : List Char) :
    string (s.toList.flatMap writeChar ++ '"' :: rest) = .ok (s, rest) := by
  have hlen := length_le_length_flatMap s.toList
  refine Attempt.bind_eq_ok.2 ⟨_, stringChars_flatMap ?_, ?_⟩
  · simp only [List.length_append, List.length_cons]
    omega
  · dsimp only
    rw [String.ofList_toList]
    rfl

end Json

end StepGraph
