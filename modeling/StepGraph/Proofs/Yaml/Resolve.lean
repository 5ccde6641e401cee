import StepGraph.Proofs.Text.Pattern
import StepGraph.Yaml.Resolve

/-!
# The two tables of rules

Documents are read by other rules than those by which the writer tells whether a text may stand
plain. The tables agree on every text but the timestamps and the booleans that are none in a workflow
document, and these are strings for the reader (`resolve_workflowRules`). The first rule that applies
wins, so texts of different rules have to be kept apart: by their first characters
(`not_applies_of_first`), by being listed (`mem_lines_of_applies`), or by a character that all texts
of a rule need (`float_needs_point`).
-/

set_option autoImplicit false

namespace StepGraph.Yaml

open Text

namespace Rule

section
variable {rule : Rule} {c : Char} {cs : List Char}

/-- A rule applies to the texts of its pattern that start as it asks, with or without a line feed at
the end. -/
theorem applies_cons : rule.applies (c :: cs) = true ↔ c ∈ rule.firsts ∧
    ∃ body ∈ rule.pattern.language, c :: cs = body ∨ c :: cs = body ++ ['\n'] := by
  rw [applies, Bool.and_eq_true, List.contains_iff_mem, Pattern.accepts_iff, Pattern.language,
    Language.mem_mul]
  refine and_congr_right fun _ => exists_congr fun body => and_congr_right fun _ => ?_
  simp only [Pattern.mem_language_optional, Pattern.mem_language_char]
  constructor
  · rintro ⟨feed, rfl | rfl, h⟩
    · exact .inl ((List.append_nil body).symm.trans h).symm
    · exact .inr h.symm
  · rintro (h | h)
    · exact ⟨[], .inl rfl, (List.append_nil body).trans h.symm⟩
    · exact ⟨['\n'], .inr rfl, h.symm⟩

theorem not_applies_of_first (h : c ∉ rule.firsts) : ¬ rule.applies (c :: cs) = true :=
  fun happlies => h (applies_cons.1 happlies).1

theorem applies_of_mem (hfirst : ∀ c ∈ cs.head?, c ∈ rule.firsts)
    (hne : cs ≠ []) (h : cs ∈ rule.pattern.language) : rule.applies cs = true := by
  cases cs with
  | nil => exact absurd rfl hne
  | cons c cs => exact applies_cons.2 ⟨hfirst c rfl, _, h, .inl rfl⟩

/-- A character that all texts of a rule need keeps a text without it from being one. -/
theorem not_applies_of_needs (hneeds : Pattern.Needs c rule.pattern) (hempty : rule.empty = false)
    (hc : c ∉ cs) : ¬ rule.applies cs = true := by
  intro h
  cases cs with
  | nil => rw [applies, hempty] at h; cases h
  | cons first rest =>
    obtain ⟨-, body, hbody, hcs | hcs⟩ := applies_cons.1 h
    · exact hc (hcs ▸ hneeds body hbody)
    · exact hc (hcs ▸ List.mem_append_left _ (hneeds body hbody))

/-- Each of some words, with and without a line feed at the end. -/
def lines (words : List String) : List (List Char) :=
  words.flatMap fun word => [word.toList, word.toList ++ ['\n']]

/-- A rule for some words applies to these only. -/
theorem mem_lines_of_applies {words : List String} (hrule : rule.pattern = .words words)
    (hempty : rule.empty = false) (h : rule.applies cs = true) : cs ∈ lines words := by
  cases cs with
  | nil => rw [applies, hempty] at h; cases h
  | cons c cs =>
    obtain ⟨-, body, hbody, hcs⟩ := applies_cons.1 h
    rw [hrule] at hbody
    obtain ⟨word, hword, rfl⟩ := Pattern.mem_language_words.1 hbody
    exact List.mem_flatMap.2 ⟨word, hword, by simpa using hcs⟩

end

theorem float_needs_point : Pattern.Needs '.' float.pattern := by
  refine Pattern.Needs.choice ?_
  simp only [List.forall_mem_cons, List.not_mem_nil, false_implies, implies_true, and_true]
  refine ⟨?_, ?_, ?_, ?_, ?_⟩ <;> exact Pattern.Needs.all (by simp) (Pattern.needs_char '.')

def booleanWords : List String := [
  "yes", "Yes", "YES", "no", "No", "NO", "true", "True", "TRUE", "false", "False", "FALSE",
  "on", "On", "ON", "off", "Off", "OFF"]

/-- The rule for booleans of a workflow document. -/
def workflowBool : Rule :=
  { bool with pattern := .words workflowBooleans }

section
variable {cs : List Char}

theorem mem_lines_of_bool (h : bool.applies cs = true) : cs ∈ lines booleanWords :=
  mem_lines_of_applies rfl rfl h

theorem workflowBool_applies : workflowBool.applies cs = true ↔ cs ∈ lines workflowBooleans := by
  have hall : ∀ cs ∈ lines workflowBooleans, workflowBool.applies cs = true := by decide
  exact ⟨mem_lines_of_applies rfl rfl, hall cs⟩

theorem bool_of_workflowBool (h : workflowBool.applies cs = true) : bool.applies cs = true := by
  have hall : ∀ cs ∈ lines workflowBooleans, bool.applies cs = true := by decide
  exact hall cs (workflowBool_applies.1 h)

/-- No other rule applies to a boolean. -/
theorem not_applies_of_bool (h : bool.applies cs = true) :
    ∀ rule ∈ [float, int, merge, null, timestamp, value, yaml], rule.applies cs = false := by
  have hall : ∀ cs ∈ lines booleanWords,
      ∀ rule ∈ [float, int, merge, null, timestamp, value, yaml], rule.applies cs = false := by
    decide
  exact hall cs (mem_lines_of_bool h)

/-- Rules whose texts start differently do not apply to one text. -/
theorem not_applies_of_disjoint {rule : Rule} (other : Rule) (hempty : rule.empty = false)
    (hfirsts : (rule.firsts.all fun c => !other.firsts.contains c) = true)
    (h : rule.applies cs = true) : ¬ other.applies cs = true := by
  cases cs with
  | nil => rw [applies, hempty] at h; cases h
  | cons c cs =>
    have hfirst := List.all_eq_true.1 hfirsts c (applies_cons.1 h).1
    exact not_applies_of_first (by simpa using hfirst)

end

end Rule

theorem resolve_nil (cs : List Char) : resolve [] cs = .str :=
  rfl

theorem resolve_cons (rule : Rule) (rules : List Rule) (cs : List Char) :
    resolve (rule :: rules) cs = if rule.applies cs = true then rule.tag else resolve rules cs := by
  unfold resolve
  rw [List.find?_cons]
  split <;> simp_all

theorem workflowRules_eq :
    workflowRules = [.workflowBool, .float, .int, .merge, .null, .value, .yaml] :=
  rfl

/-- The tables differ on timestamps and on booleans. -/
theorem resolve_workflowRules (cs : List Char) :
    resolve workflowRules cs =
      match resolve standardRules cs with
      | .timestamp => .str
      | .bool => if cs ∈ Rule.lines Rule.workflowBooleans then .bool else .str
      | tag => tag := by
  simp only [workflowRules_eq, standardRules, resolve_cons, resolve_nil]
  by_cases hbool : Rule.bool.applies cs = true
  · have hothers := Rule.not_applies_of_bool hbool
    simp only [List.forall_mem_cons] at hothers
    obtain ⟨hfloat, hint, hmerge, hnull, -, hvalue, hyaml, -⟩ := hothers
    simp only [hbool, hfloat, hint, hmerge, hnull, hvalue, hyaml, Rule.workflowBool_applies]
    rfl
  · have hworkflow : ¬ Rule.workflowBool.applies cs = true := fun h =>
      hbool (Rule.bool_of_workflowBool h)
    simp only [hbool, hworkflow]
    -- up to the timestamps the tables are the same from here on
    by_cases hfloat : Rule.float.applies cs = true
    · simp only [hfloat]; rfl
    by_cases hint : Rule.int.applies cs = true
    · simp only [hfloat, hint]; rfl
    by_cases hmerge : Rule.merge.applies cs = true
    · simp only [hfloat, hint, hmerge]; rfl
    by_cases hnull : Rule.null.applies cs = true
    · simp only [hfloat, hint, hmerge, hnull]; rfl
    simp only [hfloat, hint, hmerge, hnull]
    by_cases htimestamp : Rule.timestamp.applies cs = true
    · have hvalue := Rule.not_applies_of_disjoint .value rfl (by decide) htimestamp
      have hyaml := Rule.not_applies_of_disjoint .yaml rfl (by decide) htimestamp
      simp only [htimestamp, hvalue, hyaml]; rfl
    by_cases hvalue : Rule.value.applies cs = true
    · simp only [htimestamp, hvalue]; rfl
    by_cases hyaml : Rule.yaml.applies cs = true
    · simp only [htimestamp, hvalue, hyaml]; rfl
    · simp only [htimestamp, hvalue, hyaml]; rfl

end StepGraph.Yaml
