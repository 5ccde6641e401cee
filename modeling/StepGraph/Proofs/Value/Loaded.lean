import StepGraph.Json.Read
import StepGraph.Proofs.Fault
import StepGraph.Proofs.Value.Equal
import StepGraph.Yaml.Read

/-!
# Values that were loaded

A mapping is put together key by key, so none that was loaded has a key twice, at any depth, whether
the text repeats a key or a mapping takes in another one that has it.

* `Yaml.distinctKeys_read`, `Json.distinctKeys_read`: that, for the values of both kinds of texts.
-/

set_option autoImplicit false

namespace StepGraph

namespace Value

/-- Each of some pairs has a value in which no mapping has a key twice. -/
def DistinctInside (pairs : List (Scalar × Value)) : Prop :=
  ∀ pair ∈ pairs, pair.2.DistinctKeys

section
variable {entries : Entries} {pairs others : List (Scalar × Value)}

theorem DistinctInside.insert (h : DistinctInside entries) (k : Scalar) {v : Value}
    (hv : v.DistinctKeys) : DistinctInside (Entries.insert k v entries) := by
  induction entries with
  | nil => simpa [DistinctInside, Entries.insert] using hv
  | cons entry rest ih =>
    obtain ⟨hentry, hrest⟩ := List.forall_mem_cons.1 h
    unfold Entries.insert
    split
    · exact List.forall_mem_cons.2 ⟨hv, hrest⟩
    · exact List.forall_mem_cons.2 ⟨hentry, ih hrest⟩

theorem distinctKeys_ofPairs (h : DistinctInside pairs) :
    (map (Entries.ofPairs pairs)).DistinctKeys := by
  refine distinctKeys_map.2 ⟨Entries.distinct_ofPairs pairs, ?_⟩
  exact List.foldlRecOn (motive := DistinctInside) pairs _ (List.forall_mem_nil _)
    fun entries ih pair hpair => ih.insert pair.1 (h pair hpair)

end

end Value

open Value

namespace Yaml.Node

mutual

theorem distinctKeys_build : ∀ {n : Node} {v : Value}, n.build = .ok v → v.DistinctKeys
  | .scalar tag text place, v, h => by
    obtain ⟨r, -, h⟩ := Attempt.bind_eq_ok.1 h
    cases r with
    | scalar read =>
      obtain ⟨s, -, h⟩ := Attempt.bind_eq_ok.1 h
      cases h
      exact .scalar s
    | list => cases h
    | mapping => cases h
  | .sequence tag items place, v, h => by
    obtain ⟨r, -, h⟩ := Attempt.bind_eq_ok.1 h
    cases r with
    | scalar read => cases h
    | list =>
      obtain ⟨vs, hvs, h⟩ := Attempt.bind_eq_ok.1 h
      cases h
      exact .list (distinctKeys_buildItems hvs)
    | mapping => cases h
  | .mapping tag entries place, v, h => by
    obtain ⟨r, -, h⟩ := Attempt.bind_eq_ok.1 h
    cases r with
    | scalar read =>
      obtain ⟨text, -, h⟩ := Attempt.bind_eq_ok.1 h
      obtain ⟨s, -, h⟩ := Attempt.bind_eq_ok.1 h
      cases h
      exact .scalar s
    | list => cases h
    | mapping =>
      obtain ⟨⟨taken, own⟩, hpairs, h⟩ := Attempt.bind_eq_ok.1 h
      cases h
      exact distinctKeys_ofPairs (distinctInside_buildEntries hpairs)

theorem distinctKeys_buildItems :
    ∀ {items : List Node} {vs : List Value}, buildItems items = .ok vs → ∀ v ∈ vs, v.DistinctKeys
  | [], vs, h => by
    cases h
    exact List.forall_mem_nil _
  | n :: rest, vs, h => by
    obtain ⟨v, hv, h⟩ := Attempt.bind_eq_ok.1 h
    obtain ⟨others, hothers, h⟩ := Attempt.bind_eq_ok.1 h
    cases h
    exact List.forall_mem_cons.2 ⟨distinctKeys_build hv, distinctKeys_buildItems hothers⟩

theorem distinctInside_buildEntries {place : Mark} :
    ∀ {entries : List (Node × Node)} {taken own : List (Scalar × Value)},
      buildEntries place entries = .ok (taken, own) → DistinctInside (taken ++ own)
  | [], taken, own, h => by
    cases h
    exact List.forall_mem_nil _
  | (k, v) :: rest, taken, own, h => by
    unfold buildEntries at h
    split at h
    · obtain ⟨source, hsource, h⟩ := Attempt.bind_eq_ok.1 h
      obtain ⟨⟨taken, own⟩, hrest, h⟩ := Attempt.bind_eq_ok.1 h
      cases h
      rw [List.append_assoc]
      exact List.forall_mem_append.2
        ⟨distinctInside_buildSource hsource, distinctInside_buildEntries hrest⟩
    · obtain ⟨key, -, h⟩ := Attempt.bind_eq_ok.1 h
      obtain ⟨value, hvalue, h⟩ := Attempt.bind_eq_ok.1 h
      obtain ⟨⟨taken, own⟩, hrest, h⟩ := Attempt.bind_eq_ok.1 h
      cases h
      obtain ⟨htaken, hown⟩ := List.forall_mem_append.1 (distinctInside_buildEntries hrest)
      exact List.forall_mem_append.2
        ⟨htaken, List.forall_mem_cons.2 ⟨distinctKeys_build hvalue, hown⟩⟩

theorem distinctInside_buildSource {place : Mark} :
    ∀ {n : Node} {pairs : List (Scalar × Value)},
      buildSource place n = .ok pairs → DistinctInside pairs
  | .scalar .., pairs, h => by cases h
  | .sequence tag items own, pairs, h => by
    obtain ⟨sources, hsources, h⟩ := Attempt.bind_eq_ok.1 h
    cases h
    intro pair hpair
    obtain ⟨source, hsource, hpair⟩ := List.mem_flatten.1 hpair
    exact distinctInside_buildSources hsources source (List.mem_reverse.1 hsource) pair hpair
  | .mapping tag entries own, pairs, h => by
    obtain ⟨⟨taken, rest⟩, hpairs, h⟩ := Attempt.bind_eq_ok.1 h
    cases h
    exact distinctInside_buildEntries hpairs

theorem distinctInside_buildSources {place : Mark} :
    ∀ {items : List Node} {sources : List (List (Scalar × Value))},
      buildSources place items = .ok sources → ∀ pairs ∈ sources, DistinctInside pairs
  | [], sources, h => by
    cases h
    exact List.forall_mem_nil _
  | .scalar .. :: _, sources, h => by cases h
  | .sequence .. :: _, sources, h => by cases h
  | .mapping tag entries own :: rest, sources, h => by
    obtain ⟨⟨taken, others⟩, hpairs, h⟩ := Attempt.bind_eq_ok.1 h
    obtain ⟨more, hmore, h⟩ := Attempt.bind_eq_ok.1 h
    cases h
    exact List.forall_mem_cons.2
      ⟨distinctInside_buildEntries hpairs, distinctInside_buildSources hmore⟩

end

end Yaml.Node

theorem Yaml.distinctKeys_read {text : List Char} {v : Value} (h : Yaml.read text = .ok v) :
    v.DistinctKeys := by
  obtain ⟨node, -, h⟩ := Attempt.bind_eq_ok.1 h
  cases node with
  | none =>
    cases h
    exact .scalar .null
  | some node =>
    obtain ⟨-, -, h⟩ := Attempt.bind_eq_ok.1 h
    exact Node.distinctKeys_build h

namespace Json

theorem exists_scalar_of_plain {cs left : List Char} {v : Value} (h : plain cs = .ok (v, left)) :
    ∃ s, v = .scalar s := by
  have hconstants : ∀ constant ∈ constants, ∃ s, constant.2 = .scalar s := by
    simp [constants]
  unfold plain at h
  split at h
  · rename_i word c hfound
    cases h
    exact hconstants _ (List.mem_of_find?_eq_some hfound)
  · unfold number at h
    dsimp only at h
    repeat' split at h
    all_goals cases h
    all_goals exact ⟨_, rfl⟩

mutual

theorem distinctKeys_value : ∀ {steps : Nat} {cs left : List Char} {v : Value},
    value steps cs = .ok (v, left) → v.DistinctKeys
  | 0, cs, left, v, h => by
    cases h
  | steps + 1, cs, left, v, h => by
    unfold value at h
    split at h
    · cases h
    · cases h
    · obtain ⟨⟨s, after⟩, -, h⟩ := Attempt.bind_eq_ok.1 h
      cases h
      exact .scalar (.str s)
    · split at h
      · cases h
        exact .list (List.forall_mem_nil _)
      · obtain ⟨⟨found, after⟩, hfound, h⟩ := Attempt.bind_eq_ok.1 h
        cases h
        exact .list (distinctKeys_items hfound)
    · split at h
      · cases h
        exact distinctKeys_empty
      · obtain ⟨⟨found, after⟩, hfound, h⟩ := Attempt.bind_eq_ok.1 h
        cases h
        exact distinctKeys_ofPairs (distinctInside_members hfound)
    · obtain ⟨s, rfl⟩ := exists_scalar_of_plain h
      exact .scalar s

theorem distinctKeys_items : ∀ {steps : Nat} {cs left : List Char} {vs : List Value},
    items steps cs = .ok (vs, left) → ∀ v ∈ vs, v.DistinctKeys
  | 0, cs, left, vs, h => by
    cases h
  | steps + 1, cs, left, vs, h => by
    obtain ⟨⟨first, after⟩, hfirst, h⟩ := Attempt.bind_eq_ok.1 h
    have hv := distinctKeys_value hfirst
    dsimp only at h
    split at h
    · cases h
      exact List.forall_mem_singleton.2 hv
    · obtain ⟨⟨others, left⟩, hothers, h⟩ := Attempt.bind_eq_ok.1 h
      cases h
      exact List.forall_mem_cons.2 ⟨hv, distinctKeys_items hothers⟩
    · cases h

theorem distinctInside_members : ∀ {steps : Nat} {cs left : List Char}
    {pairs : List (Scalar × Value)}, members steps cs = .ok (pairs, left) → DistinctInside pairs
  | 0, cs, left, pairs, h => by
    cases h
  | steps + 1, cs, left, pairs, h => by
    unfold members at h
    split at h
    · cases h
    · obtain ⟨⟨key, afterKey⟩, -, h⟩ := Attempt.bind_eq_ok.1 h
      dsimp only at h
      split at h
      · obtain ⟨⟨v, afterValue⟩, hvalue, h⟩ := Attempt.bind_eq_ok.1 h
        have hv := distinctKeys_value hvalue
        dsimp only at h
        split at h
        · cases h
          exact List.forall_mem_singleton.2 hv
        · obtain ⟨⟨others, left⟩, hothers, h⟩ := Attempt.bind_eq_ok.1 h
          cases h
          exact List.forall_mem_cons.2 ⟨hv, distinctInside_members hothers⟩
        · cases h
      · cases h
    · cases h

end

theorem distinctKeys_read {text : List Char} {v : Value} (h : read text = .ok v) :
    v.DistinctKeys := by
  have hwhole : wholeText text = .ok v := Attempt.widen_eq_ok.1 h
  unfold wholeText at hwhole
  split at hwhole
  · cases hwhole
  · obtain ⟨⟨v, left⟩, hvalue, hend⟩ := Attempt.bind_eq_ok.1 hwhole
    have hv := distinctKeys_value hvalue
    dsimp only at hend
    split at hend
    · cases hend
      exact hv
    · cases hend

end Json

end StepGraph
