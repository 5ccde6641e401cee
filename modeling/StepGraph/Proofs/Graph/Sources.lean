import Mathlib.Data.List.Induction
import StepGraph.Graph.ToWorkflow
import StepGraph.Proofs.Order.Repeats
import StepGraph.Proofs.Value.Record

/-!
# The sources of a target

`Graph.sourceMap` gathers the edges of each target. What it finds for an id that is not empty are
the distinct sources of the edges to it, in the order of the edges (`lookup_sourceMap`), and these
become the dependencies of a step (`filter_lookup_sourceMap`).
-/

set_option autoImplicit false

namespace StepGraph.Graph

open StepGraph.Order

/-- The sources of the edges to a target, edge by edge. -/
def sourcesOf (edges : List Edge) (target : String) : List String :=
  (edges.filter fun e => e.target == target && e.source != "").map Edge.source

theorem sourcesOf_append (edges more : List Edge) (target : String) :
    sourcesOf (edges ++ more) target = sourcesOf edges target ++ sourcesOf more target := by
  simp [sourcesOf]

theorem sourcesOf_singleton (e : Edge) (target : String) :
    sourcesOf [e] target = if e.target = target ∧ e.source ≠ "" then [e.source] else [] := by
  by_cases h : e.target = target ∧ e.source ≠ "" <;> simp_all [sourcesOf]

/-- The distinct sources of a target, if there are any. -/
def distinctSources (edges : List Edge) (target : String) : Option (List String) :=
  if sourcesOf edges target = [] then none else some (distinct (sourcesOf edges target))

theorem distinctSources_concat (edges : List Edge) (e : Edge) (target : String) :
    distinctSources (edges ++ [e]) target =
      if e.target = target ∧ e.source ≠ "" then
        let found := (distinctSources edges target).getD []
        some (if found.contains e.source then found else found ++ [e.source])
      else distinctSources edges target := by
  rw [distinctSources, sourcesOf_append, sourcesOf_singleton]
  by_cases h : e.target = target ∧ e.source ≠ ""
  · rw [if_pos h, if_pos h, if_neg (by simp), distinct_concat]
    have hfound : (distinctSources edges target).getD [] = distinct (sourcesOf edges target) := by
      rw [distinctSources]
      split
      · rename_i hnil
        rw [hnil]; rfl
      · rfl
    simp only [hfound, List.contains_iff_mem, mem_distinct]
  · rw [if_neg h, if_neg h, List.append_nil, distinctSources]

/-! ## The map -/

theorem lookup_addSource (source target : String) (found : List (String × List String))
    (id : String) :
    (addSource source target found).lookup id =
      if target = id then
        let old := (found.lookup target).getD []
        some (if old.contains source then old else old ++ [source])
      else found.lookup id := by
  induction found with
  | nil =>
    rw [addSource, lookup_cons_if]
    by_cases h : target = id
    · simp [h]
    · simp [h, Ne.symm h]
  | cons entry found ih =>
    obtain ⟨k, old⟩ := entry
    rw [addSource]
    by_cases hk : k = target
    · subst hk
      rw [if_pos (beq_self_eq_true k), lookup_cons_if, lookup_cons_if, lookup_cons_if, if_pos rfl]
      by_cases h : k = id
      · rw [if_pos h.symm, if_pos h]; rfl
      · rw [if_neg (Ne.symm h), if_neg h, if_neg (Ne.symm h)]
    · rw [if_neg (by simpa using hk), lookup_cons_if, lookup_cons_if, lookup_cons_if, ih,
        if_neg (Ne.symm hk)]
      by_cases h : id = k
      · rw [if_pos h, if_pos h, if_neg fun ht => hk (h.symm.trans ht.symm)]
      · rw [if_neg h, if_neg h]

theorem lookup_sourceMap {target : String} (ht : target ≠ "") (edges : List Edge) :
    (sourceMap edges).lookup target = distinctSources edges target := by
  induction edges using List.reverseRecOn with
  | nil => rfl
  | append_singleton edges e ih =>
    rw [distinctSources_concat, sourceMap, List.foldl_append, List.foldl_cons, List.foldl_nil,
      ← sourceMap]
    by_cases h : e.source = "" ∨ e.target = ""
    · rw [if_pos h, ih, if_neg]
      rintro ⟨rfl, hs⟩
      exact h.elim hs ht
    · rw [if_neg h, lookup_addSource, ← ih]
      by_cases he : e.target = target
      · rw [if_pos he, if_pos ⟨he, fun hs => h (.inl hs)⟩, he]
      · rw [if_neg he, if_neg fun hs => he hs.1]

theorem filter_lookup_sourceMap {target : String} (ht : target ≠ "") (edges : List Edge) :
    ((sourceMap edges).lookup target).filter (!·.isEmpty) = distinctSources edges target := by
  rw [lookup_sourceMap ht, distinctSources]
  split
  · rfl
  · rename_i h
    simpa [Option.filter, distinct_eq_nil] using h

/-- The map depends on what the edges join. -/
theorem sourceMap_of_ends {edges edges' : List Edge}
    (h : edges'.map (fun e => (e.source, e.target)) = edges.map fun e => (e.source, e.target)) :
    sourceMap edges' = sourceMap edges := by
  rw [← List.forall₂_eq_eq_eq, List.forall₂_map_left_iff, List.forall₂_map_right_iff] at h
  refine List.rel_foldl (P := Eq) ?_ rfl h
  rintro found _ rfl e' e he
  obtain ⟨hsource, htarget⟩ := Prod.mk.inj he
  simp only [hsource, htarget]

end StepGraph.Graph
