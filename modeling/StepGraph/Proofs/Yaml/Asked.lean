import StepGraph.Proofs.Fault
import StepGraph.Yaml.Read

/-!
# The tags that a document is asked for

A node is read by its tag, and seven tags have a reading (`Tag.IsKnown`). `Asked` holds of the nodes
of a document whose tags its value depends on: all of them, through keys, values, items and the
entries of merged mappings at any depth, but for three kinds. The key `<<` is no entry of its own, and
the key `=` is a text; a mapping or list that is merged is asked for its entries and not for its tag
(`mergeSource_withTag`); and a mapping with the tag of a scalar is asked for its entry `=` only, and
that for its text (`Node.scalarText`).

* `isKnown_of_read`: in a text that was read every node that is asked has a known tag. So a text with
  any other tag at such a node has no value.
-/

set_option autoImplicit false

namespace StepGraph.Yaml

/-- The tags of the values that a document may hold. -/
def Tag.IsKnown (tag : Tag) : Prop :=
  ∃ t ∈ [CoreTag.null, .bool, .int, .float, .str, .seq, .map], tag = .core t

namespace Node

/-! ## What is asked -/

/-- The entries of a mapping that is merged, or of one in a list that is. -/
inductive Merged : Node → List (Node × Node) → Prop
  | mapping (tag : Tag) (entries : List (Node × Node)) (place : Mark) :
      Merged (.mapping tag entries place) entries
  | item {tag tag' : Tag} {items : List Node} {entries : List (Node × Node)} {place own : Mark}
      (h : .mapping tag' entries own ∈ items) : Merged (.sequence tag items place) entries

/-- The entries that a mapping with the given ones is read with: its own, and those that it takes
in. -/
inductive Entry : List (Node × Node) → Node × Node → Prop
  | own {entries : List (Node × Node)} {k v : Node} (h : (k, v) ∈ entries)
      (hkey : k.tag ≠ .core .merge) : Entry entries (k.asKey, v)
  | taken {entries inner : List (Node × Node)} {k source : Node} {entry : Node × Node}
      (h : (k, source) ∈ entries) (hkey : k.tag = .core .merge) (hsource : Merged source inner)
      (hentry : Entry inner entry) : Entry entries entry

/-- A scalar's tag gives a mapping the text under its key `=`. -/
def IsScalarTag (tag : Tag) : Prop :=
  ∃ t read, tag = .core t ∧ scalarReader? t = some read

/-- The nodes that a node is read with, itself included. -/
inductive Asked : Node → Node → Prop
  | self (n : Node) : Asked n n
  | item {tag : Tag} {items : List Node} {place : Mark} {n m : Node} (h : n ∈ items)
      (hm : Asked n m) : Asked (.sequence tag items place) m
  | key {tag : Tag} {entries : List (Node × Node)} {place : Mark} {k v m : Node}
      (htag : ¬ IsScalarTag tag) (h : Entry entries (k, v)) (hm : Asked k m) :
      Asked (.mapping tag entries place) m
  | value {tag : Tag} {entries : List (Node × Node)} {place : Mark} {k v m : Node}
      (htag : ¬ IsScalarTag tag) (h : Entry entries (k, v)) (hm : Asked v m) :
      Asked (.mapping tag entries place) m

/-! ## What has a value -/

theorem isKnown_of_reading {n : Node} {r : Reading} (h : n.reading = .ok r) : n.tag.IsKnown := by
  unfold reading at h
  split at h
  · exact ⟨.seq, by simp, ‹_›⟩
  · exact ⟨.map, by simp, ‹_›⟩
  · rename_i t _ _ htag
    refine ⟨t, ?_, htag⟩
    cases t <;> simp_all [CoreTag.isForbidden, scalarReader?, failAt, report]
  · cases h

theorem isScalarTag_of_reading {n : Node} {read : String → Attempt Error Scalar}
    (h : n.reading = .ok (.scalar read)) : IsScalarTag n.tag := by
  unfold reading at h
  split at h
  · cases h
  · cases h
  · split at h
    · cases h
    · split at h
      · exact ⟨_, _, ‹_›, ‹_›⟩
      · cases h
  · cases h

/-- A node that is read as a scalar asks for no other. -/
theorem Asked.eq_of_scalarText {n m : Node} {read : String → Attempt Error Scalar} {text : String}
    (hm : Asked n m) (hread : n.reading = .ok (.scalar read)) (htext : n.scalarText = .ok text) :
    m = n := by
  cases hm with
  | self => rfl
  | item => cases htext
  | key htag => exact absurd (isScalarTag_of_reading hread) htag
  | value htag => exact absurd (isScalarTag_of_reading hread) htag

theorem scalarText_asKey (k : Node) : k.asKey.scalarText = k.scalarText := by
  unfold asKey
  split
  · cases k <;> rfl
  · rfl

/-- All nodes that a node is read with have known tags. -/
def AllKnown (n : Node) : Prop :=
  ∀ m, Asked n m → m.tag.IsKnown

def EntriesKnown (entries : List (Node × Node)) : Prop :=
  ∀ k v, Entry entries (k, v) → k.AllKnown ∧ v.AllKnown

theorem allKnown_of_scalar {n : Node} {read : String → Attempt Error Scalar} {text : String}
    (hread : n.reading = .ok (.scalar read)) (htext : n.scalarText = .ok text) : n.AllKnown := by
  intro m hm
  rw [hm.eq_of_scalarText hread htext]
  exact isKnown_of_reading hread

theorem allKnown_of_keyScalar {k : Node} {place : Mark} {s : Scalar}
    (h : k.keyScalar place = .ok s) : k.asKey.AllKnown := by
  obtain ⟨r, hr, h⟩ := Attempt.bind_eq_ok.1 h
  cases r with
  | scalar read =>
    obtain ⟨text, htext, -⟩ := Attempt.bind_eq_ok.1 h
    exact allKnown_of_scalar hr ((scalarText_asKey k).trans htext)
  | list => cases h
  | mapping => cases h

theorem entriesKnown_nil : EntriesKnown [] := by
  intro k v h
  cases h <;> contradiction

theorem EntriesKnown.own {k v : Node} {rest : List (Node × Node)} (hkey : k.tag ≠ .core .merge)
    (hk : k.asKey.AllKnown) (hv : v.AllKnown) (hrest : EntriesKnown rest) :
    EntriesKnown ((k, v) :: rest) := by
  intro k' v' h
  generalize hentry : (k', v') = entry at h
  cases h with
  | own h hne =>
    rcases List.mem_cons.1 h with heq | h
    · cases heq
      cases hentry
      exact ⟨hk, hv⟩
    · cases hentry
      exact hrest _ _ (.own h hne)
  | taken h hmerge hsource hinner =>
    cases hentry
    rcases List.mem_cons.1 h with heq | h
    · cases heq
      exact absurd hmerge hkey
    · exact hrest _ _ (.taken h hmerge hsource hinner)

theorem EntriesKnown.taken {k source : Node} {rest : List (Node × Node)}
    (hkey : k.tag = .core .merge) (hsource : ∀ inner, Merged source inner → EntriesKnown inner)
    (hrest : EntriesKnown rest) : EntriesKnown ((k, source) :: rest) := by
  intro k' v' h
  generalize hentry : (k', v') = entry at h
  cases h with
  | own h hne =>
    rcases List.mem_cons.1 h with heq | h
    · cases heq
      exact absurd hkey hne
    · cases hentry
      exact hrest _ _ (.own h hne)
  | taken h hmerge hfrom hinner =>
    cases hentry
    rcases List.mem_cons.1 h with heq | h
    · cases heq
      exact hsource _ hfrom _ _ hinner
    · exact hrest _ _ (.taken h hmerge hfrom hinner)

mutual

theorem allKnown_of_build : ∀ {n : Node} {v : Value}, n.build = .ok v → n.AllKnown
  | .scalar tag text place, v, h => by
    obtain ⟨r, hr, h⟩ := Attempt.bind_eq_ok.1 h
    intro m hm
    cases hm
    exact isKnown_of_reading hr
  | .sequence tag items place, v, h => by
    obtain ⟨r, hr, h⟩ := Attempt.bind_eq_ok.1 h
    cases r with
    | scalar read => cases h
    | list =>
      obtain ⟨vs, hvs, h⟩ := Attempt.bind_eq_ok.1 h
      intro m hm
      cases hm with
      | self => exact isKnown_of_reading hr
      | item hitem hm => exact allKnown_of_buildItems hvs _ hitem m hm
    | mapping => cases h
  | .mapping tag entries place, v, h => by
    obtain ⟨r, hr, h⟩ := Attempt.bind_eq_ok.1 h
    cases r with
    | scalar read =>
      obtain ⟨text, htext, -⟩ := Attempt.bind_eq_ok.1 h
      exact allKnown_of_scalar hr htext
    | list => cases h
    | mapping =>
      obtain ⟨pairs, hpairs, -⟩ := Attempt.bind_eq_ok.1 h
      have hentries := entriesKnown_of_buildEntries hpairs
      intro m hm
      cases hm with
      | self => exact isKnown_of_reading hr
      | key _ hentry hm => exact (hentries _ _ hentry).1 m hm
      | value _ hentry hm => exact (hentries _ _ hentry).2 m hm

theorem allKnown_of_buildItems :
    ∀ {items : List Node} {vs : List Value}, buildItems items = .ok vs → ∀ n ∈ items, n.AllKnown
  | [], vs, h => List.forall_mem_nil _
  | n :: rest, vs, h => by
    obtain ⟨v, hv, h⟩ := Attempt.bind_eq_ok.1 h
    obtain ⟨others, hothers, h⟩ := Attempt.bind_eq_ok.1 h
    exact List.forall_mem_cons.2 ⟨allKnown_of_build hv, allKnown_of_buildItems hothers⟩

theorem entriesKnown_of_buildEntries {place : Mark} :
    ∀ {entries : List (Node × Node)} {pairs : List (Scalar × Value) × List (Scalar × Value)},
      buildEntries place entries = .ok pairs → EntriesKnown entries
  | [], pairs, h => entriesKnown_nil
  | (k, v) :: rest, pairs, h => by
    unfold buildEntries at h
    split at h
    · rename_i hmerge
      obtain ⟨source, hsource, h⟩ := Attempt.bind_eq_ok.1 h
      obtain ⟨others, hrest, -⟩ := Attempt.bind_eq_ok.1 h
      exact .taken hmerge (entriesKnown_of_buildSource hsource)
        (entriesKnown_of_buildEntries hrest)
    · rename_i hmerge
      obtain ⟨key, hkey, h⟩ := Attempt.bind_eq_ok.1 h
      obtain ⟨value, hvalue, h⟩ := Attempt.bind_eq_ok.1 h
      obtain ⟨others, hrest, -⟩ := Attempt.bind_eq_ok.1 h
      exact .own hmerge (allKnown_of_keyScalar hkey) (allKnown_of_build hvalue)
        (entriesKnown_of_buildEntries hrest)

theorem entriesKnown_of_buildSource {place : Mark} :
    ∀ {n : Node} {pairs : List (Scalar × Value)}, buildSource place n = .ok pairs →
      ∀ inner, Merged n inner → EntriesKnown inner
  | .scalar .., pairs, h => by cases h
  | .sequence tag items own, pairs, h => by
    obtain ⟨sources, hsources, -⟩ := Attempt.bind_eq_ok.1 h
    intro inner hinner
    cases hinner with
    | item hitem => exact entriesKnown_of_buildSources hsources _ hitem _ (.mapping ..)
  | .mapping tag entries own, pairs, h => by
    obtain ⟨pairs, hpairs, -⟩ := Attempt.bind_eq_ok.1 h
    intro inner hinner
    cases hinner
    exact entriesKnown_of_buildEntries hpairs

theorem entriesKnown_of_buildSources {place : Mark} :
    ∀ {items : List Node} {sources : List (List (Scalar × Value))},
      buildSources place items = .ok sources →
      ∀ n ∈ items, ∀ inner, Merged n inner → EntriesKnown inner
  | [], sources, h => List.forall_mem_nil _
  | .scalar .. :: _, sources, h => by cases h
  | .sequence .. :: _, sources, h => by cases h
  | .mapping tag entries own :: rest, sources, h => by
    obtain ⟨pairs, hpairs, h⟩ := Attempt.bind_eq_ok.1 h
    obtain ⟨more, hmore, -⟩ := Attempt.bind_eq_ok.1 h
    refine List.forall_mem_cons.2 ⟨?_, entriesKnown_of_buildSources hmore⟩
    intro inner hinner
    cases hinner
    exact entriesKnown_of_buildEntries hpairs

end

/-! ## What is not asked -/

/-- A merged mapping, or a merged list of mappings, may have any tag. -/
theorem mergeSource_withTag (place : Mark) (tag : Tag) (n : Node) :
    mergeSource place (n.withTag tag) = mergeSource place n := by
  cases n <;> rfl

theorem buildSource_withTag (place : Mark) (tag : Tag) (n : Node) :
    buildSource place (n.withTag tag) = buildSource place n := by
  cases n <;> rfl

end Node

/-- In a text that was read every node that is asked has a known tag. -/
theorem isKnown_of_read {text : List Char} {document : Node} {v : Value}
    (hdocument : compose text = .ok (some document)) (h : read text = .ok v) {n : Node}
    (hn : document.Asked n) : n.tag.IsKnown := by
  rw [read, hdocument] at h
  change document.toValue = .ok v at h
  obtain ⟨-, -, h⟩ := Attempt.bind_eq_ok.1 h
  exact Node.allKnown_of_build h n hn

/-- The tag of a set is refused where a value stands, and passed over where a mapping is merged. -/
example :
    (read "a: !!set \x7bb: 1\x7d".toList).toOption.isSome = false ∧
      (read "<<: !!set \x7bb: 1\x7d".toList).toOption.isSome = true := by
  decide +kernel

end StepGraph.Yaml
