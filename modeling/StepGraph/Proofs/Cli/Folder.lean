import Mathlib.Data.List.Basic
import StepGraph.Cli.Folder

/-!
# Writing a file

A file can be written where there is one or where there is none but a folder to hold it
(`Place.Takes`). Writing it changes what is known under one name and nothing else (`Folder.Changed`,
`changed_of_write`). Folders stay folders, so the path leads to the same place afterwards
(`Changed.walk_eq`): what was written is what is read there (`read_of_write`), and written again it
is as if only the second time had been (`write_write`).
-/

set_option autoImplicit false

namespace StepGraph.Cli

/-- A file of this name can be written here. -/
def Place.Takes (name : String) : Place → Prop
  | .found other (.file _) => other = name
  | .free other => other = name
  | _ => False

namespace Folder

/-- The content of one file is new, and nothing else. -/
structure Changed (before after : Folder) (name : String) (octets : List Nat) : Prop where
  content : after.lookup name = some (.file octets)
  others : ∀ other ≠ name, after.lookup other = before.lookup other

/-- The folder with another content of one name. -/
def replaced (folder : Folder) (name : String) (octets : List Nat) : Folder :=
  folder.map fun e => if e.1 == name then (name, .file octets) else e

/-- The folder with a file of this content. -/
def put (folder : Folder) (name : String) (octets : List Nat) : Folder :=
  if folder.lookup name = none then folder ++ [(name, .file octets)]
  else folder.replaced name octets

/-! ## What is known under a name -/

section
variable {folder : Folder} {name : String} {octets : List Nat} {at_ : List String}

theorem lookup_eq_none : folder.lookup name = none ↔ ∀ e ∈ folder, e.1 ≠ name := by
  simp [List.lookup_eq_none_iff, bne_iff_ne, ne_comm]

theorem lookup_replaced_of_ne {other : String} (h : other ≠ name) :
    (folder.replaced name octets).lookup other = folder.lookup other := by
  induction folder with
  | nil => rfl
  | cons entry rest ih =>
    obtain ⟨key, content⟩ := entry
    by_cases hkey : key = name
    · subst hkey
      simpa [replaced, List.lookup_cons, beq_false_of_ne h] using ih
    · by_cases hother : other = key
      · simp [replaced, hkey, hother]
      · simpa [replaced, List.lookup_cons, hkey, beq_false_of_ne hother] using ih

theorem lookup_replaced (h : folder.lookup name ≠ none) :
    (folder.replaced name octets).lookup name = some (.file octets) := by
  induction folder with
  | nil => exact absurd rfl h
  | cons entry rest ih =>
    obtain ⟨key, content⟩ := entry
    by_cases hkey : key = name
    · simp [replaced, hkey]
    · have hname : (name == key) = false := beq_false_of_ne (Ne.symm hkey)
      simp only [List.lookup_cons, hname] at h
      simpa [replaced, List.lookup_cons, hkey, hname] using ih h

theorem replaced_of_lookup_eq_none (h : folder.lookup name = none) :
    folder.replaced name octets = folder := by
  have hkeep : ∀ e ∈ folder, (if e.1 == name then (name, .file octets) else e) = e := fun e he => by
    rw [if_neg (by simpa using lookup_eq_none.1 h e he)]
  exact (List.map_congr_left hkeep).trans (List.map_id' folder)

theorem replaced_replaced (first : List Nat) :
    (folder.replaced name first).replaced name octets = folder.replaced name octets := by
  simp only [replaced, List.map_map]
  refine List.map_congr_left fun e _ => ?_
  by_cases h : e.1 = name <;> simp [h]

theorem changed_put (folder : Folder) (name : String) (octets : List Nat) :
    Changed folder (folder.put name octets) name octets := by
  unfold put
  split
  · rename_i h
    refine ⟨by simp [List.lookup_append, h], fun other hother => ?_⟩
    simp [List.lookup_append, List.lookup_cons, beq_false_of_ne hother]
  · rename_i h
    exact ⟨lookup_replaced h, fun _ => lookup_replaced_of_ne⟩

theorem put_put (folder : Folder) (name : String) (first octets : List Nat) :
    (folder.put name first).put name octets = folder.put name octets := by
  have hlookup : (folder.put name first).lookup name ≠ none := by
    rw [(changed_put folder name first).content]
    exact Option.some_ne_none _
  rw [put, if_neg hlookup, put, put]
  split
  · rename_i h
    have happend : replaced (folder ++ [(name, .file first)]) name octets =
        folder.replaced name octets ++ [(name, .file octets)] := by simp [replaced]
    rw [happend, replaced_of_lookup_eq_none h]
  · exact replaced_replaced first

/-- Something is known under the name of each entry and under no other. -/
theorem any_iff {p : String → Bool} :
    (folder.any fun entry => p entry.1) = true ↔
      ∃ other, p other = true ∧ folder.lookup other ≠ none := by
  simp only [List.any_eq_true, ne_eq, lookup_eq_none]
  push Not
  exact ⟨fun ⟨e, he, hp⟩ => ⟨e.1, hp, e, he, rfl⟩, fun ⟨_, hp, e, he, h⟩ => ⟨e, he, h ▸ hp⟩⟩

theorem contentOf_of_ne_nil (h : at_ ≠ []) : folder.contentOf at_ =
    match folder.lookup (nameOf at_) with
    | some content => some content
    | none =>
      if folder.any fun entry => (nameOf at_ ++ "/").toList.isPrefixOf entry.1.toList then
        some .folder
      else none := by
  cases at_ with
  | nil => exact absurd rfl h
  | cons part rest => rfl

/-- What is no folder is known by its entry. -/
theorem lookup_of_contentOf (h : folder.contentOf at_ ≠ some .folder) :
    folder.lookup (nameOf at_) = folder.contentOf at_ := by
  have hne : at_ ≠ [] := fun hnil => h (by rw [hnil]; rfl)
  rw [contentOf_of_ne_nil hne] at h ⊢
  grind

end

/-! ## Writing -/

section
variable {before after folder : Folder} {name path : String} {octets : List Nat}
  {at_ : List String} {at? : Option (List String)} {parts : List String}

/-- What is found at the end of a walk is the content of the place reached. -/
theorem walk_spec (folder : Folder) (at? : Option (List String)) (parts : List String) :
    match folder.walk at? parts with
    | .found name content => ∃ at_, nameOf at_ = name ∧ folder.contentOf at_ = some content
    | .free name => ∃ at_, nameOf at_ = name ∧ folder.contentOf at_ = none
    | _ => True := by
  fun_induction walk folder at? parts with
  | case2 at_ content hcontent => exact ⟨at_, rfl, hcontent⟩
  | case3 at_ hcontent => exact ⟨at_, rfl, hcontent⟩
  | case4 rest ih => exact ih
  | case8 at_ rest hcontent ih => exact ih
  | case9 at_ part rest hcontent hpart ih => exact ih
  | _ => trivial

theorem locate_spec (folder : Folder) (path : String) :
    match folder.locate path with
    | .found name content => ∃ at_, nameOf at_ = name ∧ folder.contentOf at_ = some content
    | .free name => ∃ at_, nameOf at_ = name ∧ folder.contentOf at_ = none
    | _ => True :=
  walk_spec folder _ _

/-- Where a file can be written there is no folder. -/
theorem exists_of_takes (h : (folder.locate path).Takes name) :
    ∃ at_, nameOf at_ = name ∧ folder.contentOf at_ ≠ some .folder := by
  have hspec := folder.locate_spec path
  generalize folder.locate path = place at h hspec
  match place, h with
  | .found _ (.file octets), rfl =>
    obtain ⟨at_, hname, hcontent⟩ := hspec
    exact ⟨at_, hname, by simp [hcontent]⟩
  | .free _, rfl =>
    obtain ⟨at_, hname, hcontent⟩ := hspec
    exact ⟨at_, hname, by simp [hcontent]⟩

namespace Changed

variable (h : Changed before after name octets)

include h

theorem contentOf_file (hplace : before.contentOf at_ ≠ some .folder) (hname : nameOf at_ = name) :
    after.contentOf at_ = some (.file octets) := by
  have hne : at_ ≠ [] := fun hnil => hplace (by rw [hnil]; rfl)
  rw [contentOf_of_ne_nil hne, hname, h.content]

theorem lookup_ne_none {other : String} (hother : before.lookup other ≠ none) :
    after.lookup other ≠ none := by
  by_cases hname : other = name
  · rw [hname, h.content]
    exact Option.some_ne_none _
  · rwa [h.others other hname]

/-- A folder stays one. -/
theorem contentOf_folder {place : List String} (hplace : before.contentOf place ≠ some .folder)
    (hname : nameOf place = name) (hat : before.contentOf at_ = some .folder) :
    after.contentOf at_ = some .folder := by
  by_cases hnil : at_ = []
  · rw [hnil]; rfl
  have hother : nameOf at_ ≠ name := fun hsame => by
    have hne : place ≠ [] := fun hnil => hplace (by rw [hnil]; rfl)
    rw [contentOf_of_ne_nil hne, hname, ← hsame, ← contentOf_of_ne_nil hnil] at hplace
    exact hplace hat
  rw [contentOf_of_ne_nil hnil] at hat ⊢
  rw [h.others _ hother]
  cases hlookup : before.lookup (nameOf at_) with
  | some content => rwa [hlookup] at hat
  | none =>
    -- something inside it is still there
    rw [hlookup] at hat
    dsimp only at hat ⊢
    let isInside (key : String) : Bool := (nameOf at_ ++ "/").toList.isPrefixOf key.toList
    split at hat
    · rename_i hany
      obtain ⟨other, hinside, hknown⟩ := (any_iff (p := isInside)).1 hany
      exact if_pos ((any_iff (p := isInside)).2 ⟨other, hinside, h.lookup_ne_none hknown⟩)
    · cases hat

theorem walk_eq {place : List String} (hplace : before.contentOf place ≠ some .folder)
    (hname : nameOf place = name) (htakes : (before.walk at? parts).Takes name) :
    after.walk at? parts = .found name (.file octets) := by
  fun_induction walk before at? parts with
  | case2 at_ content hcontent =>
    have hfile : before.contentOf at_ ≠ some .folder ∧ nameOf at_ = name := by
      cases content with
      | file octets => exact ⟨by simp [hcontent], htakes⟩
      | folder => cases htakes
    rw [walk, h.contentOf_file hfile.1 hfile.2, hfile.2]
  | case3 at_ hcontent =>
    rw [walk, h.contentOf_file (by simp [hcontent]) htakes, show nameOf at_ = name from htakes]
  | case4 rest ih =>
    rw [walk, if_pos rfl]
    exact ih htakes
  | case8 at_ rest hcontent ih =>
    rw [walk, h.contentOf_folder hplace hname hcontent, if_pos rfl]
    exact ih htakes
  | case9 at_ part rest hcontent hpart ih =>
    rw [walk, h.contentOf_folder hplace hname hcontent, if_neg hpart]
    exact ih htakes
  | _ => cases htakes

theorem locate_eq (htakes : (before.locate path).Takes name) :
    after.locate path = .found name (.file octets) := by
  obtain ⟨place, hname, hplace⟩ := exists_of_takes htakes
  exact h.walk_eq hplace hname htakes

end Changed

theorem write_eq_ok : folder.write path octets = .ok (after, name) ↔
    (folder.locate path).Takes name ∧ after = folder.put name octets := by
  have hspec := folder.locate_spec path
  unfold write
  generalize folder.locate path = place at hspec
  match place with
  | .found other (.file first) =>
    obtain ⟨at_, rfl, hcontent⟩ := hspec
    have hlookup : folder.lookup (nameOf at_) = some (.file first) :=
      (lookup_of_contentOf (by simp [hcontent])).trans hcontent
    have hput : folder.put (nameOf at_) octets = folder.replaced (nameOf at_) octets :=
      if_neg (by simp [hlookup])
    constructor
    · intro h
      cases h
      exact ⟨rfl, hput.symm⟩
    · rintro ⟨rfl, rfl⟩
      rw [hput]
      rfl
  | .free other =>
    obtain ⟨at_, rfl, hcontent⟩ := hspec
    have hlookup : folder.lookup (nameOf at_) = none :=
      (lookup_of_contentOf (by simp [hcontent])).trans hcontent
    have hput : folder.put (nameOf at_) octets = folder ++ [(nameOf at_, .file octets)] :=
      if_pos hlookup
    constructor
    · intro h
      cases h
      exact ⟨rfl, hput.symm⟩
    · rintro ⟨rfl, rfl⟩
      rw [hput]
  | .found _ .folder | .outside | .blocked _ => simp [Place.Takes]

theorem changed_of_write (h : folder.write path octets = .ok (after, name)) :
    Changed folder after name octets := by
  rw [(write_eq_ok.1 h).2]
  exact changed_put folder name octets

theorem read_of_write (h : folder.write path octets = .ok (after, name)) :
    after.read path = .ok octets := by
  rw [read, (changed_of_write h).locate_eq (write_eq_ok.1 h).1]

/-- The second of two contents counts. -/
theorem write_write {first : List Nat} {opened : Folder}
    (h : folder.write path first = .ok (opened, name)) :
    opened.write path octets = folder.write path octets := by
  have hlocate := (changed_of_write h).locate_eq (write_eq_ok.1 h).1
  obtain ⟨htakes, rfl⟩ := write_eq_ok.1 h
  rw [write_eq_ok.2 ⟨htakes, rfl⟩, write_eq_ok.2 ⟨by rw [hlocate]; rfl, rfl⟩, put_put]

/-- Whether a file can be written is not a matter of its content. -/
theorem write_eq_error {first : List Nat} {problem : FileProblem}
    (h : folder.write path first = .error problem) :
    folder.write path octets = .error problem := by
  unfold write at h ⊢
  split <;> simp_all

end

end Folder

end StepGraph.Cli
