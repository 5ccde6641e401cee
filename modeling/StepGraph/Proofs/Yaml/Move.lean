import StepGraph.Proofs.Fault
import StepGraph.Proofs.Yaml.Enclosing
import StepGraph.Yaml.Node.Compose

/-!
# What an event does to the composer

`Composer.Move` lists everything that a step can do if it does not fail (`move_of_step`). What has
been built of the document is a matter of the frames and the root alone (`SameContent`); what is
known of anchors is kept beside it.

* `step_alias_ok`: which aliases are accepted, and what stands in their place.
* `step_eq_recursiveAlias`: which events are refused as recursive aliases.
-/

set_option autoImplicit false

namespace StepGraph.Yaml

@[simp] theorem Frame.anchor_add (node : Node) (frame : Frame) :
    (frame.add node).anchor = frame.anchor := by
  unfold Frame.add
  split <;> rfl

namespace Composer

@[simp] theorem add_anchors (node : Node) (c : Composer) : (c.add node).anchors = c.anchors := by
  unfold add
  split <;> rfl

@[simp] theorem add_openAnchors (node : Node) (c : Composer) :
    (c.add node).openAnchors = c.openAnchors := by
  unfold add
  split <;> rfl

theorem filterMap_anchor_add (node : Node) (c : Composer) :
    (c.add node).frames.filterMap Frame.anchor = c.frames.filterMap Frame.anchor := by
  unfold add
  split
  · rfl
  · rename_i frame rest hframes
    rw [hframes, List.filterMap_cons, List.filterMap_cons, Frame.anchor_add]

/-- The same part of the document has been built; anchors aside. -/
structure SameContent (c d : Composer) : Prop where
  frames : c.frames = d.frames
  root : c.root = d.root

theorem SameContent.trans {c d e : Composer} (h : SameContent c d) (h' : SameContent d e) :
    SameContent c e :=
  ⟨h.frames.trans h'.frames, h.root.trans h'.root⟩

theorem SameContent.add {c d : Composer} (h : SameContent c d) (node : Node) :
    SameContent (c.add node) (d.add node) := by
  unfold Composer.add
  rw [h.frames]
  split
  · exact ⟨rfl, rfl⟩
  · exact ⟨rfl, h.root⟩

section
variable {anchor : Option String} {place : Mark} {node : Option Node} {c c' : Composer}

theorem enterAnchor_ok (h : enterAnchor anchor place node c = .ok c') :
    c' = { c with anchors := anchor.toList.map (·, place, node) ++ c.anchors } := by
  cases anchor with
  | none =>
    cases h
    rfl
  | some name =>
    unfold enterAnchor at h
    dsimp only at h
    split at h
    · cases h
    · cases h
      rfl

theorem sameContent_enterAnchor (h : enterAnchor anchor place node c = .ok c') :
    SameContent c' c := by
  rw [enterAnchor_ok h]
  exact ⟨rfl, rfl⟩

/-- What is known of anchors after one is entered. -/
theorem mem_enterAnchor {entry : String × Mark × Option Node}
    (h : enterAnchor anchor place node c = .ok c') (hentry : entry ∈ c'.anchors) :
    anchor = some entry.1 ∧ entry.2.2 = node ∨ entry ∈ c.anchors := by
  rw [enterAnchor_ok h] at hentry
  rcases List.mem_append.1 hentry with hnew | hold
  · obtain ⟨name, hname, rfl⟩ := List.mem_map.1 hnew
    exact .inl ⟨Option.mem_toList.1 hname, rfl⟩
  · exact .inr hold

theorem map_fst_enterAnchor (h : enterAnchor anchor place node c = .ok c') :
    c'.anchors.map Prod.fst = anchor.toList ++ c.anchors.map Prod.fst := by
  rw [enterAnchor_ok h, List.map_append, List.map_map]
  exact congrArg (· ++ _) (List.map_id _)

end

section
variable {anchor : Option String} {node : Node} {c : Composer}

theorem sameContent_completeAnchor : SameContent (completeAnchor anchor node c) c := by
  unfold completeAnchor
  split <;> exact ⟨rfl, rfl⟩

theorem completeAnchor_openAnchors {others : List String}
    (h : c.openAnchors = anchor.toList ++ others) :
    (completeAnchor anchor node c).openAnchors = others := by
  cases anchor with
  | none => exact h
  | some name =>
    rw [completeAnchor, h]
    exact List.erase_cons_head ..

theorem map_fst_completeAnchor :
    (completeAnchor anchor node c).anchors.map Prod.fst = c.anchors.map Prod.fst := by
  cases anchor with
  | none => rfl
  | some name =>
    rw [completeAnchor, List.map_map]
    refine List.map_congr_left fun entry _ => ?_
    rw [Function.comp_apply]
    split <;> rfl

/-- What is known of anchors after one is complete. -/
theorem mem_completeAnchor {entry : String × Mark × Option Node}
    (h : entry ∈ (completeAnchor anchor node c).anchors) :
    anchor = some entry.1 ∧ entry.2.2 = some node ∨ anchor ≠ some entry.1 ∧ entry ∈ c.anchors := by
  cases anchor with
  | none => exact .inr ⟨nofun, h⟩
  | some name =>
    obtain ⟨former, hformer, rfl⟩ := List.mem_map.1 h
    by_cases hname : former.1 = name
    · left
      simp [hname]
    · right
      rw [if_neg (by simpa using hname)]
      exact ⟨fun h => hname (Option.some.inj h).symm, hformer⟩

end

/-- Everything that an event can do if it is not refused. -/
inductive Move (c : Composer) (event : Event) : Composer → Prop
  | idle (hopens : event.opens? = none) (hcloses : event.closes = false)
      (hanchor : event.anchor? = none) (hkind : event.kind ≠ .documentEnd) : Move c event c
  | documentEnd (hkind : event.kind = .documentEnd) : Move c event { c with anchors := [] }
  | refers {name : String} {place : Mark} {node : Node} (hkind : event.kind = .alias name)
      (hopen : name ∉ c.openAnchors) (hknown : c.anchors.lookup name = some (place, some node)) :
      Move c event (c.add node)
  | scalar {properties : Properties} {inferred : Bool} {text : String} {node : Node} {c' : Composer}
      (hkind : event.kind = .scalar properties inferred text)
      (henter : c.enterAnchor properties.anchor event.place (some node) = .ok c') :
      Move c event (c'.add node)
  | opens {properties : Properties} {frame : Frame} {c' : Composer}
      (hopens : event.opens? = some properties) (hframe : frame.anchor = properties.anchor)
      (henter : c.enterAnchor properties.anchor event.place none = .ok c') :
      Move c event { c' with
        frames := frame :: c'.frames
        openAnchors := properties.anchor.toList ++ c'.openAnchors }
  /-- An end without a start, which no text has. -/
  | stray (hcloses : event.closes = true) (hframes : c.frames = []) : Move c event c
  /-- The innermost collection is complete, and goes where it would have gone as a scalar. -/
  | closes {frame : Frame} {rest : List Frame} (hcloses : event.closes = true)
      (hframes : c.frames = frame :: rest) :
      Move c event <|
        (completeAnchor frame.anchor frame.close { c with frames := rest }).add frame.close

theorem move_of_openCollection {event : Event} {properties : Properties} {default : CoreTag}
    {content : Content} {c c' : Composer} (hopens : event.opens? = some properties)
    (h : c.openCollection properties default content event.place = .ok c') : Move c event c' := by
  unfold openCollection at h
  split at h
  · cases h
  · obtain ⟨c₁, henter, h⟩ := Attempt.bind_eq_ok.1 h
    cases h
    exact .opens hopens rfl henter

theorem move_of_closeCollection {event : Event} {c c' : Composer} (hcloses : event.closes = true)
    (h : c.closeCollection = .ok c') : Move c event c' := by
  unfold closeCollection at h
  split at h
  · rename_i hframes
    cases h
    exact .stray hcloses hframes
  · rename_i frame rest hframes
    cases h
    exact .closes hcloses hframes

theorem step_alias_ok {name : String} {place : Mark} {c c' : Composer} :
    c.step ⟨.alias name, place⟩ = .ok c' ↔
      name ∉ c.openAnchors ∧ ∃ start node, c.anchors.lookup name = some (start, some node) ∧
        c' = c.add node := by
  unfold step resolveAlias
  dsimp only
  constructor
  · intro h
    split at h
    · cases h
    · rename_i hopen
      split at h
      · rename_i start node hknown
        cases h
        exact ⟨by simpa using hopen, start, node, hknown, rfl⟩
      · cases h
  · rintro ⟨hopen, start, node, hknown, rfl⟩
    rw [if_neg (by simpa using hopen), hknown]

theorem move_of_step {event : Event} {c c' : Composer} (h : c.step event = .ok c') :
    Move c event c' := by
  obtain ⟨kind, place⟩ := event
  cases kind with
  | streamEnd =>
    cases h
    exact .idle rfl rfl rfl (by simp)
  | documentStart =>
    unfold step at h
    dsimp only at h
    split at h
    · cases h
    · cases h
      exact .idle rfl rfl rfl (by simp)
  | documentEnd =>
    cases h
    exact .documentEnd rfl
  | «alias» name =>
    obtain ⟨hopen, _, _, hknown, rfl⟩ := step_alias_ok.1 h
    exact .refers rfl hopen hknown
  | scalar properties inferred text =>
    obtain ⟨c₁, henter, h⟩ := Attempt.bind_eq_ok.1 h
    cases h
    exact .scalar rfl henter
  | sequenceStart properties => exact move_of_openCollection rfl h
  | mappingStart properties => exact move_of_openCollection rfl h
  | sequenceEnd => exact move_of_closeCollection rfl h
  | mappingEnd => exact move_of_closeCollection rfl h

/-! ## Refused aliases -/

section
variable {event : Event} {c : Composer}

theorem enterAnchor_ne_failAt {anchor : Option String} {start place : Mark} {node : Option Node}
    {problem : Problem} : enterAnchor anchor start node c ≠ failAt problem place := by
  unfold enterAnchor
  split
  · nofun
  · split <;> nofun

theorem openCollection_ne_failAt {properties : Properties} {default : CoreTag} {content : Content}
    {start place : Mark} {problem : Problem} :
    c.openCollection properties default content start ≠ failAt problem place := by
  unfold openCollection
  split
  · nofun
  · intro h
    rcases Attempt.bind_eq_report.1 h with h | ⟨_, -, h⟩
    · exact enterAnchor_ne_failAt h
    · cases h

/-- Aliases alone are refused as recursive. -/
theorem step_eq_recursiveAlias {name : String} {place : Mark} :
    c.step event = failAt (.recursiveAlias name) place ↔
      event = ⟨.alias name, place⟩ ∧ name ∈ c.openAnchors := by
  constructor
  · intro h
    obtain ⟨kind, start⟩ := event
    cases kind with
    | streamEnd | documentEnd => cases h
    | documentStart =>
      unfold step at h
      dsimp only at h
      split at h <;> cases h
    | «alias» other =>
      unfold step resolveAlias at h
      dsimp only at h
      split at h
      · rename_i hopen
        cases h
        exact ⟨rfl, by simpa using hopen⟩
      · split at h <;> cases h
    | scalar =>
      rcases Attempt.bind_eq_report.1 h with h | ⟨_, -, h⟩
      · exact absurd h enterAnchor_ne_failAt
      · cases h
    | sequenceStart | mappingStart => exact absurd h openCollection_ne_failAt
    | sequenceEnd | mappingEnd =>
      change c.closeCollection = _ at h
      unfold closeCollection at h
      split at h <;> cases h
  · rintro ⟨rfl, hopen⟩
    unfold step resolveAlias
    dsimp only
    rw [if_pos (by simpa using hopen)]

end

end Composer

end StepGraph.Yaml
