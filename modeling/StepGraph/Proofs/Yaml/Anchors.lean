import Mathlib.Data.List.Induction
import StepGraph.Proofs.Yaml.Move

/-!
# Anchors and aliases

The composer keeps the open anchors and the anchors of the document while it works on a stack of
frames. Both are what the events say (`Tracks`), whatever the events are: an anchor is open from the
start of its collection to its end, and an anchor of the document that is not open has a complete
node.

* `Tracks.step`, `tracks_run`: what every event keeps, and so every run.
* `run_eq_recursiveAlias`: a run is refused for a recursive alias exactly if a collection around one
  carries its anchor.
* `run_alias`: an alias is refused as recursive exactly if a collection around it carries its
  anchor, and otherwise stands for a node that was complete before it (`Composed`).
-/

set_option autoImplicit false

namespace StepGraph.Yaml.Composer

/-! ## Runs -/

/-- The state after some events. -/
def run (events : List Event) : Attempt Error Composer :=
  events.foldlM (fun c event => c.step event) start

theorem compose_eq (events : List Event) (failure : Option (Failure Error)) :
    Node.compose (events, failure) = run events >>= fun c =>
      match failure with
      | some failure => throw failure
      | none => return c.root :=
  rfl

theorem run_append (events others : List Event) :
    run (events ++ others) =
      run events >>= fun c => others.foldlM (fun c event => c.step event) c :=
  List.foldlM_append ..

theorem run_concat (events : List Event) (event : Event) :
    run (events ++ [event]) = run events >>= fun c => c.step event := by
  rw [run_append]
  simp only [List.foldlM_cons, List.foldlM_nil, bind_pure]

/-- A node was complete after some events: among them are those of a node with the anchor, from the
first to the last, and what they put in its place is the node. -/
def Composed (events : List Event) (name : String) (node : Node) : Prop :=
  ∃ front span back before after, events = front ++ span ++ back ∧ IsAnchored name span ∧
    run front = .ok before ∧ run (front ++ span) = .ok after ∧ SameContent after (before.add node)

theorem Composed.concat {events : List Event} {name : String} {node : Node}
    (h : Composed events name node) (event : Event) : Composed (events ++ [event]) name node := by
  obtain ⟨front, span, back, before, after, rfl, hrest⟩ := h
  exact ⟨front, span, back ++ [event], before, after, List.append_assoc .., hrest⟩

/-- The frames are the collections that the events opened and did not close. Below each lie those of
the state in which it started: what is complete inside a collection has not touched them, so that the
end of the collection leads back to that state with one node more. -/
inductive Nested : List Event → Composer → Prop
  | outside {events : List Event} {c : Composer} (hframes : c.frames = [])
      (hnone : enclosing events = []) : Nested events c
  | inside {events front inner : List Event} {first : Event} {properties : Properties}
      {c before : Composer} {frame : Frame} (hsplit : events = front ++ first :: inner)
      (hopens : first.opens? = some properties) (hframe : frame.anchor = properties.anchor)
      (hinner : Complete inner) (hbefore : run front = .ok before) (houter : Nested front before)
      (hframes : c.frames = frame :: before.frames) (hroot : c.root = before.root) :
      Nested events c

namespace Nested

variable {events : List Event} {c c' : Composer}

/-- The frames carry the anchors of the enclosing collections. -/
theorem filterMap_anchor (h : Nested events c) :
    c.frames.filterMap Frame.anchor = enclosingAnchors events := by
  unfold enclosingAnchors
  induction h with
  | outside hframes hnone => rw [hframes, hnone]; rfl
  | inside hsplit hopens hframe hinner _ _ hframes _ ih =>
    rw [hsplit, enclosing_append_cons hopens hinner, hframes, List.filterMap_cons,
      List.filterMap_cons, ih, hframe]

/-- Complete nodes that change no frame. -/
theorem skip {more : List Event} (h : Nested events c) (hmore : Complete more)
    (hsame : SameContent c' c) : Nested (events ++ more) c' := by
  cases h with
  | outside hframes hnone =>
    exact .outside (hsame.frames.trans hframes) ((enclosing_append _ hmore).trans hnone)
  | @inside _ front inner first _ _ _ _ hsplit hopens hframe hinner hbefore houter hframes hroot =>
    have hsplit' : events ++ more = front ++ first :: (inner ++ more) := by
      rw [hsplit, List.append_assoc, List.cons_append]
    exact .inside hsplit' hopens hframe (hinner.append hmore) hbefore houter
      (hsame.frames.trans hframes) (hsame.root.trans hroot)

/-- Complete nodes of which the last is put into the innermost collection. -/
theorem put {more : List Event} {node : Node} (h : Nested events c) (hmore : Complete more)
    (hsame : SameContent c' (c.add node)) : Nested (events ++ more) c' := by
  cases h with
  | outside hframes hnone =>
    have hempty : (c.add node).frames = [] := by rw [add, hframes]
    exact .outside (hsame.frames.trans hempty) ((enclosing_append _ hmore).trans hnone)
  | @inside _ front inner first _ _ before frame hsplit hopens hframe hinner hbefore houter hframes
      hroot =>
    have hadd : c.add node = { c with frames := frame.add node :: before.frames } := by
      rw [add, hframes]
    rw [hadd] at hsame
    have hsplit' : events ++ more = front ++ first :: (inner ++ more) := by
      rw [hsplit, List.append_assoc, List.cons_append]
    exact .inside hsplit' hopens ((Frame.anchor_add ..).trans hframe) (hinner.append hmore) hbefore
      houter hsame.frames (hsame.root.trans hroot)

end Nested

/-! ## What every event keeps -/

/-- What the composer knows of anchors and of open collections is what the events say. -/
structure Tracks (events : List Event) (c : Composer) : Prop where
  nested : Nested events c
  /-- In this order too: the end of a collection takes off the first. -/
  openAnchors : c.openAnchors = c.frames.filterMap Frame.anchor
  names : c.anchors.map Prod.fst = anchored events
  /-- An anchor without a node is that of an open collection. -/
  pending : ∀ entry ∈ c.anchors, entry.2.2 = none → entry.1 ∈ c.openAnchors
  complete : ∀ entry ∈ c.anchors, ∀ node, entry.2.2 = some node → Composed events entry.1 node

theorem tracks_start : Tracks [] start :=
  ⟨.outside rfl rfl, rfl, rfl, by simp [start], by simp [start]⟩

section
variable {events : List Event} {event : Event} {c c' : Composer}

/-- The events of the innermost collection, once it ends. -/
theorem Nested.closes_inside {frame : Frame} {rest : List Frame} (h : Nested events c)
    (hframes : c.frames = frame :: rest) (hcloses : event.closes = true) :
    ∃ front span before, events ++ [event] = front ++ span ∧ Complete span ∧
      (∀ name, frame.anchor = some name → IsAnchored name span) ∧
      run front = .ok before ∧ Nested front before ∧
      SameContent { c with frames := rest } before := by
  cases h with
  | outside hnone => cases hframes.symm.trans hnone
  | @inside _ front inner first _ _ before _ hsplit hopens hframe hinner hbefore houter hframes'
      hroot =>
    obtain ⟨rfl, rfl⟩ := List.cons.inj (hframes.symm.trans hframes')
    have hanchored : ∀ name, frame.anchor = some name →
        IsAnchored name (first :: (inner ++ [event])) := fun name hname =>
      .collection hopens (hframe.symm.trans hname) hinner hcloses
    refine ⟨front, _, before, ?_, .collection hopens hinner hcloses .nil, hanchored, hbefore, houter,
      ⟨rfl, hroot⟩⟩
    rw [hsplit, List.append_assoc, List.cons_append]

theorem Move.nested (hmove : Move c event c') (hrun : run events = .ok c) (h : Nested events c) :
    Nested (events ++ [event]) c' := by
  cases hmove with
  | idle hopens hcloses => exact h.skip (.one ⟨hopens, hcloses⟩) ⟨rfl, rfl⟩
  | documentEnd hkind =>
    exact h.skip (.one (by simp [Event.opens?, Event.closes, hkind])) ⟨rfl, rfl⟩
  | refers hkind =>
    exact h.put (.one (by simp [Event.opens?, Event.closes, hkind])) ⟨rfl, rfl⟩
  | scalar hkind henter =>
    exact h.put (.one (by simp [Event.opens?, Event.closes, hkind]))
      ((sameContent_enterAnchor henter).add _)
  | opens hopens hframe henter =>
    obtain rfl := enterAnchor_ok henter
    exact .inside rfl hopens hframe .nil hrun h rfl rfl
  | stray hcloses hframes =>
    cases h with
    | outside _ hnone =>
      refine .outside hframes ?_
      rw [enclosing_concat, enter_of_closes _ hcloses, hnone, List.tail_nil]
    | inside _ _ _ _ _ _ hinside => cases hframes.symm.trans hinside
  | closes hcloses hframes =>
    obtain ⟨front, span, before, hsplit, hspan, -, -, houter, hsame⟩ :=
      h.closes_inside hframes hcloses
    rw [hsplit]
    exact houter.put hspan ((sameContent_completeAnchor.trans hsame).add _)

/-- The anchor of the innermost collection comes first. -/
theorem openAnchors_of_frames {frame : Frame} {rest : List Frame}
    (h : c.openAnchors = c.frames.filterMap Frame.anchor) (hframes : c.frames = frame :: rest) :
    c.openAnchors = frame.anchor.toList ++ rest.filterMap Frame.anchor := by
  rw [h, hframes, List.filterMap_cons]
  cases frame.anchor <;> rfl

theorem Move.openAnchors (hmove : Move c event c')
    (h : c.openAnchors = c.frames.filterMap Frame.anchor) :
    c'.openAnchors = c'.frames.filterMap Frame.anchor := by
  cases hmove with
  | idle | documentEnd | stray => exact h
  | refers => rw [add_openAnchors, filterMap_anchor_add, h]
  | scalar _ henter =>
    obtain rfl := enterAnchor_ok henter
    rw [add_openAnchors, filterMap_anchor_add, h]
  | @opens properties _ _ _ hframe henter =>
    obtain rfl := enterAnchor_ok henter
    rw [List.filterMap_cons, hframe, h]
    cases properties.anchor <;> rfl
  | @closes frame rest _ hframes =>
    rw [add_openAnchors, filterMap_anchor_add, sameContent_completeAnchor.frames]
    have hfirst := openAnchors_of_frames h hframes
    exact completeAnchor_openAnchors (c := { c with frames := rest }) hfirst

theorem Move.names (hmove : Move c event c') (h : c.anchors.map Prod.fst = anchored events) :
    c'.anchors.map Prod.fst = anchored (events ++ [event]) := by
  rw [anchored_concat, ← h]
  cases hmove with
  | idle _ _ hanchor hkind => rw [if_neg hkind, hanchor]; rfl
  | documentEnd hkind => rw [if_pos hkind]; rfl
  | refers hkind => rw [add_anchors, Event.anchor?, hkind]; rfl
  | @scalar properties _ _ _ _ hkind henter =>
    have hanchor : event.anchor? = properties.anchor := by rw [Event.anchor?, hkind]
    have hne : event.kind ≠ .documentEnd := by simp [hkind]
    rw [add_anchors, map_fst_enterAnchor henter, hanchor, if_neg hne]
  | opens hopens _ henter =>
    rw [if_neg (Event.ne_documentEnd_of_opens hopens), Event.anchor?_of_opens hopens]
    exact (map_fst_enterAnchor henter :)
  | stray hcloses =>
    rw [if_neg (Event.ne_documentEnd_of_closes hcloses), Event.anchor?_of_closes hcloses]; rfl
  | closes hcloses =>
    rw [if_neg (Event.ne_documentEnd_of_closes hcloses), Event.anchor?_of_closes hcloses,
      add_anchors, map_fst_completeAnchor]; rfl

theorem Move.pending (hmove : Move c event c')
    (hopen : c.openAnchors = c.frames.filterMap Frame.anchor)
    (h : ∀ entry ∈ c.anchors, entry.2.2 = none → entry.1 ∈ c.openAnchors) :
    ∀ entry ∈ c'.anchors, entry.2.2 = none → entry.1 ∈ c'.openAnchors := by
  intro entry hentry hnone
  cases hmove with
  | idle | stray => exact h entry hentry hnone
  | documentEnd => cases hentry
  | refers =>
    rw [add_anchors] at hentry
    rw [add_openAnchors]
    exact h entry hentry hnone
  | scalar _ henter =>
    rw [add_anchors] at hentry
    rcases mem_enterAnchor henter hentry with ⟨-, hsome⟩ | hold
    · cases hnone.symm.trans hsome
    · obtain rfl := enterAnchor_ok henter
      rw [add_openAnchors]
      exact h entry hold hnone
  | opens _ _ henter =>
    rcases mem_enterAnchor henter hentry with ⟨hname, -⟩ | hold
    · exact List.mem_append_left _ (Option.mem_toList.2 hname)
    · obtain rfl := enterAnchor_ok henter
      exact List.mem_append_right _ (h entry hold hnone)
  | @closes frame rest _ hframes =>
    rw [add_anchors] at hentry
    rcases mem_completeAnchor hentry with ⟨-, hsome⟩ | ⟨hne, hold⟩
    · cases hnone.symm.trans hsome
    · -- the anchor is open and not that of the innermost collection, so it stays open
      have hfirst := openAnchors_of_frames hopen hframes
      have hmem := h entry hold hnone
      rw [hfirst] at hmem
      rw [add_openAnchors, completeAnchor_openAnchors (c := { c with frames := rest }) hfirst]
      exact (List.mem_append.1 hmem).resolve_left (fun h => hne (Option.mem_toList.1 h))

/-- What a step finds complete was so before it, or is completed by it. -/
theorem Move.complete (hmove : Move c event c') (hrun : run events = .ok c)
    (hrun' : run (events ++ [event]) = .ok c') (hnested : Nested events c)
    (h : ∀ entry ∈ c.anchors, ∀ node, entry.2.2 = some node → Composed events entry.1 node) :
    ∀ entry ∈ c'.anchors, ∀ node, entry.2.2 = some node →
      Composed (events ++ [event]) entry.1 node := by
  intro entry hentry node hnode
  cases hmove with
  | idle | stray => exact (h entry hentry node hnode).concat event
  | documentEnd => cases hentry
  | refers =>
    rw [add_anchors] at hentry
    exact (h entry hentry node hnode).concat event
  | scalar hkind henter =>
    rw [add_anchors] at hentry
    rcases mem_enterAnchor henter hentry with ⟨hname, hsome⟩ | hold
    · obtain rfl := Option.some.inj (hnode.symm.trans hsome)
      exact ⟨events, [event], [], c, _, (List.append_nil _).symm, .scalar hkind hname, hrun, hrun',
        (sameContent_enterAnchor henter).add _⟩
    · exact (h entry hold node hnode).concat event
  | opens _ _ henter =>
    rcases mem_enterAnchor henter hentry with ⟨-, hsome⟩ | hold
    · cases hnode.symm.trans hsome
    · exact (h entry hold node hnode).concat event
  | closes hcloses hframes =>
    rw [add_anchors] at hentry
    rcases mem_completeAnchor hentry with ⟨hname, hsome⟩ | ⟨-, hold⟩
    · obtain ⟨front, span, before, hsplit, -, hspan, hbefore, -, hsame⟩ :=
        hnested.closes_inside hframes hcloses
      obtain rfl := Option.some.inj (hnode.symm.trans hsome)
      refine ⟨front, span, [], before, _, ?_, hspan _ hname, hbefore, hsplit ▸ hrun', ?_⟩
      · rw [List.append_nil, hsplit]
      · exact (sameContent_completeAnchor.trans hsame).add _
    · exact (h entry hold node hnode).concat event

theorem Tracks.step (h : Tracks events c) (hrun : run events = .ok c)
    (hstep : c.step event = .ok c') : Tracks (events ++ [event]) c' := by
  have hmove := move_of_step hstep
  have hrun' : run (events ++ [event]) = .ok c' := by
    rw [run_concat]
    exact Attempt.bind_eq_ok.2 ⟨c, hrun, hstep⟩
  exact ⟨hmove.nested hrun h.nested, hmove.openAnchors h.openAnchors, hmove.names h.names,
    hmove.pending h.openAnchors h.pending, hmove.complete hrun hrun' h.nested h.complete⟩

/-- The last event is the one that the step lemma is about. -/
theorem tracks_run (hrun : run events = .ok c) : Tracks events c := by
  induction events using List.reverseRecOn generalizing c with
  | nil =>
    cases hrun
    exact tracks_start
  | append_singleton events event ih =>
    rw [run_concat] at hrun
    obtain ⟨before, hbefore, hstep⟩ := Attempt.bind_eq_ok.1 hrun
    exact (ih hbefore).step hbefore hstep

theorem Tracks.openAnchors_eq (h : Tracks events c) : c.openAnchors = enclosingAnchors events :=
  h.openAnchors.trans h.nested.filterMap_anchor

/-! ## Aliases -/

theorem mem_of_lookup {β : Type} {name : String} {b : β} {entries : List (String × β)}
    (h : entries.lookup name = some b) : (name, b) ∈ entries := by
  obtain ⟨front, back, rfl, -⟩ := List.lookup_eq_some_iff.1 h
  simp

/-- An anchor of the document that is not open has its complete node. -/
theorem Tracks.lookup_complete {name : String} (h : Tracks events c)
    (hname : name ∈ anchored events) (hopen : name ∉ c.openAnchors) :
    ∃ place node, c.anchors.lookup name = some (place, some node) := by
  rw [← h.names] at hname
  obtain ⟨known, hknown, rfl⟩ := List.mem_map.1 hname
  obtain ⟨⟨place, node?⟩, hlookup⟩ :=
    Option.isSome_iff_exists.1 (List.lookup_isSome_iff.2 ⟨known, hknown, beq_self_eq_true _⟩)
  cases node? with
  | some node => exact ⟨place, node, hlookup⟩
  | none => exact absurd (h.pending _ (mem_of_lookup hlookup) rfl) hopen

theorem Tracks.composed {name : String} {place : Mark} {node : Node} (h : Tracks events c)
    (hlookup : c.anchors.lookup name = some (place, some node)) :
    name ∈ anchored events ∧ Composed events name node := by
  have hmem := mem_of_lookup hlookup
  refine ⟨?_, h.complete _ hmem node rfl⟩
  rw [← h.names]
  exact List.mem_map_of_mem hmem

/-- The last event is the one that is refused, or one before it is. -/
theorem run_eq_recursiveAlias {name : String} {place : Mark} :
    run events = failAt (.recursiveAlias name) place ↔
      ∃ front after before, events = front ++ ⟨.alias name, place⟩ :: after ∧
        run front = .ok before ∧ name ∈ enclosingAnchors front := by
  constructor
  · intro h
    induction events using List.reverseRecOn with
    | nil => cases h
    | append_singleton events event ih =>
      rw [run_concat] at h
      rcases Attempt.bind_eq_report.1 h with h | ⟨before, hbefore, h⟩
      · obtain ⟨front, after, before, rfl, hfront⟩ := ih h
        exact ⟨front, after ++ [event], before, List.append_assoc .., hfront⟩
      · obtain ⟨rfl, hopen⟩ := step_eq_recursiveAlias.1 h
        exact ⟨events, [], before, rfl, hbefore, (tracks_run hbefore).openAnchors_eq ▸ hopen⟩
  · rintro ⟨front, after, before, rfl, hfront, hopen⟩
    rw [← (tracks_run hfront).openAnchors_eq] at hopen
    have hstep : before.step ⟨.alias name, place⟩ = failAt (.recursiveAlias name) place :=
      step_eq_recursiveAlias.2 ⟨rfl, hopen⟩
    rw [run_append]
    exact Attempt.bind_eq_report.2 (.inr ⟨before, hfront, Attempt.bind_eq_report.2 (.inl hstep)⟩)

/-- The composer's open anchors are those of the enclosing collections. An alias is refused as
recursive exactly if its anchor is one of them, and so is any text that goes on with it; an accepted
alias stands for a node that was complete. -/
theorem run_alias (hrun : run events = .ok c) :
    c.openAnchors = enclosingAnchors events ∧
      (∀ event name place, c.step event = failAt (.recursiveAlias name) place ↔
        event = ⟨.alias name, place⟩ ∧ name ∈ enclosingAnchors events) ∧
      (∀ name place after failure, name ∈ enclosingAnchors events →
        Node.compose (events ++ ⟨.alias name, place⟩ :: after, failure) =
          failAt (.recursiveAlias name) place) ∧
      ∀ name place,
        ((∃ c', c.step ⟨.alias name, place⟩ = .ok c') ↔
          name ∈ anchored events ∧ name ∉ enclosingAnchors events) ∧
        ∀ c', c.step ⟨.alias name, place⟩ = .ok c' →
          ∃ node, c' = c.add node ∧ Composed events name node := by
  have htracks := tracks_run hrun
  have hopenAnchors := htracks.openAnchors_eq
  refine ⟨hopenAnchors, fun event name place => hopenAnchors ▸ step_eq_recursiveAlias,
    fun name place after failure hname => ?_, fun name place => ⟨⟨?_, ?_⟩, ?_⟩⟩
  · rw [compose_eq]
    exact Attempt.bind_eq_report.2
      (.inl (run_eq_recursiveAlias.2 ⟨events, after, c, rfl, hrun, hname⟩))
  · rintro ⟨c', h⟩
    obtain ⟨hopen, _, _, hknown, -⟩ := step_alias_ok.1 h
    exact ⟨(htracks.composed hknown).1, hopenAnchors ▸ hopen⟩
  · rintro ⟨hname, hopen⟩
    rw [← hopenAnchors] at hopen
    obtain ⟨start, node, hknown⟩ := htracks.lookup_complete hname hopen
    exact ⟨_, step_alias_ok.2 ⟨hopen, start, node, hknown, rfl⟩⟩
  · intro c' h
    obtain ⟨-, _, node, hknown, rfl⟩ := step_alias_ok.1 h
    exact ⟨node, rfl, (htracks.composed hknown).2⟩

end

/-- A list that is still open, and a complete one in it. -/
def nestedLists : List Event :=
  [⟨.sequenceStart ⟨some "outer", none⟩, ⟨0, 0, 0⟩⟩,
    ⟨.sequenceStart ⟨some "shared", none⟩, ⟨8, 0, 8⟩⟩, ⟨.sequenceEnd, ⟨17, 0, 17⟩⟩]

theorem run_alias_nestedLists : ∃ c, run nestedLists = .ok c ∧ c.openAnchors = ["outer"] ∧
    c.step ⟨.alias "outer", ⟨19, 0, 19⟩⟩ = failAt (.recursiveAlias "outer") ⟨19, 0, 19⟩ ∧
    ∃ c' node, c.step ⟨.alias "shared", ⟨19, 0, 19⟩⟩ = .ok c' ∧ c' = c.add node ∧
      Composed nestedLists "shared" node := by
  obtain ⟨hopen, hrefused, -, haccepted⟩ := run_alias (show run nestedLists = .ok _ from rfl)
  refine ⟨_, rfl, hopen.trans rfl, (hrefused _ _ _).2 ⟨rfl, by decide⟩, ?_⟩
  obtain ⟨hiff, hnode⟩ := haccepted "shared" ⟨19, 0, 19⟩
  obtain ⟨c', h⟩ := hiff.2 (by decide)
  obtain ⟨node, hadd, hcomposed⟩ := hnode c' h
  exact ⟨c', node, h, hadd, hcomposed⟩

end StepGraph.Yaml.Composer
