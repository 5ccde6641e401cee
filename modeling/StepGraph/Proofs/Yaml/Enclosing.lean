import StepGraph.Yaml.Event.Basic

/-!
# The collections around a place

`enclosing` reads off a list of events which collections are open after them, and `anchored` which
anchors the document has had so far. `Complete` events are those of whole nodes: they leave the
open collections as they are (`Complete.foldl_enter`), so that the innermost open collection is the
last one that started before them (`enclosing_append_cons`).
-/

set_option autoImplicit false

namespace StepGraph.Yaml

namespace Event

/-- What a collection carries that starts here. -/
def opens? (event : Event) : Option Properties :=
  match event.kind with
  | .sequenceStart properties | .mappingStart properties => some properties
  | _ => none

/-- Whether a collection ends here. -/
def closes (event : Event) : Bool :=
  match event.kind with
  | .sequenceEnd | .mappingEnd => true
  | _ => false

/-- The anchor of the node that starts here. -/
def anchor? (event : Event) : Option String :=
  match event.kind with
  | .scalar properties _ _ | .sequenceStart properties | .mappingStart properties =>
    properties.anchor
  | _ => none

section
variable {event : Event}

theorem kind_of_closes (h : event.closes = true) :
    event.kind = .sequenceEnd ∨ event.kind = .mappingEnd := by
  unfold closes at h
  split at h
  · exact .inl ‹_›
  · exact .inr ‹_›
  · cases h

theorem kind_of_opens {properties : Properties} (h : event.opens? = some properties) :
    event.kind = .sequenceStart properties ∨ event.kind = .mappingStart properties := by
  unfold opens? at h
  split at h
  · cases h
    exact .inl ‹_›
  · cases h
    exact .inr ‹_›
  · cases h

theorem opens?_of_closes (h : event.closes = true) : event.opens? = none := by
  rcases kind_of_closes h with hkind | hkind <;> rw [opens?, hkind]

theorem anchor?_of_closes (h : event.closes = true) : event.anchor? = none := by
  rcases kind_of_closes h with hkind | hkind <;> rw [anchor?, hkind]

theorem anchor?_of_opens {properties : Properties} (h : event.opens? = some properties) :
    event.anchor? = properties.anchor := by
  rcases kind_of_opens h with hkind | hkind <;> rw [anchor?, hkind]

theorem ne_documentEnd_of_closes (h : event.closes = true) : event.kind ≠ .documentEnd := by
  rcases kind_of_closes h with hkind | hkind <;> rw [hkind] <;> nofun

theorem ne_documentEnd_of_opens {properties : Properties} (h : event.opens? = some properties) :
    event.kind ≠ .documentEnd := by
  rcases kind_of_opens h with hkind | hkind <;> rw [hkind] <;> nofun

end

end Event

/-- The collections that are open after one more event, the innermost first. -/
def enter (around : List Properties) (event : Event) : List Properties :=
  match event.opens? with
  | some properties => properties :: around
  | none => if event.closes then around.tail else around

/-- The collections that are open after some events, the innermost first. -/
def enclosing (events : List Event) : List Properties :=
  events.foldl enter []

/-- The anchors of those collections. -/
def enclosingAnchors (events : List Event) : List String :=
  (enclosing events).filterMap Properties.anchor

/-- The anchors that the document has had after some events, the last first. -/
def anchored (events : List Event) : List String :=
  events.foldl
    (fun found event =>
      if event.kind = .documentEnd then [] else event.anchor?.toList ++ found) []

/-- The events of complete nodes, one after the other. -/
inductive Complete : List Event → Prop
  | nil : Complete []
  | single {event : Event} {rest : List Event} (hopens : event.opens? = none)
      (hcloses : event.closes = false) (hrest : Complete rest) : Complete (event :: rest)
  | collection {first last : Event} {properties : Properties} {inner rest : List Event}
      (hopens : first.opens? = some properties) (hinner : Complete inner)
      (hcloses : last.closes = true) (hrest : Complete rest) :
      Complete (first :: (inner ++ last :: rest))

/-- The events of one node with an anchor, from its first to its last. -/
inductive IsAnchored (name : String) : List Event → Prop
  | scalar {event : Event} {properties : Properties} {inferred : Bool} {text : String}
      (hkind : event.kind = .scalar properties inferred text)
      (hanchor : properties.anchor = some name) : IsAnchored name [event]
  | collection {first last : Event} {properties : Properties} {inner : List Event}
      (hopens : first.opens? = some properties) (hanchor : properties.anchor = some name)
      (hinner : Complete inner) (hcloses : last.closes = true) :
      IsAnchored name (first :: (inner ++ [last]))

section
variable {event : Event} (around : List Properties)

theorem enter_of_opens {properties : Properties} (h : event.opens? = some properties) :
    enter around event = properties :: around := by
  rw [enter, h]

theorem enter_of_closes (h : event.closes = true) : enter around event = around.tail := by
  rw [enter, Event.opens?_of_closes h, h]; rfl

theorem enter_other (hopens : event.opens? = none) (hcloses : event.closes = false) :
    enter around event = around := by
  rw [enter, hopens, hcloses]; rfl

end

namespace Complete

variable {events others : List Event}

theorem one {event : Event} (h : event.opens? = none ∧ event.closes = false) : Complete [event] :=
  .single h.1 h.2 .nil

theorem append (h : Complete events) (h' : Complete others) : Complete (events ++ others) := by
  induction h with
  | nil => exact h'
  | single hopens hcloses _ ih => exact .single hopens hcloses ih
  | collection hopens hinner hcloses _ _ ih =>
    rw [List.cons_append, List.append_assoc, List.cons_append]
    exact .collection hopens hinner hcloses ih

/-- Complete nodes leave the open collections as they are. -/
theorem foldl_enter (h : Complete events) (around : List Properties) :
    events.foldl enter around = around := by
  induction h generalizing around with
  | nil => rfl
  | single hopens hcloses _ ih => rw [List.foldl_cons, enter_other _ hopens hcloses, ih]
  | collection hopens _ hcloses _ ihinner ihrest =>
    rw [List.foldl_cons, List.foldl_append, List.foldl_cons, enter_of_opens _ hopens, ihinner,
      enter_of_closes _ hcloses, List.tail_cons, ihrest]

end Complete

theorem enclosing_append {others : List Event} (events : List Event) (h : Complete others) :
    enclosing (events ++ others) = enclosing events := by
  rw [enclosing, List.foldl_append, h.foldl_enter, enclosing]

theorem enclosing_concat (events : List Event) (event : Event) :
    enclosing (events ++ [event]) = enter (enclosing events) event := by
  rw [enclosing, List.foldl_append]; rfl

theorem anchored_concat (events : List Event) (event : Event) :
    anchored (events ++ [event]) =
      if event.kind = .documentEnd then [] else event.anchor?.toList ++ anchored events := by
  rw [anchored, List.foldl_append]; rfl

/-- The collection that started last and is not complete is the innermost one. -/
theorem enclosing_append_cons {front inner : List Event} {first : Event} {properties : Properties}
    (hopens : first.opens? = some properties) (hinner : Complete inner) :
    enclosing (front ++ first :: inner) = properties :: enclosing front := by
  rw [List.append_cons, enclosing_append _ hinner, enclosing_concat, enter_of_opens _ hopens]

end StepGraph.Yaml
