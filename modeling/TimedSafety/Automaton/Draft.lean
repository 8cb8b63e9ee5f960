import TimedSafety.Automaton.Image
import TimedSafety.Failure

/-!
Building an automaton from a draft of it. A draft lists what was declared and may name locations and
clocks that were not. Building checks every mention in a fixed order (initial location, invariants,
edges, error conditions by location) and reports the first that is unknown. A location has at most
one error condition, the one declared last.
-/

set_option autoImplicit false

namespace TimedSafety

/-- What was declared of an automaton, in order of declaration. -/
structure AutomatonDraft where
  clockNames : List String := []
  /-- Names and urgency of the locations. -/
  locations : List (String × Bool) := []
  invariants : List (Location × Constraint) := []
  edges : List (Location × Location × List Command) := []
  initial : Option Location := none
  errors : List (Location × List Constraint) := []

namespace AutomatonDraft

/-! ### Declarations -/

/-- Declares a clock. -/
def addClock (draft : AutomatonDraft) (name : String) : AutomatonDraft :=
  { draft with clockNames := draft.clockNames ++ [name] }

/-- Declares a location, urgent or not. -/
def addLocation (draft : AutomatonDraft) (name : String) (urgent : Bool) : AutomatonDraft :=
  { draft with locations := draft.locations ++ [(name, urgent)] }

/-- Adds a constraint to the invariant of a location. -/
def addInvariant (draft : AutomatonDraft) (location : Location) (constraint : Constraint) :
    AutomatonDraft :=
  { draft with invariants := draft.invariants ++ [(location, constraint)] }

/-- Declares an edge. -/
def addEdge (draft : AutomatonDraft) (source target : Location) (commands : List Command) :
    AutomatonDraft :=
  { draft with edges := draft.edges ++ [(source, target, commands)] }

/-- Makes a location the initial one. -/
def setInitial (draft : AutomatonDraft) (location : Location) : AutomatonDraft :=
  { draft with initial := some location }

/-- Makes the valuations of a location that satisfy all constraints errors. -/
def addError (draft : AutomatonDraft) (location : Location) (constraints : List Constraint) :
    AutomatonDraft :=
  { draft with errors := draft.errors ++ [(location, constraints)] }

/-! ### Checks -/

/-- The location was declared. -/
def checkLocation (draft : AutomatonDraft) (location : Location) :
    Except (Failure ModelError) Unit :=
  if location.index < draft.locations.length then .ok ()
  else .error (.reported (.unknownLocation location))

/-- All clocks were declared. -/
def checkClocks (draft : AutomatonDraft) (clocks : List Clock) :
    Except (Failure ModelError) Unit :=
  match clocks.find? fun clock ↦ draft.clockNames.length < clock.id with
  | some clock => .error (.reported (.unknownClock clock))
  | none => .ok ()

/-- An invariant names a declared location and declared clocks. -/
def checkInvariant (draft : AutomatonDraft) (invariant : Location × Constraint) :
    Except (Failure ModelError) Unit := do
  draft.checkLocation invariant.1
  draft.checkClocks invariant.2.clocks

/-- An edge names declared locations and declared clocks. -/
def checkEdge (draft : AutomatonDraft) (edge : Location × Location × List Command) :
    Except (Failure ModelError) Unit := do
  draft.checkLocation edge.1
  draft.checkLocation edge.2.1
  edge.2.2.forM fun command ↦ draft.checkClocks command.clocks

/-! ### Parts -/

/-- The locations with their invariants, in order of declaration. -/
def places (draft : AutomatonDraft) : List Place :=
  draft.locations.zipIdx.map fun ((name, urgent), index) ↦
    { name, urgent
      invariants := draft.invariants.filterMap fun (location, constraint) ↦
        if location = ⟨index⟩ then some constraint else none }

/-- The edges with their numbers. -/
def numberedEdges (draft : AutomatonDraft) : List Edge :=
  draft.edges.zipIdx.map fun ((source, target, commands), index) ↦
    { id := ⟨index⟩, source, target, commands }

/-- Writes the error condition of a location in a list sorted by location. -/
def insertError (location : Location) (constraints : List Constraint) :
    List (Location × List Constraint) → List (Location × List Constraint)
  | [] => [(location, constraints)]
  | (head, current) :: rest =>
    if location.index < head.index then (location, constraints) :: (head, current) :: rest
    else if location = head then (location, constraints) :: rest
    else (head, current) :: insertError location constraints rest

/-- The error conditions that were not replaced, by location. -/
def effectiveErrors (draft : AutomatonDraft) : List (Location × List Constraint) :=
  draft.errors.foldl (fun sorted (location, constraints) ↦
    insertError location constraints sorted) []

/-- The valuations of a place from which waiting leads into a zone. -/
def approach (place : Place) (zone : Zone) : Except Fault Zone := do
  let allowed ← zone.draft.restrictAll place.invariants
  let earlier ← allowed.undelay place.urgent
  let waiting ← earlier.restrictAll place.invariants
  waiting.finish

/-- Restricts by a constraint whose clocks are declared. -/
def restrictChecked {clocks : Nat} (draft : AutomatonDraft) (zone : Draft clocks)
    (constraint : Constraint) : Except (Failure ModelError) (Draft clocks) := do
  draft.checkClocks constraint.clocks
  zone.restrict constraint

/-- The error condition of a location. -/
def errorCondition (draft : AutomatonDraft) (location : Location)
    (constraints : List Constraint) : Except (Failure ModelError) ErrorCondition := do
  draft.checkLocation location
  let restricted ← constraints.foldlM draft.restrictChecked
    (Zone.top draft.clockNames.length).draft
  let zone ← restricted.finish
  match draft.places[location.index]? with
  | none => throw (.reported (.unknownLocation location))
  | some place => do
    let approach ← approach place zone
    return { location, zone, approach }

/-- The automaton of the draft, or the first mention of something that was not declared. -/
def build (draft : AutomatonDraft) : Except (Failure ModelError) Automaton :=
  match draft.initial with
  | none => .error (.reported .noInitialLocation)
  | some initial => do
    draft.checkLocation initial
    draft.invariants.forM draft.checkInvariant
    draft.edges.forM draft.checkEdge
    let errors ← draft.effectiveErrors.mapM fun (location, constraints) ↦
      draft.errorCondition location constraints
    return {
      clockNames := draft.clockNames
      places := draft.places
      edges := draft.numberedEdges
      initial
      errors }

end AutomatonDraft

end TimedSafety
