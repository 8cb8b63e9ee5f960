import TimedSafety.Proofs.Automaton.Meaning

/-!
Automata as they were declared. A draft is built if every mention in it resolves and its error
conditions can be computed (`Resolves.exists_build`). The automaton then has the declared parts
(`BuiltFrom`): a location has the invariants that were declared for it, and its moves are the
declared edges.
-/

set_option autoImplicit false

namespace TimedSafety

namespace AutomatonDraft

variable {draft : AutomatonDraft} {automaton : Automaton}

/-! ### Drafts that are built -/

/-- Every location and every clock that is mentioned was declared, and the error conditions can be
computed. -/
structure Resolves (draft : AutomatonDraft) : Prop where
  initial : ∃ initial, draft.initial = some initial ∧ initial.index < draft.locations.length
  invariants : ∀ entry ∈ draft.invariants, entry.1.index < draft.locations.length ∧
    entry.2.Within draft.clockNames.length
  edges : ∀ edge ∈ draft.edges, edge.1.index < draft.locations.length ∧
    edge.2.1.index < draft.locations.length ∧
    ∀ command ∈ edge.2.2, ∀ clock ∈ command.clocks, clock.id ≤ draft.clockNames.length
  errors : ∀ entry ∈ draft.errors,
    ∃ condition, draft.errorCondition entry.1 entry.2 = .ok condition

theorem checkLocation_resolves {location : Location}
    (hlocation : location.index < draft.locations.length) :
    Yields (fun _ ↦ False) (draft.checkLocation location) fun _ ↦ True :=
  (checkLocation_yields fun hunknown ↦ hunknown hlocation).mono fun _ _ ↦ trivial

theorem checkClocks_resolves {clocks : List Clock}
    (hclocks : ∀ clock ∈ clocks, clock.id ≤ draft.clockNames.length) :
    Yields (fun _ ↦ False) (draft.checkClocks clocks) fun _ ↦ True :=
  (checkClocks_yields fun clock hclock hunknown ↦ hunknown (hclocks clock hclock)).mono
    fun _ _ ↦ trivial

/-- A settled draft is finished as it is. -/
theorem finish_settled {clocks : Nat} {zone : Draft clocks} (hloose : zone.loose = false) :
    Yields (fun _ ↦ False) zone.finish fun _ ↦ True := by
  rw [Draft.finish, Draft.settle, hloose]
  trivial

theorem undelay_settled {clocks : Nat} {zone : Draft clocks} (hloose : zone.loose = false)
    (urgent : Bool) : Yields (fun _ ↦ False) (zone.undelay urgent) (·.loose = false) := by
  rw [Draft.undelay, Draft.down, Draft.onClosed, Draft.settle, hloose]
  cases urgent with
  | true => exact hloose
  | false =>
    change Yields _ (if zone.matrix.isEmpty then pure zone else _) _
    split
    · exact hloose
    · rfl

/-- The error condition of a location without invariants can be computed, if it asks nothing. -/
theorem exists_errorCondition_nil {location : Location} {place : Place}
    (hplace : draft.places[location.index]? = some place) (hfree : place.invariants = []) :
    ∃ condition, draft.errorCondition location [] = .ok condition := by
  have hlocation : location.index < draft.locations.length := by
    rw [← length_places]
    exact (List.getElem?_eq_some_iff.mp hplace).1
  have happroach : ∀ zone : Zone, Yields (fun _ ↦ False) (approach place zone) fun _ ↦ True := by
    intro zone
    rw [approach, hfree]
    exact (undelay_settled rfl place.urgent).bind fun _ hsettled ↦ finish_settled hsettled
  have hcondition : Yields (fun _ ↦ False) (draft.errorCondition location []) fun _ ↦ True := by
    refine (checkLocation_resolves hlocation).bind fun _ _ ↦ ?_
    have hfinish := finish_settled (show (Zone.top draft.clockNames.length).draft.loose = false
      from rfl)
    rw [List.foldlM_nil, pure_bind]
    refine (hfinish.lift fun _ hfault ↦ hfault.elim).bind fun zone _ ↦ ?_
    rw [hplace]
    exact ((happroach zone).lift fun _ hfault ↦ hfault.elim).bind fun _ _ ↦ trivial
  obtain ⟨condition, hcondition, -⟩ := hcondition.exists_ok
  exact ⟨condition, hcondition⟩

/-- A draft in which every mention resolves is built. -/
theorem Resolves.exists_build (hresolves : draft.Resolves) :
    ∃ automaton, draft.build = .ok automaton := by
  obtain ⟨initial, hinitial, hlocation⟩ := hresolves.initial
  have hinvariant : ∀ entry ∈ draft.invariants,
      Yields (fun _ ↦ False) (draft.checkInvariant entry) fun _ ↦ True := by
    intro entry hentry
    obtain ⟨hdeclared, hclocks⟩ := hresolves.invariants entry hentry
    exact (checkLocation_resolves hdeclared).bind fun _ _ ↦ checkClocks_resolves hclocks
  have hedge : ∀ edge ∈ draft.edges,
      Yields (fun _ ↦ False) (draft.checkEdge edge) fun _ ↦ True := by
    intro edge hmem
    obtain ⟨hsource, htarget, hclocks⟩ := hresolves.edges edge hmem
    refine (checkLocation_resolves hsource).bind fun _ _ ↦ ?_
    refine (checkLocation_resolves htarget).bind fun _ _ ↦ ?_
    exact (Yields.forM fun command hcommand ↦
      checkClocks_resolves (hclocks command hcommand)).mono fun _ _ ↦ trivial
  have herror : ∀ entry ∈ draft.effectiveErrors,
      Yields (fun _ ↦ False) (draft.errorCondition entry.1 entry.2) fun _ ↦ True := by
    intro entry hentry
    obtain ⟨condition, hcondition⟩ :=
      hresolves.errors entry (mem_of_lastError (mem_effectiveErrors_iff.mp hentry))
    rw [hcondition]
    trivial
  have hbuild : Yields (fun _ ↦ False) draft.build fun _ ↦ True := by
    rw [build, hinitial]
    refine (checkLocation_resolves hlocation).bind fun _ _ ↦ ?_
    refine (Yields.forM hinvariant).bind fun _ _ ↦ ?_
    refine (Yields.forM hedge).bind fun _ _ ↦ ?_
    exact (Yields.mapM herror).bind fun _ _ ↦ trivial
  obtain ⟨automaton, hautomaton, -⟩ := hbuild.exists_ok
  exact ⟨automaton, hautomaton⟩

/-! ### What is built -/

/-- The automaton has the declared parts. -/
structure BuiltFrom (automaton : Automaton) (draft : AutomatonDraft) : Prop where
  wellFormed : automaton.WellFormed
  clockNames : automaton.clockNames = draft.clockNames
  places : automaton.places = draft.places
  edges : automaton.edges = draft.numberedEdges
  initial : draft.initial = some automaton.initial

theorem builtFrom_of_build (hbuild : draft.build = .ok automaton) :
    BuiltFrom automaton draft := by
  have hassembles := assembles_of_build hbuild
  exact ⟨hassembles.wellFormed, hassembles.clockNames, hassembles.places, hassembles.edges,
    hassembles.initial⟩

/-- A location has the name, the urgency and the invariants that were declared for it. -/
theorem getElem?_places {index : Nat} {name : String} {urgent : Bool}
    (hdeclared : draft.locations[index]? = some (name, urgent)) :
    ∃ place, draft.places[index]? = some place ∧ place.urgent = urgent ∧
      ∀ constraint, constraint ∈ place.invariants ↔ (⟨index⟩, constraint) ∈ draft.invariants := by
  simp [places, hdeclared]

namespace BuiltFrom

theorem exists_place (hbuilt : BuiltFrom automaton draft) {location : Location} {name : String}
    {urgent : Bool} (hdeclared : draft.locations[location.index]? = some (name, urgent)) :
    ∃ place, automaton.place location = .ok place ∧ place.urgent = urgent ∧
      ∀ constraint, constraint ∈ place.invariants ↔ (location, constraint) ∈ draft.invariants := by
  obtain ⟨place, hplace, hurgent, hinvariants⟩ := getElem?_places hdeclared
  refine ⟨place, ?_, hurgent, hinvariants⟩
  rw [Automaton.place_eq_ok_iff, hbuilt.places, hplace]

/-- The moves of the automaton are the declared edges. -/
theorem exists_move_iff (hbuilt : BuiltFrom automaton draft) {source target : Location}
    {commands : List Command} :
    (∃ id move, automaton.move id = .ok move ∧ move.source = source ∧ move.target = target ∧
      move.commands = commands) ↔ (source, target, commands) ∈ draft.edges := by
  constructor
  · rintro ⟨id, move, hmove, rfl, rfl, rfl⟩
    obtain ⟨edge, hedge, -, hof⟩ := Automaton.moveOf_of_move hbuilt.wellFormed hmove
    rw [hbuilt.edges] at hedge
    obtain ⟨index, hindex⟩ := List.getElem?_of_mem hedge
    rw [hof.source, hof.target, hof.commands]
    exact (getElem?_numberedEdges hindex).2
  · intro hdeclared
    obtain ⟨index, hindex⟩ := List.getElem?_of_mem hdeclared
    have hnumbered : draft.numberedEdges[index]? = some ⟨⟨index⟩, source, target, commands⟩ := by
      simp [numberedEdges, hindex]
    have hedge : ⟨⟨index⟩, source, target, commands⟩ ∈ automaton.edges := by
      rw [hbuilt.edges]
      exact List.mem_of_getElem? hnumbered
    obtain ⟨move, hmove, hof⟩ := Automaton.exists_move hbuilt.wellFormed hedge
    exact ⟨_, move, hmove, hof.source, hof.target, hof.commands⟩

end BuiltFrom

end AutomatonDraft

end TimedSafety
