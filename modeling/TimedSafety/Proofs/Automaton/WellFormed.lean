import TimedSafety.Proofs.Automaton.Declaration

/-!
What building a draft ensures. In a well-formed automaton every mention of a location, a clock or an
edge resolves, and every error condition keeps the approach that belongs to its zone: the valuations
allowed at its location from which waiting leads into the zone. A draft that is built at all is
built into a well-formed automaton (`wellFormed_of_build`).
-/

set_option autoImplicit false

namespace TimedSafety

namespace Automaton

/-- The location allows the valuation: it is one over the clocks of the automaton, not negative, and
the invariants hold. -/
def Allows (automaton : Automaton) (location : Location) (valuation : Valuation) : Prop :=
  valuation.clocks = automaton.clocks ∧ valuation.NonNegative ∧
    ∃ place, automaton.place location = .ok place ∧ valuation.Satisfies place.invariants

/-- The approach of an error condition holds the allowed valuations that can wait into its zone. -/
structure ErrorExact (automaton : Automaton) (condition : ErrorCondition) : Prop where
  zone_clocks : condition.zone.clocks = automaton.clocks
  zone_canonical : condition.zone.Canonical
  approach : ∃ place, automaton.place condition.location = .ok place ∧
    condition.approach.Denotes automaton.clocks fun valuation ↦
      automaton.Allows condition.location valuation ∧
        ∃ final, valuation.Waits final place.urgent place.invariants ∧ final ∈ condition.zone

/-- Every mention of a location, a clock or an edge resolves, and error conditions are exact. -/
structure WellFormed (automaton : Automaton) : Prop where
  initial : automaton.initial.index < automaton.places.length
  invariants : ∀ place ∈ automaton.places, ∀ constraint ∈ place.invariants,
    constraint.Within automaton.clocks
  source : ∀ edge ∈ automaton.edges, edge.source.index < automaton.places.length
  target : ∀ edge ∈ automaton.edges, edge.target.index < automaton.places.length
  commands : ∀ edge ∈ automaton.edges, ∀ command ∈ edge.commands, ∀ clock ∈ command.clocks,
    clock.id ≤ automaton.clocks
  numbered : ∀ (index : Nat) (edge : Edge), automaton.edges[index]? = some edge → edge.id = ⟨index⟩
  errors : ∀ condition ∈ automaton.errors, automaton.ErrorExact condition

end Automaton

namespace AutomatonDraft

/-- What a draft declares is well formed. -/
theorem Assembles.wellFormed {draft : AutomatonDraft} {automaton : Automaton}
    (hassembles : draft.Assembles automaton) : automaton.WellFormed := by
  have hdeclared := hassembles.declared
  have hclocks : automaton.clocks = draft.clockNames.length := by
    rw [Automaton.clocks, hassembles.clockNames]
  have hlocations : automaton.places.length = draft.locations.length := by
    rw [hassembles.places, length_places]
  have hedge : ∀ edge ∈ automaton.edges,
      (edge.source, edge.target, edge.commands) ∈ draft.edges := by
    intro edge hedge
    rw [hassembles.edges] at hedge
    obtain ⟨index, hindex⟩ := List.getElem?_of_mem hedge
    exact (getElem?_numberedEdges hindex).2
  refine ⟨?_, ?_, ?_, ?_, ?_, ?_, ?_⟩
  · rw [hlocations]
    exact hdeclared.location _ (.initial hassembles.initial)
  · intro place hplace constraint hconstraint clock hclock
    rw [hassembles.places] at hplace
    obtain ⟨location, hmem⟩ := invariants_of_mem_places hplace hconstraint
    rw [hclocks]
    exact hdeclared.clock clock (.invariant hmem hclock)
  · intro edge hmem
    rw [hlocations]
    exact hdeclared.location _ (.source (hedge edge hmem))
  · intro edge hmem
    rw [hlocations]
    exact hdeclared.location _ (.target (hedge edge hmem))
  · intro edge hmem command hcommand clock hclock
    rw [hclocks]
    exact hdeclared.clock clock (.command (hedge edge hmem) hcommand hclock)
  · intro index edge hindex
    rw [hassembles.edges] at hindex
    exact (getElem?_numberedEdges hindex).1
  · intro condition hcondition
    obtain ⟨entry, -, hdeclares⟩ := Yields.exists_related hassembles.errors hcondition
    obtain ⟨place, hplace, happroach⟩ := hdeclares.approach
    have hfound : automaton.place condition.location = .ok place := by
      rw [hdeclares.location_eq, Automaton.place, hassembles.places, hplace]
    rw [← hclocks] at happroach
    refine ⟨hdeclares.zone.clocks_eq.trans hclocks.symm, hdeclares.zone.canonical, place, hfound,
      happroach.clocks_eq, happroach.canonical, fun valuation ↦ ?_⟩
    rw [happroach.mem_iff]
    constructor
    · rintro ⟨hsign, hsatisfies, hfinal⟩
      have hmem := (happroach.mem_iff valuation).mpr ⟨hsign, hsatisfies, hfinal⟩
      exact ⟨⟨(Zone.clocks_of_mem hmem).trans happroach.clocks_eq, hsign, place, hfound,
        hsatisfies⟩, hfinal⟩
    · rintro ⟨⟨-, hsign, other, hother, hsatisfies⟩, hfinal⟩
      obtain rfl : place = other := Except.ok.inj (hfound.symm.trans hother)
      exact ⟨hsign, hsatisfies, hfinal⟩

theorem wellFormed_of_build {draft : AutomatonDraft} {automaton : Automaton}
    (hbuild : draft.build = .ok automaton) : automaton.WellFormed :=
  (assembles_of_build hbuild).wellFormed

/-! ### A turnstile -/

/-- A turnstile with one clock, which opens after a time unit and fails if it is still in use two
units later. If it is urgent, it can not be waited for. -/
def turnstile (urgent : Bool) : AutomatonDraft where
  clockNames := ["x"]
  locations := [("closed", urgent), ("open", false)]
  edges := [(⟨0⟩, ⟨1⟩, [.guard (.compare ⟨1, Nat.one_pos⟩ none .atLeast 1)])]
  initial := some ⟨0⟩
  errors := [(⟨1⟩, [.compare ⟨1, Nat.one_pos⟩ none .atLeast 3])]

/-- The automaton of the turnstile. Any time at which it is open leads to the error. -/
def turnstileAutomaton (urgent : Bool) : Automaton where
  clockNames := ["x"]
  places := [⟨"closed", urgent, []⟩, ⟨"open", false, []⟩]
  edges := [⟨⟨0⟩, ⟨0⟩, ⟨1⟩, [.guard (.compare ⟨1, Nat.one_pos⟩ none .atLeast 1)]⟩]
  initial := ⟨0⟩
  errors := [⟨⟨1⟩, ⟨1, ⟨#v[#v[.atMost 0, .atMost (-3)], #v[.infinite, .atMost 0]]⟩⟩, Zone.top 1⟩]

theorem build_turnstile (urgent : Bool) :
    (turnstile urgent).build = .ok (turnstileAutomaton urgent) := by
  cases urgent <;> decide +kernel

end AutomatonDraft

end TimedSafety
