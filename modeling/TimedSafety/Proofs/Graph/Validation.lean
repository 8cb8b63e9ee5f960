import TimedSafety.Proofs.Graph.Explanation

/-!
Drafts are validated once and for all. Building succeeds just if all that a draft names was
declared, and reports something undeclared otherwise. What it ends in can be relied on: its zones,
its moves, their images and its abstract graphs are computed without another look at what was
declared, and none of these meets a clock out of range, zones of different sizes or a position that
is not there (`AutomatonDraft.build_validates`). What remains are overflows, and constants of
commands that are too large.
-/

set_option autoImplicit false

namespace TimedSafety

/-- Every location of the automaton has a precision, with atoms over its clocks. -/
def PrecisionTable.Covers (precisions : PrecisionTable Precision) (automaton : Automaton) : Prop :=
  ∀ location ∈ automaton.locations, ∃ precision, precisions.precision? location = some precision ∧
    ∀ atom ∈ precision.atoms, atom.Within automaton.clocks

namespace Automaton

/-- Zones, moves, images and graphs of the automaton are computed, but for overflows and constants
that are too large. -/
structure Operates (automaton : Automaton) : Prop where
  invariantZone : ∀ location ∈ automaton.locations,
    Yields Fault.IsOverflow (automaton.invariantZone location) (·.clocks = automaton.clocks)
  initialZone : Yields Fault.IsOverflow automaton.initialZone (·.clocks = automaton.clocks)
  move : ∀ edge ∈ automaton.edges, ∃ move, automaton.move edge.id = .ok move ∧
    ∀ zone : Zone, zone.Composed automaton.clocks →
      Yields Fault.IsExcess (move.post zone) (·.clocks = automaton.clocks)
  build : ∀ precisions : PrecisionTable Precision, precisions.Covers automaton →
    Yields Fault.IsExcess (AbstractGraph.build automaton precisions) (·.automaton = automaton)

variable {automaton : Automaton}

theorem constantsTolerated_isExcess (move : Move) : move.ConstantsTolerated Fault.IsExcess :=
  fun _ _ _ _ _ ↦ trivial

/-- A table that covers the automaton causes no faults of its own. -/
theorem cellsTolerated_of_covers {precisions : PrecisionTable Precision}
    (hcovers : precisions.Covers automaton) (may : Fault → Prop) :
    AbstractGraph.CellsTolerated may automaton precisions where
  missing location hlocation hnone := by
    obtain ⟨precision, hprecision, -⟩ := hcovers location hlocation
    rw [hnone] at hprecision
    cases hprecision
  atoms location precision hprecision hsome atom hatom _ := by
    obtain ⟨valuation, hallows⟩ := hsome
    obtain ⟨other, hother, hwithin⟩ := hcovers location hallows.mem_locations
    obtain rfl : precision = other := Option.some.inj (hprecision.symm.trans hother)
    exact (hwithin atom hatom).tolerated may

theorem WellFormed.operates (hwell : automaton.WellFormed) : automaton.Operates where
  invariantZone location hlocation :=
    (invariantZone_yields tolerant_isOverflow hwell hlocation).mono fun _ hzone ↦ hzone.clocks_eq
  initialZone := (initialZone_yields tolerant_isOverflow hwell).mono fun _ hzone ↦ hzone.clocks_eq
  move edge hedge := by
    obtain ⟨move, hmove, -⟩ := exists_move hwell hedge
    refine ⟨move, hmove, fun zone hzone ↦ ?_⟩
    obtain ⟨hclocks, hlevel⟩ := hzone.level
    have hwithin : move.Within zone.clocks := hclocks ▸ hwell.moveWithin hmove
    refine (Move.post_level lenient_isExcess.tolerant hlevel hwithin
      (constantsTolerated_isExcess move)).mono fun image himage ↦ ?_
    exact himage.1.trans hclocks
  build precisions hcovers := by
    refine (AbstractGraph.build_cells_yields lenient_isExcess.tolerant hwell
      (cellsTolerated_of_covers hcovers _) fun edge _ _ _ move _ ↦
        constantsTolerated_isExcess move).mono ?_
    rintro graph ⟨celled, gained, hcells, hgains⟩
    exact hgains.automaton_eq.trans hcells.automaton_eq

end Automaton

namespace AutomatonDraft

/-- A draft is refused only for what it names and did not declare, or by overflow. Unless there is
an overflow, it is built just if all was declared; and what is built operates. -/
theorem build_validates (draft : AutomatonDraft) :
    (∀ failure, draft.build = .error failure → draft.Refuses failure) ∧
    ((∀ fault, draft.build ≠ .error (.broken fault)) →
      ((∃ automaton, draft.build = .ok automaton) ↔ draft.Declared)) ∧
    ∀ automaton, draft.build = .ok automaton → automaton.Operates := by
  have hyields := build_yields draft
  refine ⟨fun failure hfailure ↦ hyields.fault hfailure, ?_, ?_⟩
  · intro hsound
    constructor
    · rintro ⟨automaton, hbuild⟩
      exact (assembles_of_build hbuild).declared
    · intro hdeclared
      cases hbuild : draft.build with
      | ok automaton => exact ⟨automaton, rfl⟩
      | error failure =>
        have hoverflow := hdeclared.isOverflow (hyields.fault hbuild)
        cases failure with
        | reported error => exact hoverflow.elim
        | broken fault => exact absurd hbuild (hsound fault)
  · intro automaton hbuild
    exact (wellFormed_of_build hbuild).operates

/-- A turnstile for which an error condition with an unknown clock was declared, and replaced. -/
def retractedTurnstile : AutomatonDraft :=
  { turnstile false with
    errors := (⟨1⟩, [.compare ⟨7, Nat.succ_pos 6⟩ none .less 1]) :: (turnstile false).errors }

/-- The clock in the replaced condition does not matter. -/
theorem build_validates_retractedTurnstile :
    retractedTurnstile.Declared ∧ (turnstileAutomaton false).Operates := by
  have hbuild : retractedTurnstile.build = .ok (turnstileAutomaton false) := by decide +kernel
  obtain ⟨-, hdeclared, hoperates⟩ := build_validates retractedTurnstile
  refine ⟨(hdeclared ?_).mp ⟨_, hbuild⟩, hoperates _ hbuild⟩
  intro fault hfault
  cases hbuild.symm.trans hfault

end AutomatonDraft

end TimedSafety
