import TimedSafety.Proofs.Automaton.Predecessor
import TimedSafety.Proofs.Zone.Stability

/-!
The image after a move as a step of a timed automaton in continuous time. The image asks the
invariants of the source at the end of a wait only, while an automaton has to stay within them at
every moment of it. For a wait that begins within them there is no difference, because a constraint
that holds at two moments holds at all moments between them (`Constraint.holds_between`).

So the image after a move of a zone within the source's invariants holds just what such steps lead
to, and the list of successors is empty just if there are none (`post_exact`). The zone has to be
built without negative resets: these make zones that contain nothing, and yet have an image
(`post_plungedZone`).
-/

set_option autoImplicit false

namespace TimedSafety

/-! ### Constraints while time passes -/

theorem Comparison.test_between (comparison : Comparison) {first value last bound : Rat}
    (hfirst : comparison.test first bound = true) (hlast : comparison.test last bound = true)
    (hstart : first ≤ value) (hend : value ≤ last) : comparison.test value bound = true := by
  cases comparison with
  | less => exact decide_eq_true (hend.trans_lt (of_decide_eq_true hlast))
  | atMost => exact decide_eq_true (hend.trans (of_decide_eq_true hlast))
  | equal =>
    obtain rfl : first = bound := of_decide_eq_true hfirst
    obtain rfl : last = first := of_decide_eq_true hlast
    exact decide_eq_true (le_antisymm hend hstart)
  | atLeast => exact decide_eq_true ((of_decide_eq_true hfirst : bound ≤ first).trans hstart)
  | greater => exact decide_eq_true ((of_decide_eq_true hfirst : bound < first).trans_le hstart)

theorem Valuation.get_later (valuation : Valuation) (clock : Clock) (duration : Rat) :
    (valuation.later duration).get clock = (valuation.get clock).map (· + duration) := by
  simp only [get, later, List.getElem?_map]
  cases valuation.values[clock.id - 1]? <;> rfl

namespace Constraint

variable {valuation : Valuation} {duration : Rat}

/-- Time is added to the value of a clock that is compared. -/
theorem holds_unit_later_iff (clock : Clock) (comparison : Comparison) (bound : Int) :
    (compare clock none comparison bound).holds (valuation.later duration) = .ok true ↔
      ∃ value, valuation.get clock = .ok value ∧
        comparison.test (value + duration) bound = true := by
  simp only [holds, Valuation.get_later]
  cases valuation.get clock <;> simp [bind, Except.bind, Except.map, pure, Except.pure]

/-- Time does not change a difference. -/
theorem holds_difference_later (left right : Clock) (comparison : Comparison) (bound : Int) :
    (compare left (some right) comparison bound).holds (valuation.later duration) =
      (compare left (some right) comparison bound).holds valuation := by
  simp only [holds, Valuation.get_later]
  cases valuation.get left with
  | error fault => rfl
  | ok value =>
    cases valuation.get right with
    | error fault => rfl
    | ok other => simp [bind, Except.bind, Except.map, pure, Except.pure]

/-- A constraint that holds at the beginning and at the end of a wait holds at every moment of
it. -/
theorem holds_between {constraint : Constraint} {moment : Rat}
    (hbefore : constraint.holds valuation = .ok true)
    (hafter : constraint.holds (valuation.later duration) = .ok true) (hstart : 0 ≤ moment)
    (hend : moment ≤ duration) : constraint.holds (valuation.later moment) = .ok true := by
  cases constraint with
  | always => rfl
  | never => exact hbefore
  | compare left right comparison bound =>
    cases right with
    | none =>
      rw [← valuation.later_zero, holds_unit_later_iff] at hbefore
      rw [holds_unit_later_iff] at hafter ⊢
      obtain ⟨value, hvalue, hfirst⟩ := hbefore
      obtain ⟨other, hother, hlast⟩ := hafter
      obtain rfl : value = other := Except.ok.inj (hvalue.symm.trans hother)
      refine ⟨value, hvalue, comparison.test_between hfirst hlast ?_ ?_⟩
      · exact add_le_add_right hstart value
      · exact add_le_add_right hend value
    | some right => rwa [holds_difference_later]

end Constraint

/-! ### Steps in continuous time -/

/-- Waiting leads from one valuation to another one, and the invariants hold at every moment of the
wait; at an urgent location no time passes. -/
def Valuation.Dwells (before after : Valuation) (urgent : Bool) (invariants : List Constraint) :
    Prop :=
  ∃ duration : Rat, 0 ≤ duration ∧ (urgent = true → duration = 0) ∧
    after = before.later duration ∧
    ∀ moment, 0 ≤ moment → moment ≤ duration → (before.later moment).Satisfies invariants

/-- A wait that begins and ends within the invariants stays within them. -/
theorem Valuation.dwells_iff_waits {before after : Valuation} {urgent : Bool}
    {invariants : List Constraint} (hbefore : before.Satisfies invariants) :
    before.Dwells after urgent invariants ↔ before.Waits after urgent invariants := by
  constructor
  · rintro ⟨duration, hduration, hurgent, rfl, hinvariants⟩
    exact ⟨duration, hduration, hurgent, rfl, hinvariants duration hduration le_rfl⟩
  · rintro ⟨duration, hduration, hurgent, rfl, hafter⟩
    refine ⟨duration, hduration, hurgent, rfl, fun moment hstart hend constraint hmem ↦ ?_⟩
    exact Constraint.holds_between (hbefore constraint hmem) (hafter constraint hmem) hstart hend

namespace Move

/-- The move as a step in continuous time: dwelling at the source, executing the commands in order,
and arriving within the invariants of the target. -/
def Passes (move : Move) (before after : Valuation) : Prop :=
  ∃ ready : Valuation, before.Dwells ready move.sourceUrgent move.sourceInvariants ∧
    Command.LeadAll move.commands ready after ∧ after.Satisfies move.targetInvariants

theorem passes_iff_leads {move : Move} {before after : Valuation}
    (hbefore : before.Satisfies move.sourceInvariants) :
    move.Passes before after ↔ move.Leads before after :=
  exists_congr fun _ ↦ and_congr_left fun _ ↦ Valuation.dwells_iff_waits hbefore

/-- A move over the clocks whose constants have been checked meets no fault but an overflow. -/
theorem Within.tolerated {move : Move} {clocks : Nat} (hwithin : move.Within clocks)
    (hchecked : ∀ command ∈ move.commands, command.Checked) (may : Fault → Prop) :
    move.Tolerated may clocks where
  source constraint hmem := (hwithin.source constraint hmem).tolerated may
  commands command hmem := by
    refine ⟨fun clock hclock hlt ↦ ?_, fun value hvalue hrange ↦ ?_, ?_⟩
    · exact absurd (hwithin.commands command hmem clock hclock) (not_le.mpr hlt)
    · exact absurd ((hchecked command hmem).range hvalue) hrange
    · exact (hchecked command hmem).keepsNonNegative
  target constraint hmem := (hwithin.target constraint hmem).tolerated may

/-- There is a successor just if the image after the move holds something. -/
theorem successors_yields {may : Fault → Prop} (hmay : Tolerant may) {move : Move} {zone : Zone}
    {clocks : Nat} {valuations : Valuation → Prop} (hzone : zone.Denotes clocks valuations)
    (hmove : move.Tolerated may clocks) :
    Yields may (move.successors zone) fun images ↦
      (images = [] ↔ ∀ before after, valuations before → ¬ move.Leads before after) := by
  refine (post_yields hmay hzone hmove).bind fun image himage ↦ ?_
  have hbottom : image.isBottom = true ↔
      ∀ before after, valuations before → ¬ move.Leads before after := by
    rw [Zone.isBottom_iff himage.canonical]
    simp only [himage.mem_iff, not_exists, not_and]
    exact ⟨fun hnone before after ↦ hnone after before, fun hnone after before ↦ hnone before after⟩
  rw [Yields.pure_iff, ← hbottom]
  cases image.isBottom <;> simp

end Move

namespace Automaton

variable {automaton : Automaton}

/-- The image after a move, of a zone within the invariants of the source, holds just the
valuations that a step in continuous time leads to, and the list of successors is empty just if
there are none. The only faults are overflows. -/
theorem post_exact {draft : AutomatonDraft} (hbuild : draft.build = .ok automaton) {edge : EdgeId}
    {move : Move} (hmove : automaton.move edge = .ok move)
    (hchecked : ∀ command ∈ move.commands, command.Checked) {zone : Zone}
    (hzone : zone.Built automaton.clocks)
    (hinside : ∀ valuation ∈ zone, valuation.Satisfies move.sourceInvariants) :
    Yields Fault.IsOverflow (move.post zone) (fun image ↦
      ∀ after, after ∈ image ↔ ∃ before ∈ zone, move.Passes before after) ∧
    Yields Fault.IsOverflow (move.successors zone) fun images ↦
      (images = [] ↔ ∀ before ∈ zone, ∀ after, ¬ move.Passes before after) := by
  have hwell := AutomatonDraft.wellFormed_of_build hbuild
  have htolerated := (hwell.moveWithin hmove).tolerated hchecked Fault.IsOverflow
  have hpasses : ∀ before ∈ zone, ∀ after, move.Passes before after ↔ move.Leads before after :=
    fun before hbefore after ↦ Move.passes_iff_leads (hinside before hbefore)
  constructor
  · refine (Move.post_yields tolerant_isOverflow hzone.denotes htolerated).mono
      fun image himage after ↦ (himage.mem_iff after).trans ?_
    exact exists_congr fun before ↦ and_congr_right fun hbefore ↦ (hpasses before hbefore after).symm
  · refine (Move.successors_yields tolerant_isOverflow hzone.denotes htolerated).mono
      fun images himages ↦ himages.trans ?_
    constructor
    · intro hnone before hbefore after
      rw [hpasses before hbefore]
      exact hnone before after hbefore
    · intro hnone before after hbefore
      rw [← hpasses before hbefore]
      exact hnone before hbefore after

/-! ### Bridges -/

/-- A move from one location to another, neither of them urgent. -/
def bridgeMove (source target : List Constraint) (commands : List Command) : Move where
  edge := ⟨0⟩
  source := ⟨0⟩
  target := ⟨1⟩
  commands := commands
  sourceInvariants := source
  targetInvariants := target
  sourceUrgent := false

/-- An automaton of two locations that makes such a move. -/
def bridge (clockNames : List String) (move : Move) : AutomatonDraft where
  clockNames := clockNames
  locations := [("here", false), ("there", false)]
  invariants := move.sourceInvariants.map (Prod.mk ⟨0⟩) ++ move.targetInvariants.map (Prod.mk ⟨1⟩)
  edges := [(⟨0⟩, ⟨1⟩, move.commands)]
  initial := some ⟨0⟩

def bridgeAutomaton (clockNames : List String) (move : Move) : Automaton where
  clockNames := clockNames
  places := [⟨"here", false, move.sourceInvariants⟩, ⟨"there", false, move.targetInvariants⟩]
  edges := [⟨⟨0⟩, ⟨0⟩, ⟨1⟩, move.commands⟩]
  initial := ⟨0⟩
  errors := []

theorem move_bridgeAutomaton (clockNames : List String) (source target : List Constraint)
    (commands : List Command) :
    (bridgeAutomaton clockNames (bridgeMove source target commands)).move ⟨0⟩ =
      .ok (bridgeMove source target commands) := rfl

/-! ### Forwards over a bridge -/

/-- A move that begins while the first clock is at most three and the second at least one ahead,
and that has commands of all kinds. -/
def kilnMove : Move :=
  let first : Clock := ⟨1, Nat.one_pos⟩
  let second : Clock := ⟨2, Nat.two_pos⟩
  bridgeMove [.compare first none .atMost 3, .compare second (some first) .atLeast 1]
    [.compare second (some first) .less 2]
    [.guard (.compare first none .less 2), .reset second 3, .shift second (-1), .copy first second,
      .free second]

/-- Where it ends: the first clock is two and the second less than four. -/
def kilnImage : Zone where
  clocks := 2
  matrix := ⟨#v[#v[.atMost 0, .atMost (-2), .atMost 0], #v[.atMost 2, .atMost 0, .atMost 2],
    #v[.below 4, .below 2, .atMost 0]]⟩

theorem kilnMove_checked : ∀ command ∈ kilnMove.commands, command.Checked := by decide +kernel

theorem circuitZone_satisfies : ∀ valuation ∈ ZoneStep.circuitZone,
    valuation.Satisfies kilnMove.sourceInvariants := by
  have hsame : ZoneStep.circuitZone.restrictAll kilnMove.sourceInvariants =
      .ok ZoneStep.circuitZone := by
    decide +kernel
  exact Zone.satisfies_of_restrictAll_eq ZoneStep.circuitZone_built.denotes hsame

theorem post_exact_kiln :
    (bridge ["x", "y"] kilnMove).build = .ok (bridgeAutomaton ["x", "y"] kilnMove) ∧
    kilnMove.post ZoneStep.circuitZone = .ok kilnImage ∧
    (∀ after, after ∈ kilnImage ↔
      ∃ before ∈ ZoneStep.circuitZone, kilnMove.Passes before after) ∧
    kilnMove.successors ZoneStep.circuitZone = .ok [kilnImage] ∧
    ¬ ∀ before ∈ ZoneStep.circuitZone, ∀ after, ¬ kilnMove.Passes before after := by
  have hbuild : (bridge ["x", "y"] kilnMove).build = .ok (bridgeAutomaton ["x", "y"] kilnMove) := by
    decide +kernel
  have hpost : kilnMove.post ZoneStep.circuitZone = .ok kilnImage := by decide +kernel
  have hsuccessors : kilnMove.successors ZoneStep.circuitZone = .ok [kilnImage] := by
    decide +kernel
  obtain ⟨himage, himages⟩ := post_exact hbuild (move_bridgeAutomaton _ _ _ _) kilnMove_checked
    ZoneStep.circuitZone_built circuitZone_satisfies
  refine ⟨hbuild, hpost, himage.result hpost, hsuccessors, fun hnone ↦ ?_⟩
  exact List.cons_ne_nil _ _ ((himages.result hsuccessors).mpr hnone)

/-- A negative reset and going back in time make a zone that contains nothing. The image of it after
a move that asks for nothing and changes nothing contains everything. -/
theorem post_plungedZone :
    (bridge ["x"] (bridgeMove [] [] [])).build =
      .ok (bridgeAutomaton ["x"] (bridgeMove [] [] [])) ∧
    (Zone.top 1).transform [.reset ⟨1, Nat.one_pos⟩ (-5), .down] = .ok Zone.plungedZone ∧
    (∀ valuation, valuation ∉ Zone.plungedZone) ∧
    (bridgeMove [] [] []).post Zone.plungedZone = .ok (Zone.top 1) ∧
    (bridgeMove [] [] []).successors Zone.plungedZone = .ok [Zone.top 1] ∧
    ⟨[0]⟩ ∈ Zone.top 1 := by
  refine ⟨by decide +kernel, by decide +kernel, ?_, by decide +kernel, by decide +kernel, ?_⟩
  · exact Zone.not_mem_of_close_eq_empty (by decide +kernel)
  · change Zone.contains _ _ = _
    decide +kernel

end Automaton

end TimedSafety
