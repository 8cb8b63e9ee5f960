import TimedSafety.Automaton.Basic
import TimedSafety.Trace

/-!
Runs of a timed automaton, which are its meaning. A run starts at the initial location with all
clocks at zero. It goes on by waiting within the invariant, which takes no time at an urgent
location, then executing the commands of an edge in order, and arriving within the invariant of the
target. It fails if waiting at its last location leads into the error zone there.

These are relations on valuations; the images of zones along moves are computed elsewhere. A freed
clock may take any value that is not negative, so one valuation can lead to many.
-/

set_option autoImplicit false

namespace TimedSafety

namespace Valuation

/-- All constraints are true of the valuation. -/
def Satisfies (valuation : Valuation) (constraints : List Constraint) : Prop :=
  ∀ constraint ∈ constraints, constraint.holds valuation = .ok true

/-- Waiting leads from one valuation to another one within the invariants; at an urgent location no
time passes. -/
def Waits (before after : Valuation) (urgent : Bool) (invariants : List Constraint) : Prop :=
  ∃ duration : Rat, 0 ≤ duration ∧ (urgent = true → duration = 0) ∧
    after = before.later duration ∧ after.Satisfies invariants

end Valuation

namespace Command

/-- The command can lead from one valuation to another. -/
def Leads : Command → Valuation → Valuation → Prop
  | free clock, before, after => ∃ value : Rat, 0 ≤ value ∧ before.set clock value = .ok after
  | command, before, after => command.apply before = .ok (some after)

/-- The commands can lead from one valuation to another, one after the other. -/
inductive LeadAll : List Command → Valuation → Valuation → Prop
  | done (valuation : Valuation) : LeadAll [] valuation valuation
  | next {command : Command} {rest : List Command} {before between after : Valuation}
      (hfirst : command.Leads before between) (hrest : LeadAll rest between after) :
      LeadAll (command :: rest) before after

end Command

/-- The move can be made from one valuation, on entry to its source, to another, on entry to its
target. -/
def Move.Leads (move : Move) (before after : Valuation) : Prop :=
  ∃ ready : Valuation, before.Waits ready move.sourceUrgent move.sourceInvariants ∧
    Command.LeadAll move.commands ready after ∧ after.Satisfies move.targetInvariants

namespace Automaton

/-- The runs of an automaton: the configurations entered and left, each with the edge by which it
was left, and the one entered last. -/
inductive Run (automaton : Automaton) : List (Configuration × EdgeId) → Configuration → Prop
  | start {place : Place} (hplace : automaton.place automaton.initial = .ok place)
      (hallowed : (Valuation.zero automaton.clocks).Satisfies place.invariants) :
      Run automaton [] ⟨automaton.initial, .zero automaton.clocks⟩
  | step {taken : List (Configuration × EdgeId)} {here : Configuration} {edge : EdgeId}
      {move : Move} {after : Valuation} (hrun : Run automaton taken here)
      (hmove : automaton.move edge = .ok move) (hsource : move.source = here.location)
      (hleads : move.Leads here.valuation after) :
      Run automaton (taken ++ [(here, edge)]) ⟨move.target, after⟩

/-- Waiting in the configuration can end in the given error valuation. -/
def Fails (automaton : Automaton) (here : Configuration) (final : Valuation) : Prop :=
  ∃ (place : Place) (condition : ErrorCondition),
    automaton.place here.location = .ok place ∧
    automaton.error? here.location = some condition ∧
    here.valuation.Waits final place.urgent place.invariants ∧ final ∈ condition.zone

/-- No run ends in a configuration from which waiting leads into an error. -/
def IsSafe (automaton : Automaton) : Prop :=
  ∀ taken here final, automaton.Run taken here → ¬ automaton.Fails here final

end Automaton

end TimedSafety
