import TimedSafety.Zone.Atoms

/-!
Interpolants: formulas that separate what is reachable along a path from what leads on to its end. A
formula says that a valuation lies in a zone, or that it does not. An interpolant gives a formula
for one position of the path, or for all positions up to some.
-/

set_option autoImplicit false

namespace TimedSafety

/-- Membership of a zone, or of its complement. -/
inductive Formula where
  | reach (zone : Zone)
  | avoid (zone : Zone)
deriving DecidableEq

namespace Formula

/-- The zone of which the formula speaks. -/
def zone : Formula → Zone
  | reach zone => zone
  | avoid zone => zone

/-- The formula is true of a valuation. -/
def holds (formula : Formula) (valuation : Valuation) : Except Fault Bool :=
  match formula with
  | reach zone => zone.contains valuation
  | avoid zone => do
    let inside ← zone.contains valuation
    return !inside

def text : Formula → Except Fault String
  | reach zone => zone.text
  | avoid zone => do
    let zoneText ← zone.text
    return "not " ++ zoneText

end Formula

/-- Formulas at positions of a path. -/
inductive Interpolant where
  /-- One formula, at the position where the path fails. -/
  | binary (index : Nat) (formula : Formula)
  /-- A formula for each position up to the one where the path fails. -/
  | sequence (formulas : List Formula)
deriving DecidableEq

namespace Interpolant

/-- The position of the last formula, if there is one. -/
def failureIndex : Interpolant → Option Nat
  | binary index _ => some index
  | sequence [] => none
  | sequence (_ :: rest) => some rest.length

/-- The formulas with their positions. -/
def formulas : Interpolant → List (Nat × Formula)
  | binary index formula => [(index, formula)]
  | sequence formulas => formulas.zipIdx.map fun (formula, index) ↦ (index, formula)

def text (interpolant : Interpolant) : Except Fault String := do
  let entries ← interpolant.formulas.mapM fun (index, formula) ↦ do
    let formulaText ← formula.text
    return s!"{index}: {formulaText}"
  return "[" ++ ", ".intercalate entries ++ "]"

end Interpolant

/-- How many positions an interpolant covers. -/
inductive InterpolantKind where
  | binary
  | sequence
deriving DecidableEq

/-- From which end of the path formulas are computed. -/
inductive Direction where
  /-- What is reachable from the start. -/
  | forward
  /-- What leads to the failure. -/
  | backward
deriving DecidableEq

end TimedSafety
