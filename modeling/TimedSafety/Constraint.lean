import TimedSafety.Valuation

/-!
Clock constraints: a clock, or the difference of two clocks, compared with a whole number. Atoms are
the constraints whose negation is again a single comparison. Constraints are totally ordered, the
constants first and comparisons by their parts, so a finite set of them is a sorted list.

The checked constructors `Constraint.unit` and `Constraint.difference` refuse constants above
`maxConstant` and differences of a clock with itself; the plain constructor does not.
-/

set_option autoImplicit false

namespace TimedSafety

/-- How a clock or a difference is compared with a constant. -/
inductive Comparison where
  | less
  | atMost
  | equal
  | atLeast
  | greater
deriving DecidableEq

namespace Comparison

/-- The comparison that holds exactly when this one does not; equality has none. -/
def complement : Comparison → Option Comparison
  | less => some atLeast
  | atMost => some greater
  | equal => none
  | atLeast => some less
  | greater => some atMost

/-- The place of a comparison in the order of comparisons. -/
def rank : Comparison → Nat
  | less => 0
  | atMost => 1
  | equal => 2
  | atLeast => 3
  | greater => 4

/-- The comparison of two rationals. -/
def test : Comparison → Rat → Rat → Bool
  | less, left, right => decide (left < right)
  | atMost, left, right => decide (left ≤ right)
  | equal, left, right => decide (left = right)
  | atLeast, left, right => decide (right ≤ left)
  | greater, left, right => decide (right < left)

def text : Comparison → String
  | less => "<"
  | atMost => "<="
  | equal => "="
  | atLeast => ">="
  | greater => ">"

end Comparison

/-- A constraint on clocks. In a comparison, a missing right clock stands for zero. -/
inductive Constraint where
  | always
  | never
  | compare (left : Clock) (right : Option Clock) (comparison : Comparison) (bound : Int)
deriving DecidableEq

/-- Refuses a constant that is too large, naming the text in which it stands. -/
def checkConstant (value : Int) (subject : String) : Except Fault Unit :=
  if -maxConstant ≤ value ∧ value ≤ maxConstant then .ok ()
  else .error (.constantOutOfRange value subject)

namespace Constraint

def text : Constraint → String
  | always => "true"
  | never => "false"
  | compare left none comparison bound => s!"{left.text} {comparison.text} {bound}"
  | compare left (some right) comparison bound =>
    s!"{left.text} - {right.text} {comparison.text} {bound}"

/-! ### Checked constructors -/

/-- A single clock compared with a constant. -/
def unit (clock : Clock) (comparison : Comparison) (bound : Int) : Except Fault Constraint := do
  let constraint := compare clock none comparison bound
  checkConstant bound constraint.text
  return constraint

/-- The difference of two clocks compared with a constant. -/
def difference (left right : Clock) (comparison : Comparison) (bound : Int) :
    Except Fault Constraint :=
  if left = right then .error (.singleClockDifference left)
  else do
    let constraint := compare left (some right) comparison bound
    checkConstant bound constraint.text
    return constraint

/-! ### Parts and negation -/

/-- The clocks that a constraint mentions. -/
def clocks : Constraint → List Clock
  | always => []
  | never => []
  | compare left none _ _ => [left]
  | compare left (some right) _ _ => [left, right]

/-- The constraint is an inequality, strict or not. -/
def isAtom : Constraint → Bool
  | compare _ _ comparison _ => decide (comparison ≠ .equal)
  | _ => false

/-- The comparison with the complementary operator, where there is one. -/
def complement : Constraint → Option Constraint
  | compare left right comparison bound =>
    comparison.complement.map fun opposite ↦ compare left right opposite bound
  | _ => none

/-- The negation, as a list of alternatives. -/
def negate : Constraint → List Constraint
  | always => [never]
  | never => [always]
  | compare left right comparison bound =>
    match comparison.complement with
    | some opposite => [compare left right opposite bound]
    | none => [compare left right .less bound, compare left right .greater bound]

/-- The constraint is true of a valuation. -/
def holds (constraint : Constraint) (valuation : Valuation) : Except Fault Bool :=
  match constraint with
  | always => .ok true
  | never => .ok false
  | compare left none comparison bound => do
    let value ← valuation.get left
    return comparison.test value bound
  | compare left (some right) comparison bound => do
    let value ← valuation.get left
    let other ← valuation.get right
    return comparison.test (value - other) bound

/-! ### Order -/

/-- The number of the right clock, zero if there is none. -/
def rightRank : Option Clock → Nat
  | none => 0
  | some clock => clock.id

/-- The total order of constraints. -/
def order : Constraint → Constraint → Ordering
  | always, always => .eq
  | always, _ => .lt
  | _, always => .gt
  | never, never => .eq
  | never, _ => .lt
  | _, never => .gt
  | compare left right comparison bound, compare left' right' comparison' bound' =>
    (Ord.compare left.id left'.id).then
      ((Ord.compare (rightRank right) (rightRank right')).then
        ((Ord.compare comparison.rank comparison'.rank).then (Ord.compare bound bound')))

/-- Inserts a constraint into a sorted list, unless it is already there. -/
def insertSorted (constraint : Constraint) : List Constraint → List Constraint
  | [] => [constraint]
  | head :: rest =>
    match order constraint head with
    | .lt => constraint :: head :: rest
    | .eq => head :: rest
    | .gt => head :: insertSorted constraint rest

/-- The constraints in order, with their repetitions. -/
def sort (constraints : List Constraint) : List Constraint :=
  constraints.mergeSort fun left right ↦ order left right != .gt

/-- The constraints in order, each once. -/
def sortedSet (constraints : List Constraint) : List Constraint :=
  constraints.foldl (fun sorted constraint ↦ insertSorted constraint sorted) []

end Constraint

end TimedSafety
