import TimedSafety.Automaton.Draft

/-!
Fischer's mutual exclusion protocol for two processes, as a family of automata. Each process goes
from idle over request and wait into its critical section. Entering the request resets its clock,
the request must be left within `deadline` time units by writing the process's number into a shared
variable, and the critical section may be entered after waiting longer than the deadline, if the
variable still holds that number. In the lenient variant waiting exactly the deadline is enough,
which breaks mutual exclusion. The shared variable is part of the location.
-/

set_option autoImplicit false

namespace TimedSafety.Fischer

/-- Where a process stands. -/
inductive Phase where
  | idle
  | request
  | wait
  | critical
deriving DecidableEq

namespace Phase

def all : List Phase := [idle, request, wait, critical]

def rank : Phase → Nat
  | idle => 0
  | request => 1
  | wait => 2
  | critical => 3

def name : Phase → String
  | idle => "idle"
  | request => "req"
  | wait => "wait"
  | critical => "cs"

end Phase

/-- The two processes. -/
inductive Process where
  | first
  | second
deriving DecidableEq

namespace Process

def all : List Process := [first, second]

/-- The number that a process writes into the shared variable. -/
def number : Process → Nat
  | first => 1
  | second => 2

/-- The clock of a process. -/
def clock : Process → Clock
  | first => ⟨1, Nat.one_pos⟩
  | second => ⟨2, Nat.two_pos⟩

end Process

/-- A location of the product: the phases of both processes and the shared variable, which is zero
or the number of a process. -/
structure Situation where
  first : Phase
  second : Phase
  shared : Nat
deriving DecidableEq

namespace Situation

/-- All locations of the product, in order. -/
def all : List Situation :=
  Phase.all.flatMap fun first ↦ Phase.all.flatMap fun second ↦
    (List.range 3).map fun shared ↦ ⟨first, second, shared⟩

/-- The place of a situation in the order of all. -/
def location (situation : Situation) : Location :=
  ⟨(situation.first.rank * 4 + situation.second.rank) * 3 + situation.shared⟩

def name (situation : Situation) : String :=
  s!"{situation.first.name}.{situation.second.name}.id={situation.shared}"

/-- The phase of a process. -/
def phase (situation : Situation) : Process → Phase
  | .first => situation.first
  | .second => situation.second

/-- One process changes its phase, and the shared variable its value. -/
def enter (situation : Situation) (process : Process) (phase : Phase) (shared : Nat) :
    Situation :=
  match process with
  | .first => { situation with first := phase, shared }
  | .second => { situation with second := phase, shared }

end Situation

/-- The invariants of a situation: a request is left within the deadline. -/
def invariants (deadline : Int) (situation : Situation) :
    Except Fault (List (Location × Constraint)) :=
  (Process.all.filter fun process ↦ situation.phase process = .request).mapM fun process ↦ do
    let constraint ← Constraint.unit process.clock .atMost deadline
    return (situation.location, constraint)

/-- What a process can do in a situation, if anything: where it leads, and the commands. -/
def action (deadline : Int) (lenient : Bool) (situation : Situation) (process : Process) :
    Except Fault (Option (Situation × List Command)) :=
  match situation.phase process with
  | .idle =>
    if situation.shared = 0 then do
      let reset ← Command.resetTo process.clock 0
      return some (situation.enter process .request situation.shared, [reset])
    else .ok none
  | .request => do
    let reset ← Command.resetTo process.clock 0
    return some (situation.enter process .wait process.number, [reset])
  | .wait =>
    if situation.shared = process.number then do
      let guard ← Constraint.unit process.clock (if lenient then .atLeast else .greater) deadline
      return some (situation.enter process .critical situation.shared, [.guard guard])
    else .ok (some (situation.enter process .idle situation.shared, []))
  | .critical => .ok (some (situation.enter process .idle 0, []))

/-- The edges that leave a situation. -/
def edgesFrom (deadline : Int) (lenient : Bool) (situation : Situation) :
    Except Fault (List (Location × Location × List Command)) := do
  let actions ← Process.all.mapM (action deadline lenient situation)
  return (actions.filterMap id).map fun (target, commands) ↦
    (situation.location, target.location, commands)

/-- The protocol as a draft. -/
def draft (deadline : Int) (lenient : Bool) : Except Fault AutomatonDraft := do
  let invariants ← Situation.all.mapM (invariants deadline)
  let edges ← Situation.all.mapM (edgesFrom deadline lenient)
  return {
    clockNames := ["x1", "x2"]
    locations := Situation.all.map fun situation ↦ (situation.name, false)
    invariants := invariants.flatten
    edges := edges.flatten
    initial := some (Situation.location ⟨.idle, .idle, 0⟩)
    errors := (Situation.all.filter fun situation ↦
      situation.first = .critical ∧ situation.second = .critical).map fun situation ↦
        (situation.location, []) }

/-- The protocol as an automaton. -/
def automaton (deadline : Int) (lenient : Bool) : Except (Failure ModelError) Automaton := do
  let draft ← draft deadline lenient
  draft.build

end TimedSafety.Fischer
