import TimedSafety.Graph.Basic
import TimedSafety.Interpolant

/-!
Splitting the states of a path along an interpolant. Each state is cut by the atoms of the formula
at its position; where that yields several pieces, the state is replaced by them and the atoms that
cut are added to the precision of its location. A state is split at most once, even if the path
visits it several times.
-/

set_option autoImplicit false

namespace TimedSafety.AbstractGraph

/-- The graph so far, the states already split, and the smallest position at which one was. -/
structure SplitProgress where
  graph : AbstractGraph
  split : List StateId
  first : Nat

/-- Cuts the state at one position of the path by the formula there. -/
def splitAt (path : List StateId) (progress : SplitProgress) (position : Nat × Formula) :
    Except Fault SplitProgress :=
  match path[position.1]? with
  | none => .error .indexOutOfBounds
  | some id =>
    if id ∈ progress.split then .ok progress
    else
      match progress.graph.state? id with
      | none => .ok progress
      | some state =>
        if state.zone.isBottom then .ok progress
        else do
          let atoms ← position.2.zone.atoms
          let partition ← state.zone.partitionBy atoms
          if partition.pieces.length < 2 then return progress
          let precision ← progress.graph.precisions.precision state.location
          let precisions := progress.graph.precisions.update
            [(state.location, precision.join partition.used)]
          let (graph, _) ← AbstractGraph.splitState
            { progress.graph with precisions } id partition.pieces
          return ⟨graph, id :: progress.split, min progress.first position.1⟩

/-- Splits the states of a path along an interpolant. The number is the smallest position at which a
state was split, and the length of the path if none was. -/
def splitAlong (graph : AbstractGraph) (path : List StateId) (interpolant : Interpolant) :
    Except Fault (AbstractGraph × Nat) := do
  let progress ← interpolant.formulas.foldlM (splitAt path) ⟨graph, [], path.length⟩
  return (progress.graph, progress.first)

end TimedSafety.AbstractGraph
