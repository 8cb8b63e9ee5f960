import TimedSafety.Zone.Draft

/-!
A zone as a conjunction of atoms. Cells without a bound and lower bounds `≥ 0` say nothing; the
bound on a difference is left out where the bounds of its two clocks already imply it. The text of a
zone lists its atoms, row after row of the matrix.
-/

set_option autoImplicit false

namespace TimedSafety

/-- The clock of a row or column, and nothing for the reference. -/
def Index.clock? {clocks : Nat} (i : Index clocks) : Option Clock := Clock.ofId? i.val

/-- The comparison by which a bound from above is written. -/
def Comparison.upper (strict : Bool) : Comparison := if strict then .less else .atMost

/-- The comparison by which a bound from below is written. -/
def Comparison.lower (strict : Bool) : Comparison := if strict then .greater else .atLeast

namespace BoundMatrix

variable {clocks : Nat}

/-- The atom that a cell off the diagonal adds to the others, if any. -/
def atomAt (matrix : BoundMatrix clocks) (i j : Index clocks) :
    Except Fault (Option Constraint) :=
  match matrix.cell i j with
  | .infinite => .ok none
  | .finite value strict =>
    match Index.clock? i, Index.clock? j with
    | none, none => .ok none
    | some clock, none => .ok (some (.compare clock none (.upper strict) value))
    | none, some clock =>
      if Bound.finite value strict = Bound.zero then .ok none
      else do
        let lower ← Word.negate value
        return some (.compare clock none (.lower strict) lower)
    | some left, some right => do
      let implied ← (matrix.cell i Index.reference).add (matrix.cell Index.reference j)
      return if implied ≤ .finite value strict then none
        else some (.compare left (some right) (.upper strict) value)

/-- The atoms of all cells, row after row. -/
def atoms (matrix : BoundMatrix clocks) : Except Fault (List Constraint) := do
  let found ← ((Draft.pairs clocks).filter fun (i, j) ↦ i ≠ j).mapM fun (i, j) ↦
    matrix.atomAt i j
  return found.filterMap id

end BoundMatrix

namespace Zone

/-- Atoms whose conjunction is the zone. -/
def atoms (zone : Zone) : Except Fault (List Constraint) :=
  if zone.isBottom then .ok [.never] else zone.matrix.atoms

def text (zone : Zone) : Except Fault String :=
  if zone.isBottom then .ok "false"
  else do
    let atoms ← zone.atoms
    return if atoms.isEmpty then "true"
      else "\x7b" ++ ", ".intercalate (atoms.map Constraint.text) ++ "\x7d"

end Zone

end TimedSafety
