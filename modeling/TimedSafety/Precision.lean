import TimedSafety.Zone.Partition

/-!
Precisions: the atoms by which the states of a location are told apart. A precision is a sorted list
of distinct atoms; the abstract states of a location are the cells that they cut out of its
invariant.
-/

set_option autoImplicit false

namespace TimedSafety

/-- A finite set of atoms, in order. -/
structure Precision where
  atoms : List Constraint
deriving DecidableEq

namespace Precision

/-- No atoms. -/
def empty : Precision := ⟨[]⟩

/-- The precision of the given constraints, all of which must be atoms. -/
def ofList (constraints : List Constraint) : Except Fault Precision :=
  let sorted := Constraint.sortedSet constraints
  match sorted.find? (!·.isAtom) with
  | some constraint => .error (.notAnAtom constraint.text)
  | none => .ok ⟨sorted⟩

/-- The precision with the atoms among the given constraints added. -/
def join (precision : Precision) (constraints : List Constraint) : Precision :=
  ⟨(constraints.filter Constraint.isAtom).foldl
    (fun sorted constraint ↦ Constraint.insertSorted constraint sorted) precision.atoms⟩

/-- The constraint is one of the atoms. -/
def contains (precision : Precision) (constraint : Constraint) : Bool :=
  decide (constraint ∈ precision.atoms)

/-- The cells that the atoms cut out of a zone. -/
def cells (precision : Precision) (base : Zone) : Except Fault (List Zone) := do
  let partition ← base.partitionBy precision.atoms
  return partition.pieces

def text (precision : Precision) : String :=
  "ZonePrec\x7b" ++ ", ".intercalate (precision.atoms.map Constraint.text) ++ "\x7d"

end Precision

end TimedSafety
