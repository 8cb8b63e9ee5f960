import TimedSafety.Zone.Atoms

/-!
Cutting a zone into cells by atoms. Each atom cuts every piece into the part where it is true and
the part where it is not; a piece that lies on one side stays whole. The atoms that cut at least one
piece are reported, since they alone determine the cells.
-/

set_option autoImplicit false

namespace TimedSafety

/-- The pieces of a zone and the atoms that cut it. -/
structure Partition where
  pieces : List Zone
  used : List Constraint
deriving DecidableEq

namespace Zone

/-- The parts of a piece inside and outside an atom, without the empty one. -/
def cut (atom opposite : Constraint) (piece : Zone) : Except Fault (List Zone) := do
  let inside ← piece.restrict atom
  let outside ← piece.restrict opposite
  match inside.isBottom, outside.isBottom with
  | false, false => return [inside, outside]
  | false, true => return [inside]
  | true, false => return [outside]
  | true, true => do
    let pieceText ← piece.text
    throw (.pieceVanished pieceText atom.text)

/-- Cuts all pieces by one constraint; only atoms cut. -/
def cutAll (partition : Partition) (atom : Constraint) : Except Fault Partition :=
  if atom.isAtom then
    match atom.complement with
    | none => .ok partition
    | some opposite => do
      let parts ← partition.pieces.mapM (cut atom opposite)
      return ⟨parts.flatten,
        if parts.any (1 < ·.length) then partition.used ++ [atom] else partition.used⟩
  else .ok partition

/-- The cells into which the atoms cut the zone. -/
def partitionBy (zone : Zone) (atoms : List Constraint) : Except Fault Partition :=
  if zone.isBottom then .ok ⟨[], []⟩ else atoms.foldlM cutAll ⟨[zone], []⟩

end Zone

end TimedSafety
