import Mathlib.Algebra.Order.BigOperators.Group.List
import TimedSafety.Proofs.Zone.Construction
import TimedSafety.Proofs.Zone.Partition

/-!
The cells into which atoms cut a built zone. At its turn an atom finds a piece with valuations on
both sides, is recorded as used and gives more pieces; or it leaves every piece exactly as it is,
since a set of valuations has one canonical matrix only. A whole cutting is a sequence of such turns
(`Zone.CutInto`), and induction over it gives the used atoms, how many pieces there are, and that
the used atoms alone lead to the same pieces in the same order.

Which cells there are does not depend on the order of the atoms: on a cell all atoms are uniform,
and a cell holds every valuation of the zone on which they agree with one of its own
(`Partition.By.mem_pieces`). This needs zones that are canonical. After a negative reset a zone may
be one that is not, and then an atom that cuts nothing still changes it
(`tilted_cells_not_repeated`).
-/

set_option autoImplicit false

namespace TimedSafety

instance Zone.decidableMem (zone : Zone) (valuation : Valuation) : Decidable (valuation ∈ zone) :=
  decidable_of_iff' _ (Zone.mem_iff zone valuation)

/-! ### Pieces of a tiling -/

namespace Tiles

variable {clocks : Nat} {valuations : Valuation → Prop} {pieces : List Zone}

theorem nodup (htiles : Tiles pieces clocks valuations) : pieces.Nodup := by
  refine htiles.disjoint.imp_of_mem ?_
  rintro piece _ hpiece - hdisjoint rfl
  obtain ⟨valuation, hmem⟩ := htiles.exists_mem hpiece
  exact hdisjoint valuation hmem hmem

/-- Every valuation lies in just one of the pieces. -/
theorem countP_eq_one (htiles : Tiles pieces clocks valuations) {valuation : Valuation}
    (hvaluation : valuations valuation) : pieces.countP (valuation ∈ ·) = 1 := by
  induction pieces generalizing valuations with
  | nil =>
    obtain ⟨piece, hpiece, -⟩ := (htiles.cover valuation).mp hvaluation
    exact absurd hpiece List.not_mem_nil
  | cons piece rest ih =>
    by_cases hmem : valuation ∈ piece
    · have hothers : rest.countP (valuation ∈ ·) = 0 := by
        refine List.countP_eq_zero.mpr fun other hother ↦ ?_
        have hdisjoint := (List.pairwise_cons.mp htiles.disjoint).1 other hother
        simpa using hdisjoint valuation hmem
      rw [List.countP_cons_of_pos (by simpa using hmem), hothers]
    · rw [List.countP_cons_of_neg (by simpa using hmem)]
      exact ih htiles.tail ⟨hvaluation, hmem⟩

/-- If every piece of a tiling holds the whole zone, the zone is the only piece. -/
theorem eq_singleton {zone : Zone} (htiles : Tiles pieces clocks valuations)
    (hzone : zone.Denotes clocks valuations) (hbottom : zone.isBottom = false)
    (hwhole : ∀ piece ∈ pieces, ∀ valuation, valuations valuation → valuation ∈ piece) :
    pieces = [zone] := by
  have hsame : ∀ piece ∈ pieces, piece = zone := by
    intro piece hpiece
    refine Zone.Denotes.unique ⟨htiles.clocks_eq piece hpiece, htiles.canonical piece hpiece, ?_⟩
      hzone
    exact fun valuation ↦ ⟨htiles.subset hpiece, hwhole piece hpiece valuation⟩
  obtain ⟨valuation, hmem⟩ := (Zone.exists_mem_iff hzone.canonical).mp hbottom
  obtain ⟨found, hfound, -⟩ := (htiles.cover valuation).mp ((hzone.mem_iff valuation).mp hmem)
  rcases pieces with _ | ⟨first, _ | ⟨second, rest⟩⟩
  · exact absurd hfound List.not_mem_nil
  · rw [hsame first List.mem_cons_self]
  · -- Two pieces would both be the zone, and pieces are distinct.
    have hequal : first = second := (hsame first (by simp)).trans (hsame second (by simp)).symm
    exact absurd htiles.nodup (by simp [hequal])

end Tiles

/-! ### One turn -/

namespace Zone.CutBy

variable {clocks : Nat} {piece : Zone} {atom : Constraint} {parts : List Zone}

/-- An atom that is uniform on a piece leaves it as it is. -/
theorem eq_singleton (hcut : CutBy atom clocks (· ∈ piece) parts)
    (hpiece : piece.Denotes clocks (· ∈ piece)) (hbottom : piece.isBottom = false)
    (huniform : atom.Uniform piece) : parts = [piece] := by
  refine hcut.tiles.eq_singleton hpiece hbottom fun part hpart valuation hmem ↦ ?_
  obtain ⟨inside, hinside⟩ := hcut.tiles.exists_mem hpart
  have hwhole : inside ∈ piece := hcut.tiles.subset hpart hinside
  refine hcut.gathers part hpart inside hinside valuation hmem ?_
  rcases huniform with hall | hnone
  · exact iff_of_true (hall valuation hmem) (hall inside hwhole)
  · exact iff_of_false (hnone valuation hmem) (hnone inside hwhole)

/-- An atom that is not uniform on a piece cuts it. -/
theorem one_lt_length (hcut : CutBy atom clocks (· ∈ piece) parts)
    (hboth : ¬ atom.Uniform piece) : 1 < parts.length := by
  rcases parts with _ | ⟨part, _ | ⟨other, rest⟩⟩
  · refine absurd (Or.inl fun valuation hmem ↦ ?_) hboth
    obtain ⟨found, hfound, -⟩ := (hcut.tiles.cover valuation).mp hmem
    exact absurd hfound List.not_mem_nil
  · refine absurd ((hcut.uniform part List.mem_cons_self).mono fun valuation hmem ↦ ?_) hboth
    obtain ⟨found, hfound, hinside⟩ := (hcut.tiles.cover valuation).mp hmem
    rwa [List.mem_singleton.mp hfound] at hinside
  · simp

/-! ### The parts of all pieces -/

section Parts

variable {pieces : List Zone} {valuations : Valuation → Prop} {groups : List (List Zone)}

/-- Where no piece is cut, each is its own only part. -/
theorem groups_eq (htiles : Tiles pieces clocks valuations)
    (hgroups : List.Forall₂ (fun piece ↦ CutBy atom clocks (· ∈ piece)) pieces groups)
    (huniform : ∀ piece ∈ pieces, atom.Uniform piece) :
    groups = pieces.map fun piece ↦ [piece] := by
  have hspared : ∀ piece ∈ pieces, atom.Uniform piece ∧ piece.Denotes clocks (· ∈ piece) ∧
      piece.isBottom = false := fun piece hpiece ↦
    ⟨huniform piece hpiece, htiles.denotes hpiece, htiles.nonempty piece hpiece⟩
  have hwhole : List.Forall₂ (fun group piece ↦ group = [piece]) groups pieces := by
    refine ((List.forall₂_and_left _ _).mpr ⟨hspared, hgroups⟩).flip.imp ?_
    rintro group piece ⟨⟨huniform, hpiece, hbottom⟩, hgroup⟩
    exact hgroup.eq_singleton hpiece hbottom huniform
  rwa [← List.forall₂_map_right_iff, List.forall₂_eq_eq_eq] at hwhole

/-- No piece vanishes, so one that is cut gives more pieces. -/
theorem length_lt_flatten (htiles : Tiles pieces clocks valuations)
    (hgroups : List.Forall₂ (fun piece ↦ CutBy atom clocks (· ∈ piece)) pieces groups)
    (hlong : ∃ group ∈ groups, 1 < group.length) : pieces.length < groups.flatten.length := by
  have hpositive : ∀ group ∈ groups, 1 ≤ group.length := by
    intro group hgroup
    obtain ⟨piece, hpiece, hgroupOf⟩ := Yields.exists_related hgroups hgroup
    obtain ⟨valuation, hmem⟩ := htiles.exists_mem hpiece
    obtain ⟨found, hfound, -⟩ := (hgroupOf.tiles.cover valuation).mp hmem
    exact List.length_pos_of_mem hfound
  calc pieces.length = (groups.map fun _ ↦ 1).sum := by simp [hgroups.length_eq]
    _ < (groups.map List.length).sum := List.sum_lt_sum _ _ hpositive hlong
    _ = groups.flatten.length := List.length_flatten.symm

end Parts

end Zone.CutBy

/-- Some piece has valuations on both sides of the atom. -/
def Partition.IsCutBy (partition : Partition) (atom : Constraint) : Prop :=
  atom.isAtom = true ∧ ∃ piece ∈ partition.pieces, ¬ atom.Uniform piece

/-- What a turn of an atom does: nothing at all, unless it cuts a piece; then it is recorded, and
there are more pieces. -/
theorem Partition.By.cutAll_cases {partition next : Partition} {clocks : Nat}
    {valuations : Valuation → Prop} {done : List Constraint}
    (hby : partition.By clocks valuations done) {atom : Constraint}
    (hnext : Zone.cutAll partition atom = .ok next) :
    (¬ partition.IsCutBy atom ∧ next = partition) ∨
      (partition.IsCutBy atom ∧ next.used = partition.used ++ [atom] ∧
        partition.pieces.length < next.pieces.length) := by
  by_cases hisAtom : atom.isAtom = true
  · obtain ⟨groups, hgroups, rfl⟩ := (Zone.cutAll_parts tolerant_true hby.tiles hisAtom
      fun _ ↦ atom.tolerated_true clocks).result hnext
    by_cases hcut : partition.IsCutBy atom
    · obtain ⟨piece, hpiece, hboth⟩ := hcut.2
      obtain ⟨group, hgroup, hgroupOf⟩ := Yields.exists_related hgroups.flip hpiece
      have hlong : 1 < group.length := hgroupOf.one_lt_length hboth
      refine Or.inr ⟨hcut, if_pos ?_, Zone.CutBy.length_lt_flatten hby.tiles hgroups ?_⟩
      · exact List.any_eq_true.mpr ⟨group, hgroup, by simpa using hlong⟩
      · exact ⟨group, hgroup, hlong⟩
    · have huniform : ∀ piece ∈ partition.pieces, atom.Uniform piece := by
        intro piece hpiece
        by_contra hboth
        exact hcut ⟨hisAtom, piece, hpiece, hboth⟩
      refine Or.inl ⟨hcut, ?_⟩
      simp [Zone.CutBy.groups_eq hby.tiles hgroups huniform, ← List.flatMap_def]
  · rw [Zone.cutAll, if_neg hisAtom] at hnext
    exact Or.inl ⟨fun hcut ↦ hisAtom hcut.1, (Except.ok.inj hnext).symm⟩

/-! ### Whole cuttings -/

namespace Zone

variable {zone : Zone} {atoms done : List Constraint} {partition current : Partition}

/-- The partition before any cut: the zone as its only piece, or no piece if it is bottom. -/
def whole (zone : Zone) : Partition := ⟨if zone.isBottom then [] else [zone], []⟩

theorem foldlM_cutAll_nil (atoms : List Constraint) :
    atoms.foldlM cutAll ⟨[], []⟩ = .ok ⟨[], []⟩ := by
  induction atoms with
  | nil => rfl
  | cons atom rest ih =>
    have hturn : cutAll ⟨[], []⟩ atom = .ok ⟨[], []⟩ := by
      unfold cutAll
      split_ifs
      · cases atom.complement <;> rfl
      · rfl
    rw [List.foldlM_cons, hturn]
    exact ih

/-- The atoms take their turns one after the other, also on a zone that is bottom. -/
theorem partitionBy_eq_foldlM (zone : Zone) (atoms : List Constraint) :
    zone.partitionBy atoms = atoms.foldlM cutAll zone.whole := by
  unfold partitionBy whole
  split_ifs
  · exact (foldlM_cutAll_nil atoms).symm
  · rfl

theorem partitionBy_append_singleton (hdone : zone.partitionBy done = .ok current)
    (atom : Constraint) : zone.partitionBy (done ++ [atom]) = cutAll current atom := by
  rw [partitionBy_eq_foldlM] at hdone ⊢
  rw [List.foldlM_append, hdone]
  exact bind_pure (cutAll current atom)

/-- Atoms take their turns on a zone. One that cuts no piece changes nothing; one that does is
recorded, and gives more pieces. -/
inductive CutInto (zone : Zone) : List Constraint → Partition → Prop
  | whole : CutInto zone [] zone.whole
  | spare {done : List Constraint} {current : Partition} {atom : Constraint}
      (hdone : CutInto zone done current) (hspared : ¬ current.IsCutBy atom)
      (hturn : cutAll current atom = .ok current) : CutInto zone (done ++ [atom]) current
  | cut {done : List Constraint} {current next : Partition} {atom : Constraint}
      (hdone : CutInto zone done current) (hcut : current.IsCutBy atom)
      (hturn : cutAll current atom = .ok next) (hused : next.used = current.used ++ [atom])
      (hmore : current.pieces.length < next.pieces.length) : CutInto zone (done ++ [atom]) next

theorem partitionBy_cutInto {clocks : Nat} {valuations : Valuation → Prop}
    (hzone : zone.Denotes clocks valuations) (atoms : List Constraint) :
    Yields (fun _ ↦ True) (zone.partitionBy atoms) (zone.CutInto atoms) := by
  have hstart : zone.whole.By clocks valuations [] :=
    (partitionBy_exact tolerant_true hzone (by simp)).result (partitionBy_eq_foldlM zone [])
  rw [partitionBy_eq_foldlM]
  refine (Yields.foldlM (fun done (current : Partition) ↦
    current.By clocks valuations done ∧ zone.CutInto done current) ⟨hstart, .whole⟩ ?_).mono
      fun _ hinto ↦ hinto.2
  rintro done atom - - current ⟨hby, hinto⟩
  refine Yields.of_forall fun next hnext ↦ ⟨?_, ?_⟩
  · exact (cutAll_yields tolerant_true hby fun _ _ ↦ atom.tolerated_true clocks).result hnext
  · rcases hby.cutAll_cases hnext with ⟨hspared, rfl⟩ | ⟨hcut, hused, hmore⟩
    · exact .spare hinto hspared hnext
    · exact .cut hinto hcut hnext hused hmore

/-- The atom at a position cuts at its turn: of the pieces that the atoms before it leave, some has
valuations on both sides. -/
def CutsAt (zone : Zone) (atoms : List Constraint) (turn : Nat) : Prop :=
  ∃ atom before, atoms[turn]? = some atom ∧ zone.partitionBy (atoms.take turn) = .ok before ∧
    before.IsCutBy atom

theorem CutsAt.lt_length {turn : Nat} (hcuts : zone.CutsAt atoms turn) : turn < atoms.length := by
  obtain ⟨atom, -, hatom, -⟩ := hcuts
  exact (List.getElem?_eq_some_iff.mp hatom).1

/-- One more atom cuts at its turn just if it cuts the pieces left by those before it. The turns of
the others stay as they are. -/
theorem cutsAt_append_singleton_iff (hdone : zone.partitionBy done = .ok current)
    {atom : Constraint} {turn : Nat} : zone.CutsAt (done ++ [atom]) turn ↔
      zone.CutsAt done turn ∨ (turn = done.length ∧ current.IsCutBy atom) := by
  unfold CutsAt
  rcases lt_trichotomy turn done.length with hbefore | rfl | hafter
  · have htake : (done ++ [atom]).take turn = done.take turn :=
      List.take_append_of_le_length hbefore.le
    simp [htake, List.getElem?_append_left hbefore, hbefore.ne]
  · simp [hdone]
  · have hbeyond : (done ++ [atom]).length ≤ turn := by
      rw [List.length_append]
      exact hafter
    simp [List.getElem?_eq_none hbeyond, List.getElem?_eq_none hafter.le, hafter.ne']

theorem filterMap_getElem?_append {turns : List Nat} (hturns : ∀ turn ∈ turns, turn < done.length)
    (rest : List Constraint) :
    turns.filterMap ((done ++ rest)[·]?) = turns.filterMap (done[·]?) :=
  List.filterMap_congr fun turn hturn ↦ List.getElem?_append_left (hturns turn hturn)

namespace CutInto

theorem partitionBy_eq (hinto : zone.CutInto atoms partition) :
    zone.partitionBy atoms = .ok partition := by
  induction hinto with
  | whole => exact partitionBy_eq_foldlM zone []
  | spare _ _ hturn ih => rw [partitionBy_append_singleton ih, hturn]
  | cut _ _ hturn _ _ ih => rw [partitionBy_append_singleton ih, hturn]

/-- The used atoms alone lead to the same partition. -/
theorem partitionBy_used_eq (hinto : zone.CutInto atoms partition) :
    zone.partitionBy partition.used = .ok partition := by
  induction hinto with
  | whole => exact partitionBy_eq_foldlM zone []
  | spare _ _ _ ih => exact ih
  | cut _ _ hturn hused _ ih => rw [hused, partitionBy_append_singleton ih, hturn]

/-- There is at most one piece as long as no atom is used, and more than one afterwards. -/
theorem one_lt_length_iff (hinto : zone.CutInto atoms partition) :
    1 < partition.pieces.length ↔ partition.used ≠ [] := by
  induction hinto with
  | whole =>
    unfold Zone.whole
    split_ifs <;> simp
  | spare _ _ _ ih => exact ih
  | @cut _ current next _ _ hcut _ hused hmore _ =>
    obtain ⟨-, piece, hpiece, -⟩ := hcut
    have hsome : 0 < current.pieces.length := List.length_pos_of_mem hpiece
    refine iff_of_true (by omega) ?_
    simp [hused]

/-- The used atoms are those that cut at their turn, in their order. -/
theorem exists_turns (hinto : zone.CutInto atoms partition) : ∃ turns : List Nat,
    turns.Pairwise (· < ·) ∧ (∀ turn, turn ∈ turns ↔ zone.CutsAt atoms turn) ∧
      partition.used = turns.filterMap (atoms[·]?) := by
  -- A turn depends on the atoms before it only, so the turns found so far stay as they are.
  induction hinto with
  | whole => exact ⟨[], List.Pairwise.nil, by simp [CutsAt], rfl⟩
  | @spare done current atom hdone hspared _ ih =>
    obtain ⟨turns, hsorted, hturns, hused⟩ := ih
    refine ⟨turns, hsorted, fun turn ↦ ?_, ?_⟩
    · rw [cutsAt_append_singleton_iff hdone.partitionBy_eq, hturns]
      simp [hspared]
    · rw [hused, filterMap_getElem?_append fun turn hturn ↦ ((hturns turn).mp hturn).lt_length]
  | @cut done current next atom hdone hcut _ hused _ ih =>
    obtain ⟨turns, hsorted, hturns, hbefore⟩ := ih
    have hlt : ∀ turn ∈ turns, turn < done.length := fun turn hturn ↦
      ((hturns turn).mp hturn).lt_length
    refine ⟨turns ++ [done.length], ?_, fun turn ↦ ?_, ?_⟩
    · exact List.pairwise_append.mpr ⟨hsorted, List.pairwise_singleton _ _, by simpa using hlt⟩
    · rw [cutsAt_append_singleton_iff hdone.partitionBy_eq, List.mem_append, hturns]
      simp [hcut]
    · rw [hused, hbefore, List.filterMap_append, filterMap_getElem?_append hlt]
      simp

end CutInto

end Zone

/-! ### The cells of a built zone -/

/-- A zone is cut by atoms as it should be. The pieces are not empty, lie in the zone, and each of
its valuations lies in just one of them; every atom is uniform on every piece; the used atoms are
those that cut at their turn; and without any there is no second piece. -/
structure Partition.Dissects (partition : Partition) (zone : Zone) (atoms : List Constraint) :
    Prop where
  nonempty : ∀ piece ∈ partition.pieces, piece.isBottom = false
  subset : ∀ piece ∈ partition.pieces, piece.isSubset zone = .ok true
  unique : ∀ valuation ∈ zone, partition.pieces.countP (valuation ∈ ·) = 1
  uniform : Zone.UniformOn atoms partition.pieces
  used : ∃ turns : List Nat, turns.Pairwise (· < ·) ∧
    (∀ turn, turn ∈ turns ↔ zone.CutsAt atoms turn) ∧
    partition.used = turns.filterMap (atoms[·]?)
  several : 1 < partition.pieces.length ↔ partition.used ≠ []

/-- Constraints over the clocks of a built zone cut it as they should. Overflow is the only fault;
in particular no piece vanishes. -/
theorem Zone.Built.partitionBy_dissects {clocks : Nat} {zone : Zone} (hzone : zone.Built clocks)
    {atoms : List Constraint} (hatoms : ∀ atom ∈ atoms, atom.Within clocks) :
    Yields Fault.IsOverflow (zone.partitionBy atoms) (·.Dissects zone atoms) := by
  have hdenotes := hzone.denotes
  refine ((partitionBy_exact tolerant_isOverflow hdenotes fun _ atom hatom _ ↦
    (hatoms atom hatom).tolerated _).and (partitionBy_cutInto hdenotes atoms)).mono ?_
  rintro partition ⟨hby, hinto⟩
  constructor
  case nonempty => exact hby.tiles.nonempty
  case subset =>
    intro piece hpiece
    have hclocks : zone.clocks = piece.clocks :=
      hdenotes.clocks_eq.trans (hby.tiles.clocks_eq piece hpiece).symm
    refine (isSubset_eq_true_iff (hby.tiles.canonical piece hpiece) hdenotes.canonical
      hclocks).mpr ?_
    exact fun valuation hmem ↦ hby.tiles.subset hpiece hmem
  case unique => exact fun valuation hmem ↦ hby.tiles.countP_eq_one hmem
  case uniform => exact hby.uniform
  case used => exact hinto.exists_turns
  case several => exact hinto.one_lt_length_iff

namespace Zone

/-- Six constraints, of which the first and the third cut the zone of the circuit. The second holds
nowhere in it, the fourth has cut already, and the last two are no atoms. -/
def facets : List Constraint :=
  [.compare ⟨1, Nat.one_pos⟩ none .less 1, .compare ⟨2, Nat.two_pos⟩ none .atLeast 5,
    .compare ⟨2, Nat.two_pos⟩ (some ⟨1, Nat.one_pos⟩) .atMost 2,
    .compare ⟨1, Nat.one_pos⟩ none .less 1, .compare ⟨1, Nat.one_pos⟩ none .equal 2, .always]

theorem partitionBy_facets : ∃ partition, ZoneStep.circuitZone.partitionBy facets = .ok partition ∧
    partition.pieces.length = 4 ∧
    partition.used = [.compare ⟨1, Nat.one_pos⟩ none .less 1,
      .compare ⟨2, Nat.two_pos⟩ (some ⟨1, Nat.one_pos⟩) .atMost 2] := by
  have hcells : (ZoneStep.circuitZone.partitionBy facets).toOption.map
      (fun partition ↦ (partition.pieces.length, partition.used)) =
        some (4, [.compare ⟨1, Nat.one_pos⟩ none .less 1,
          .compare ⟨2, Nat.two_pos⟩ (some ⟨1, Nat.one_pos⟩) .atMost 2]) := by decide +kernel
  cases hresult : ZoneStep.circuitZone.partitionBy facets with
  | error fault => simp [hresult, Except.toOption] at hcells
  | ok partition =>
    simp only [hresult, Except.toOption, Option.map_some, Option.some.injEq,
      Prod.mk.injEq] at hcells
    exact ⟨partition, rfl, hcells⟩

theorem facets_within : ∀ atom ∈ facets, atom.Within 2 := by
  simp [facets, Constraint.Within, Constraint.clocks]

theorem partitionBy_dissects_facets : (∀ atom ∈ facets, atom.Within 2) ∧
    ∃ partition, ZoneStep.circuitZone.partitionBy facets = .ok partition ∧
      partition.pieces.length = 4 ∧ partition.Dissects ZoneStep.circuitZone facets := by
  obtain ⟨partition, hpartition, hlength, -⟩ := partitionBy_facets
  refine ⟨facets_within, partition, hpartition, hlength, ?_⟩
  exact (ZoneStep.circuitZone_built.partitionBy_dissects facets_within).result hpartition

end Zone

/-! ### What the cells depend on -/

namespace Partition.By

variable {partition other : Partition} {clocks : Nat} {valuations : Valuation → Prop}
  {first second : List Constraint}

/-- A piece of one partition is a piece of another one of the same valuations, if each partition
is by the atoms that the other one uses. -/
theorem mem_pieces (hfirst : partition.By clocks valuations first)
    (hsecond : other.By clocks valuations second) (hforth : partition.used ⊆ second)
    (hback : other.used ⊆ first) {piece : Zone} (hpiece : piece ∈ partition.pieces) :
    piece ∈ other.pieces := by
  obtain ⟨inside, hinside⟩ := hfirst.tiles.exists_mem hpiece
  obtain ⟨cell, hcell, hmem⟩ :=
    (hsecond.tiles.cover inside).mp (hfirst.tiles.subset hpiece hinside)
  have hsame : piece = cell := by
    refine (hfirst.tiles.canonical piece hpiece).ext (hsecond.tiles.canonical cell hcell) ?_
      fun valuation ↦ ⟨fun hvaluation ↦ ?_, fun hvaluation ↦ ?_⟩
    · exact (hsecond.tiles.clocks_eq cell hcell).trans
        (hfirst.tiles.clocks_eq piece hpiece).symm
    · have hagree := hfirst.uniform.agreeOn hpiece hinside hvaluation
      exact hsecond.determined cell hcell inside hmem valuation
        (hfirst.tiles.subset hpiece hvaluation) (hagree.subset hback)
    · have hagree := hsecond.uniform.agreeOn hcell hmem hvaluation
      exact hfirst.determined piece hpiece inside hinside valuation
        (hsecond.tiles.subset hcell hvaluation) (hagree.subset hforth)
  exact hsame ▸ hcell

/-- Partitions of the same valuations by the same atoms have the same pieces. -/
theorem perm (hfirst : partition.By clocks valuations first)
    (hsecond : other.By clocks valuations second)
    (hsame : ∀ atom, atom ∈ first ↔ atom ∈ second) :
    partition.pieces.Perm other.pieces := by
  have hforth : partition.used ⊆ second := fun atom hatom ↦
    (hsame atom).mp (hfirst.used atom hatom).1
  have hback : other.used ⊆ first := fun atom hatom ↦
    (hsame atom).mpr (hsecond.used atom hatom).1
  refine (List.perm_ext_iff_of_nodup hfirst.tiles.nodup hsecond.tiles.nodup).mpr fun piece ↦ ?_
  exact ⟨hfirst.mem_pieces hsecond hforth hback, hsecond.mem_pieces hfirst hback hforth⟩

end Partition.By

/-- An overflow, or the refusal of a clock that one of the constraints names and that is out of
range. -/
def Fault.IsBeyond (clocks : Nat) (constraints : List Constraint) (fault : Fault) : Prop :=
  fault.IsOverflow ∨ ∃ constraint ∈ constraints, ∃ clock ∈ constraint.clocks,
    clocks < clock.id ∧ fault = .clockOutOfRange clock clocks

namespace Zone

variable {clocks : Nat} {zone : Zone}

theorem Built.partitionBy_yields (hzone : zone.Built clocks) (atoms : List Constraint) :
    Yields (Fault.IsBeyond clocks atoms) (zone.partitionBy atoms) fun partition ↦
      partition.By clocks (· ∈ zone) atoms ∧ zone.CutInto atoms partition := by
  refine (partitionBy_exact (fun _ ↦ Or.inl) hzone.denotes fun _ atom hatom _ ↦ ?_).and
    (partitionBy_cutInto hzone.denotes atoms)
  exact fun clock hclock hrange ↦ Or.inr ⟨atom, hatom, clock, hclock, hrange, rfl⟩

/-- The cells of a built zone depend only on which atoms there are, and no cell stands twice. The
used atoms alone give the same cells in the same order, and are all used again. -/
theorem Built.partitionBy_determined (hzone : zone.Built clocks) {first second : List Constraint}
    (hsame : ∀ atom, atom ∈ first ↔ atom ∈ second) :
    Yields (Fault.IsBeyond clocks first) (zone.partitionBy first) fun partition ↦
      partition.pieces.Nodup ∧ zone.partitionBy partition.used = .ok partition ∧
      Yields (Fault.IsBeyond clocks second) (zone.partitionBy second) fun other ↦
        partition.pieces.Perm other.pieces := by
  refine (hzone.partitionBy_yields first).mono ?_
  rintro partition ⟨hfirst, hinto⟩
  refine ⟨hfirst.tiles.nodup, hinto.partitionBy_used_eq, ?_⟩
  exact (hzone.partitionBy_yields second).mono fun other hsecond ↦ hfirst.perm hsecond.1 hsame

/-- The facets cut the zone of the circuit into the same cells if they take their turns the other
way round. -/
theorem partitionBy_determined_facets : (∀ atom, atom ∈ facets ↔ atom ∈ facets.reverse) ∧
    ∃ partition other, ZoneStep.circuitZone.partitionBy facets = .ok partition ∧
      ZoneStep.circuitZone.partitionBy facets.reverse = .ok other ∧
      partition.pieces.Nodup ∧ ZoneStep.circuitZone.partitionBy partition.used = .ok partition ∧
      partition.pieces.Perm other.pieces := by
  have hsame : ∀ atom, atom ∈ facets ↔ atom ∈ facets.reverse := fun _ ↦ List.mem_reverse.symm
  obtain ⟨partition, hpartition, -⟩ := partitionBy_facets
  have hread : (ZoneStep.circuitZone.partitionBy facets.reverse).map (fun _ ↦ ()) = .ok () := by
    decide +kernel
  obtain ⟨other, hother, -⟩ := exists_ok_of_map hread
  obtain ⟨hnodup, hagain, hperm⟩ :=
    (ZoneStep.circuitZone_built.partitionBy_determined hsame).result hpartition
  exact ⟨hsame, partition, other, hpartition, hother, hnodup, hagain, hperm.result hother⟩

/-! ### A zone after a negative reset -/

/-- The first clock is not negative and the second is zero; moreover the second is at most `slack`
ahead of the first. This bound is canonical just if the slack is zero. -/
def tiltedZone (slack : Int) : Zone where
  clocks := 2
  matrix := .tabulate fun i j ↦
    if i.val = 1 ∧ j.val ≠ 1 then .infinite
    else if i.val = 2 ∧ j.val = 1 then .atMost slack
    else .zero

/-- The first clock is put below the reference and waits without limit, the second is set to zero.
Going back in time then lifts the first clock, but leaves the slack between the two. An atom that
holds throughout this zone is not used and still takes the slack away; so the used atoms, none at
all, do not give the same piece again. -/
theorem tilted_cells_not_repeated :
    (zero 2).transform [.reset ⟨1, Nat.one_pos⟩ (-7), .up, .reset ⟨2, Nat.two_pos⟩ 0, .down] =
      .ok (tiltedZone 7) ∧
    (tiltedZone 7).partitionBy [.compare ⟨1, Nat.one_pos⟩ none .atLeast 0] =
      .ok ⟨[tiltedZone 0], []⟩ ∧
    (tiltedZone 7).partitionBy [] = .ok ⟨[tiltedZone 7], []⟩ ∧ tiltedZone 7 ≠ tiltedZone 0 :=
  ⟨by decide +kernel, by decide +kernel, by decide +kernel, by decide +kernel⟩

end Zone

end TimedSafety
