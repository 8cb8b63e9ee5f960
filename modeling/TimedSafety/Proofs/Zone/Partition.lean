import TimedSafety.Proofs.Zone.Sample
import TimedSafety.Zone.Partition

/-!
Cutting a zone by atoms. Pieces tile a set of valuations if they are zones in order, none of them
empty, no two share a valuation, and together they hold the set. Cutting keeps a tiling, and on each
piece every atom that cut is uniform: true everywhere or nowhere. A cut can not lose a piece, since
an atom and its complement never fail together.

The atoms that are recorded as used determine the pieces: two valuations of the zone on which they
agree lie in the same piece (`Partition.By`).

The atoms of a zone that is not empty are true just in the zone, so a zone that is neither disjoint
from another nor all of it has an atom that is not uniform there.
-/

set_option autoImplicit false

namespace TimedSafety

/-! ### Tilings -/

/-- The pieces are zones over the clocks, in order and not empty; no two share a valuation; and
together they hold just the given valuations. -/
structure Tiles (pieces : List Zone) (clocks : Nat) (valuations : Valuation → Prop) : Prop where
  clocks_eq : ∀ piece ∈ pieces, piece.clocks = clocks
  canonical : ∀ piece ∈ pieces, piece.Canonical
  nonempty : ∀ piece ∈ pieces, piece.isBottom = false
  disjoint : pieces.Pairwise fun first second ↦ ∀ valuation, valuation ∈ first → valuation ∉ second
  cover : ∀ valuation, valuations valuation ↔ ∃ piece ∈ pieces, valuation ∈ piece

namespace Tiles

variable {clocks : Nat} {valuations others : Valuation → Prop} {pieces : List Zone}

theorem congr (htiles : Tiles pieces clocks valuations)
    (hsame : ∀ valuation, valuations valuation ↔ others valuation) :
    Tiles pieces clocks others :=
  { htiles with cover := fun valuation ↦ (hsame valuation).symm.trans (htiles.cover valuation) }

theorem nil (hnone : ∀ valuation, ¬ valuations valuation) : Tiles [] clocks valuations where
  clocks_eq := by simp
  canonical := by simp
  nonempty := by simp
  disjoint := List.Pairwise.nil
  cover := by simpa using hnone

/-- What an empty zone holds is tiled by nothing. -/
theorem nil_of_isBottom {zone : Zone} (hzone : zone.Denotes clocks valuations)
    (hbottom : zone.isBottom = true) : Tiles [] clocks valuations :=
  nil fun valuation hvaluation ↦ (Zone.isBottom_iff hzone.canonical).mp hbottom valuation
    ((hzone.mem_iff valuation).mpr hvaluation)

theorem singleton {zone : Zone} (hzone : zone.Denotes clocks valuations)
    (hbottom : zone.isBottom = false) : Tiles [zone] clocks valuations where
  clocks_eq := by simpa using hzone.clocks_eq
  canonical := by simpa using hzone.canonical
  nonempty := by simpa using hbottom
  disjoint := List.pairwise_singleton _ _
  cover valuation := by simpa using (hzone.mem_iff valuation).symm

theorem append {front back : List Zone} (hfront : Tiles front clocks valuations)
    (hback : Tiles back clocks others)
    (hdisjoint : ∀ valuation, valuations valuation → ¬ others valuation) :
    Tiles (front ++ back) clocks fun valuation ↦ valuations valuation ∨ others valuation where
  clocks_eq := List.forall_mem_append.mpr ⟨hfront.clocks_eq, hback.clocks_eq⟩
  canonical := List.forall_mem_append.mpr ⟨hfront.canonical, hback.canonical⟩
  nonempty := List.forall_mem_append.mpr ⟨hfront.nonempty, hback.nonempty⟩
  disjoint := by
    refine List.pairwise_append.mpr ⟨hfront.disjoint, hback.disjoint, ?_⟩
    intro first hfirst second hsecond valuation hmem hother
    exact hdisjoint valuation ((hfront.cover valuation).mpr ⟨first, hfirst, hmem⟩)
      ((hback.cover valuation).mpr ⟨second, hsecond, hother⟩)
  cover valuation := by
    rw [hfront.cover, hback.cover]
    simp only [List.mem_append, or_and_right, exists_or]

/-- The pieces after the first tile what the first one leaves. -/
theorem tail {piece : Zone} {rest : List Zone} (htiles : Tiles (piece :: rest) clocks valuations) :
    Tiles rest clocks fun valuation ↦ valuations valuation ∧ valuation ∉ piece where
  clocks_eq := fun other hother ↦ htiles.clocks_eq other (List.mem_cons_of_mem _ hother)
  canonical := fun other hother ↦ htiles.canonical other (List.mem_cons_of_mem _ hother)
  nonempty := fun other hother ↦ htiles.nonempty other (List.mem_cons_of_mem _ hother)
  disjoint := (List.pairwise_cons.mp htiles.disjoint).2
  cover valuation := by
    rw [htiles.cover]
    constructor
    · rintro ⟨⟨other, hother, hmem⟩, hpiece⟩
      rcases List.mem_cons.mp hother with rfl | hother
      · exact absurd hmem hpiece
      · exact ⟨other, hother, hmem⟩
    · rintro ⟨other, hother, hmem⟩
      refine ⟨⟨other, List.mem_cons_of_mem _ hother, hmem⟩, fun hpiece ↦ ?_⟩
      exact (List.pairwise_cons.mp htiles.disjoint).1 other hother valuation hpiece hmem

theorem perm {arranged : List Zone} (htiles : Tiles pieces clocks valuations)
    (hperm : pieces.Perm arranged) : Tiles arranged clocks valuations where
  clocks_eq := fun piece hpiece ↦ htiles.clocks_eq piece (hperm.mem_iff.mpr hpiece)
  canonical := fun piece hpiece ↦ htiles.canonical piece (hperm.mem_iff.mpr hpiece)
  nonempty := fun piece hpiece ↦ htiles.nonempty piece (hperm.mem_iff.mpr hpiece)
  disjoint := by
    refine (hperm.pairwise_iff ?_).mp htiles.disjoint
    intro first second hdisjoint valuation hsecond hfirst
    exact hdisjoint valuation hfirst hsecond
  cover valuation := by simp only [htiles.cover, hperm.mem_iff]

/-- Without one piece, the others tile the rest. -/
theorem remove {front back : List Zone} {piece : Zone}
    (htiles : Tiles (front ++ piece :: back) clocks valuations) :
    Tiles (front ++ back) clocks fun valuation ↦ valuations valuation ∧ valuation ∉ piece :=
  (htiles.perm List.perm_middle).tail

/-- Tiling every piece of a tiling gives a tiling. -/
theorem flatten {parts : List (List Zone)} (htiles : Tiles pieces clocks valuations)
    (hparts : List.Forall₂ (fun piece part ↦ Tiles part clocks (· ∈ piece)) pieces parts) :
    Tiles parts.flatten clocks valuations := by
  induction hparts generalizing valuations with
  | nil =>
    refine nil fun valuation hvaluation ↦ ?_
    obtain ⟨piece, hpiece, -⟩ := (htiles.cover valuation).mp hvaluation
    exact absurd hpiece (List.not_mem_nil)
  | @cons piece part rest parts hpart _ ih =>
    refine (hpart.append (ih htiles.tail) fun valuation hmem hrest ↦ hrest.2 hmem).congr
      fun valuation ↦ ?_
    have hpiece : valuation ∈ piece → valuations valuation := fun hmem ↦
      (htiles.cover valuation).mpr ⟨piece, List.mem_cons_self, hmem⟩
    by_cases hmem : valuation ∈ piece
    · simp [hmem, hpiece hmem]
    · simp [hmem]

theorem subset (htiles : Tiles pieces clocks valuations) {piece : Zone} (hpiece : piece ∈ pieces)
    {valuation : Valuation} (hmem : valuation ∈ piece) : valuations valuation :=
  (htiles.cover valuation).mpr ⟨piece, hpiece, hmem⟩

theorem denotes (htiles : Tiles pieces clocks valuations) {piece : Zone} (hpiece : piece ∈ pieces) :
    piece.Denotes clocks (· ∈ piece) :=
  ⟨htiles.clocks_eq piece hpiece, htiles.canonical piece hpiece, fun _ ↦ Iff.rfl⟩

theorem exists_mem (htiles : Tiles pieces clocks valuations) {piece : Zone}
    (hpiece : piece ∈ pieces) : ∃ valuation, valuation ∈ piece :=
  (Zone.exists_mem_iff (htiles.canonical piece hpiece)).mp (htiles.nonempty piece hpiece)

end Tiles

/-! ### Atoms and their complements -/

theorem Comparison.test_complement {comparison opposite : Comparison}
    (hcomplement : comparison.complement = some opposite) (left right : Rat) :
    opposite.test left right = true ↔ comparison.test left right ≠ true := by
  cases comparison <;> simp only [complement, Option.some.injEq, reduceCtorEq] at hcomplement <;>
    subst hcomplement <;> simp [test]

namespace Constraint

variable {clocks : Nat} {atom opposite : Constraint} {valuation : Valuation}

/-- Of a constraint and its complement, just one is true. -/
theorem holds_complement_iff (hatom : atom.Within clocks)
    (hcomplement : atom.complement = some opposite) (hclocks : valuation.clocks = clocks) :
    opposite.holds valuation = .ok true ↔ atom.holds valuation ≠ .ok true := by
  cases atom with
  | always => simp [complement] at hcomplement
  | never => simp [complement] at hcomplement
  | compare left right comparison bound =>
    obtain ⟨other, hother, rfl⟩ := Option.map_eq_some_iff.mp hcomplement
    have hleft : left.id < clocks + 1 :=
      Nat.lt_succ_of_le (hatom left (by cases right <;> simp [Constraint.clocks]))
    cases right with
    | none =>
      rw [holds_unit_iff (i := ⟨left.id, hleft⟩) hclocks rfl, ne_eq,
        holds_unit_iff (i := ⟨left.id, hleft⟩) hclocks rfl]
      exact Comparison.test_complement hother _ _
    | some right =>
      have hright : right.id < clocks + 1 :=
        Nat.lt_succ_of_le (hatom right (by simp [Constraint.clocks]))
      rw [holds_difference_iff (i := ⟨left.id, hleft⟩) (j := ⟨right.id, hright⟩) hclocks rfl rfl,
        ne_eq, holds_difference_iff (i := ⟨left.id, hleft⟩) (j := ⟨right.id, hright⟩) hclocks
          rfl rfl]
      exact Comparison.test_complement hother _ _

theorem clocks_complement (hcomplement : atom.complement = some opposite) :
    opposite.clocks = atom.clocks := by
  cases atom with
  | always => simp [complement] at hcomplement
  | never => simp [complement] at hcomplement
  | compare left right comparison bound =>
    obtain ⟨other, -, rfl⟩ := Option.map_eq_some_iff.mp hcomplement
    cases right <;> rfl

/-- The constraint is true in all of the zone or nowhere in it. -/
def Uniform (constraint : Constraint) (zone : Zone) : Prop :=
  (∀ valuation ∈ zone, constraint.holds valuation = .ok true) ∨
    ∀ valuation ∈ zone, constraint.holds valuation ≠ .ok true

theorem Uniform.mono {constraint : Constraint} {zone part : Zone}
    (huniform : constraint.Uniform zone) (hpart : ∀ valuation ∈ part, valuation ∈ zone) :
    constraint.Uniform part :=
  huniform.imp (fun hall valuation hmem ↦ hall valuation (hpart valuation hmem))
    fun hnone valuation hmem ↦ hnone valuation (hpart valuation hmem)

/-- Of the given valuations, the part holds all that agree with one of its own on the constraint. -/
def Gathers (constraint : Constraint) (valuations : Valuation → Prop) (part : Zone) : Prop :=
  ∀ inside ∈ part, ∀ other, valuations other →
    (constraint.holds other = .ok true ↔ constraint.holds inside = .ok true) → other ∈ part

end Constraint

theorem Draft.restrict_within {clocks : Nat} (draft : Draft clocks) (constraint : Constraint) :
    Yields (fun _ ↦ True) (draft.restrict constraint) fun _ ↦ constraint.Within clocks := by
  unfold Draft.restrict
  cases constraint with
  | always => simp [Constraint.Within, Constraint.clocks]
  | never => simp [Constraint.Within, Constraint.clocks]
  | compare left right comparison bound =>
    cases right with
    | none =>
      refine (Valuation.indexOf_yields fun _ ↦ trivial).bind fun i hi ↦ ?_
      refine Yields.of_forall fun _ _ ↦ ?_
      simp only [Constraint.Within, Constraint.clocks, List.forall_mem_singleton, ← hi]
      exact Nat.le_of_lt_succ i.isLt
    | some right =>
      refine (Valuation.indexOf_yields fun _ ↦ trivial).bind fun i hi ↦ ?_
      refine (Valuation.indexOf_yields fun _ ↦ trivial).bind fun j hj ↦ ?_
      refine Yields.of_forall fun _ _ ↦ ?_
      simp only [Constraint.Within, Constraint.clocks, List.forall_mem_cons, ← hi, ← hj]
      exact ⟨Nat.le_of_lt_succ i.isLt, Nat.le_of_lt_succ j.isLt, by simp⟩

/-- A restriction that succeeds is by a constraint over clocks of the zone. -/
theorem Zone.within_of_restrict {zone restricted : Zone} {constraint : Constraint}
    (hrestrict : zone.restrict constraint = .ok restricted) : constraint.Within zone.clocks := by
  have hyields : Yields (fun _ ↦ True) (zone.restrict constraint)
      fun _ ↦ constraint.Within zone.clocks :=
    (Draft.restrict_within zone.draft constraint).bind fun _ hwithin ↦
      Yields.of_forall fun _ _ ↦ hwithin
  exact hyields.result hrestrict

/-! ### Cutting -/

namespace Zone

variable {may : Fault → Prop} {clocks : Nat} {valuations : Valuation → Prop}

/-- The parts tile what was cut. The atom is uniform on every part, and alone decides between
them. -/
structure CutBy (atom : Constraint) (clocks : Nat) (valuations : Valuation → Prop)
    (parts : List Zone) : Prop where
  tiles : Tiles parts clocks valuations
  within : atom.Within clocks
  uniform : ∀ part ∈ parts, atom.Uniform part
  gathers : ∀ part ∈ parts, atom.Gathers valuations part

theorem cut_yields (hmay : Tolerant may) {piece : Zone} (hpiece : piece.Denotes clocks valuations)
    (hbottom : piece.isBottom = false) {atom opposite : Constraint}
    (hatom : atom.Tolerated may clocks) (hcomplement : atom.complement = some opposite) :
    Yields may (cut atom opposite piece) (CutBy atom clocks valuations) := by
  have hopposite : opposite.Tolerated may clocks := by
    rwa [Constraint.Tolerated, Constraint.clocks_complement hcomplement]
  unfold cut
  refine (restrict_yields hmay hpiece hatom).bind_eq fun inside hrestrict hinside ↦ ?_
  refine (restrict_yields hmay hpiece hopposite).bind fun outside houtside ↦ ?_
  have hwithin : atom.Within clocks := hpiece.clocks_eq ▸ within_of_restrict hrestrict
  have hsides : ∀ valuation, valuations valuation →
      (opposite.holds valuation = .ok true ↔ atom.holds valuation ≠ .ok true) := by
    intro valuation hvaluation
    have hmem := (hpiece.mem_iff valuation).mpr hvaluation
    exact Constraint.holds_complement_iff hwithin hcomplement
      ((clocks_of_mem hmem).trans hpiece.clocks_eq)
  have hin : ∀ valuation ∈ inside, atom.holds valuation = .ok true := fun valuation hmem ↦
    ((hinside.mem_iff valuation).mp hmem).2
  have hout : ∀ valuation ∈ outside, atom.holds valuation ≠ .ok true := by
    intro valuation hmem
    obtain ⟨hvaluation, hholds⟩ := (houtside.mem_iff valuation).mp hmem
    exact (hsides valuation hvaluation).mp hholds
  have hgathersIn : atom.Gathers valuations inside := fun member hmem other hother hagree ↦
    (hinside.mem_iff other).mpr ⟨hother, hagree.mpr (hin member hmem)⟩
  have hgathersOut : atom.Gathers valuations outside := by
    intro member hmem other hother hagree
    refine (houtside.mem_iff other).mpr ⟨hother, (hsides other hother).mpr fun hholds ↦ ?_⟩
    exact hout member hmem (hagree.mp hholds)
  have hparts : ∀ parts : List Zone, Tiles parts clocks (fun valuation ↦
      (valuations valuation ∧ atom.holds valuation = .ok true) ∨
        (valuations valuation ∧ opposite.holds valuation = .ok true)) →
      parts ⊆ [inside, outside] → CutBy atom clocks valuations parts := by
    intro parts htiles hsubset
    refine ⟨htiles.congr fun valuation ↦ ?_, hwithin, fun part hpart ↦ ?_, fun part hpart ↦ ?_⟩
    · rw [← and_or_left, and_iff_left_iff_imp]
      intro hvaluation
      rw [hsides valuation hvaluation]
      exact em _
    · rcases List.mem_pair.mp (hsubset hpart) with rfl | rfl
      · exact Or.inl hin
      · exact Or.inr hout
    · rcases List.mem_pair.mp (hsubset hpart) with rfl | rfl
      · exact hgathersIn
      · exact hgathersOut
  have hdisjoint : ∀ valuation, valuations valuation ∧ atom.holds valuation = .ok true →
      ¬ (valuations valuation ∧ opposite.holds valuation = .ok true) := by
    rintro valuation ⟨hvaluation, hholds⟩ ⟨-, hother⟩
    exact (hsides valuation hvaluation).mp hother hholds
  -- A side that is bottom adds nothing to the other.
  cases hinBottom : inside.isBottom <;> cases houtBottom : outside.isBottom
  · exact hparts _ ((Tiles.singleton hinside hinBottom).append (.singleton houtside houtBottom)
      hdisjoint) (by simp)
  · exact hparts _ ((Tiles.singleton hinside hinBottom).append
      (.nil_of_isBottom houtside houtBottom) hdisjoint) (by simp)
  · exact hparts _ ((Tiles.nil_of_isBottom hinside hinBottom).append
      (.singleton houtside houtBottom) hdisjoint) (by simp)
  · have hnone := hparts _ ((Tiles.nil_of_isBottom hinside hinBottom).append
      (.nil_of_isBottom houtside houtBottom) hdisjoint) (by simp)
    obtain ⟨valuation, hmem⟩ := (exists_mem_iff hpiece.canonical).mp hbottom
    obtain ⟨part, hpart, -⟩ := (hnone.tiles.cover valuation).mp
      ((hpiece.mem_iff valuation).mp hmem)
    exact absurd hpart List.not_mem_nil

/-- The atoms that may cut are uniform on every piece. -/
def UniformOn (atoms : List Constraint) (pieces : List Zone) : Prop :=
  ∀ atom ∈ atoms, atom.isAtom = true → ∀ piece ∈ pieces, atom.Uniform piece

/-- Every part lies in a piece. -/
def Refines (parts pieces : List Zone) : Prop :=
  ∀ part ∈ parts, ∃ piece ∈ pieces, ∀ valuation ∈ part, valuation ∈ piece

theorem UniformOn.refines {atoms : List Constraint} {parts pieces : List Zone}
    (huniform : UniformOn atoms pieces) (hrefines : Refines parts pieces) :
    UniformOn atoms parts := by
  intro atom hatom hisAtom part hpart
  obtain ⟨piece, hpiece, hsubset⟩ := hrefines part hpart
  exact (huniform atom hatom hisAtom piece hpiece).mono hsubset

theorem isAtom_complement {atom : Constraint} (hatom : atom.isAtom = true) :
    atom.complement ≠ none := by
  cases atom with
  | compare left right comparison bound =>
    cases comparison <;> simp_all [Constraint.isAtom, Constraint.complement, Comparison.complement]
  | _ => simp [Constraint.isAtom] at hatom

end Zone

/-! ### What determines the pieces -/

/-- No atom tells the valuations apart. -/
def AgreeOn (atoms : List Constraint) (first second : Valuation) : Prop :=
  ∀ atom ∈ atoms, atom.isAtom = true →
    (atom.holds first = .ok true ↔ atom.holds second = .ok true)

theorem AgreeOn.subset {atoms fewer : List Constraint} {first second : Valuation}
    (hagree : AgreeOn atoms first second) (hsubset : fewer ⊆ atoms) : AgreeOn fewer first second :=
  fun atom hatom ↦ hagree atom (hsubset hatom)

/-- Atoms that are uniform on a zone tell no two of its valuations apart. -/
theorem Zone.UniformOn.agreeOn {atoms : List Constraint} {pieces : List Zone}
    (huniform : UniformOn atoms pieces) {piece : Zone} (hpiece : piece ∈ pieces)
    {first second : Valuation} (hfirst : first ∈ piece) (hsecond : second ∈ piece) :
    AgreeOn atoms first second := by
  intro atom hatom hisAtom
  rcases huniform atom hatom hisAtom piece hpiece with hall | hnone
  · exact iff_of_true (hall first hfirst) (hall second hsecond)
  · exact iff_of_false (hnone first hfirst) (hnone second hsecond)

/-- Within the given valuations, the zone holds all on which the atoms agree with one of its own. -/
def Zone.Determined (zone : Zone) (atoms : List Constraint) (valuations : Valuation → Prop) :
    Prop :=
  ∀ inside ∈ zone, ∀ other, valuations other → AgreeOn atoms inside other → other ∈ zone

theorem Zone.Determined.subset {zone : Zone} {atoms more : List Constraint}
    {valuations : Valuation → Prop} (hzone : zone.Determined atoms valuations)
    (hsubset : atoms ⊆ more) : zone.Determined more valuations :=
  fun inside hinside other hother hagree ↦ hzone inside hinside other hother (hagree.subset hsubset)

/-- A part of a zone is determined by the atoms of both. -/
theorem Zone.Determined.part {zone part : Zone} {atoms used more : List Constraint}
    {valuations : Valuation → Prop} (hzone : zone.Determined atoms valuations)
    (hpart : part.Determined used (· ∈ zone)) (hinside : ∀ valuation ∈ part, valuation ∈ zone)
    (hatoms : atoms ⊆ more) (hused : used ⊆ more) : part.Determined more valuations := by
  intro inside hmem other hother hagree
  have hsame := hzone inside (hinside inside hmem) other hother (hagree.subset hatoms)
  exact hpart inside hmem other hsame (hagree.subset hused)

/-- The partition of some valuations by atoms: the pieces tile them, every atom is uniform on every
piece, and those that are recorded as used determine the pieces. -/
structure Partition.By (partition : Partition) (clocks : Nat) (valuations : Valuation → Prop)
    (atoms : List Constraint) : Prop where
  tiles : Tiles partition.pieces clocks valuations
  uniform : Zone.UniformOn atoms partition.pieces
  used : ∀ atom ∈ partition.used, atom ∈ atoms ∧ atom.isAtom = true
  within : (∃ valuation, valuations valuation) → ∀ atom ∈ atoms, atom.isAtom = true →
    atom.Within clocks
  determined : ∀ piece ∈ partition.pieces, piece.Determined partition.used valuations

/-- Cutting every piece partitions by one more atom, which is used if some piece was cut. -/
theorem Partition.By.cut {partition : Partition} {clocks : Nat} {valuations : Valuation → Prop}
    {done : List Constraint} (hby : partition.By clocks valuations done) {atom : Constraint}
    (hisAtom : atom.isAtom = true) {parts : List (List Zone)}
    (hparts : List.Forall₂ (fun piece ↦ Zone.CutBy atom clocks (· ∈ piece)) partition.pieces
      parts) :
    Partition.By ⟨parts.flatten, if parts.any (1 < ·.length) then partition.used ++ [atom]
      else partition.used⟩ clocks valuations (done ++ [atom]) := by
  have horigin : ∀ part ∈ parts.flatten, ∃ group ∈ parts, part ∈ group ∧
      ∃ piece ∈ partition.pieces, Zone.CutBy atom clocks (· ∈ piece) group := by
    intro part hpart
    obtain ⟨group, hgroup, hpart⟩ := List.mem_flatten.mp hpart
    exact ⟨group, hgroup, hpart, Yields.exists_related hparts hgroup⟩
  constructor
  case tiles => exact hby.tiles.flatten (hparts.imp fun _ _ hcut ↦ hcut.tiles)
  case uniform =>
    refine List.forall_mem_append.mpr ⟨hby.uniform.refines fun part hpart ↦ ?_,
      List.forall_mem_singleton.mpr fun _ part hpart ↦ ?_⟩
    · obtain ⟨group, -, hpart, piece, hpiece, hcut⟩ := horigin part hpart
      exact ⟨piece, hpiece, fun valuation hmem ↦ hcut.tiles.subset hpart hmem⟩
    · obtain ⟨group, -, hpart, piece, -, hcut⟩ := horigin part hpart
      exact hcut.uniform part hpart
  case used =>
    have hbefore : ∀ other ∈ partition.used, other ∈ done ++ [atom] ∧ other.isAtom = true :=
      fun other hother ↦ (hby.used other hother).imp_left (List.mem_append_left _)
    dsimp only
    split_ifs
    · refine List.forall_mem_append.mpr ⟨hbefore, List.forall_mem_singleton.mpr ⟨?_, hisAtom⟩⟩
      exact List.mem_append_right _ List.mem_cons_self
    · exact hbefore
  case within =>
    intro hsome
    refine List.forall_mem_append.mpr ⟨hby.within hsome, List.forall_mem_singleton.mpr fun _ ↦ ?_⟩
    obtain ⟨valuation, hvaluation⟩ := hsome
    obtain ⟨piece, hpiece, -⟩ := (hby.tiles.cover valuation).mp hvaluation
    obtain ⟨_, -, hcut⟩ := Yields.exists_related hparts.flip hpiece
    exact hcut.within
  case determined =>
    intro part hpart inside hinside other hother hagree
    obtain ⟨group, hgroup, hpart, piece, hpiece, hcut⟩ := horigin part hpart
    have hsame := hby.determined piece hpiece inside (hcut.tiles.subset hpart hinside) other hother
    dsimp only at hagree
    split_ifs at hagree with hseveral
    · have hmem := hsame (hagree.subset (List.subset_append_left _ _))
      exact hcut.gathers part hpart inside hinside other hmem (hagree atom (by simp) hisAtom).symm
    · -- No piece was cut, so this part is all of its piece.
      have hshort : group.length ≤ 1 := by
        by_contra hlong
        exact hseveral (List.any_eq_true.mpr ⟨group, hgroup, by simpa using hlong⟩)
      obtain ⟨only, rfl⟩ := List.length_eq_one_iff.mp
        (le_antisymm hshort (List.length_pos_of_mem hpart))
      obtain ⟨found, hfound, hmem⟩ := (hcut.tiles.cover other).mp (hsame hagree)
      rwa [List.mem_singleton.mp hfound, ← List.mem_singleton.mp hpart] at hmem

namespace Zone

variable {may : Fault → Prop} {clocks : Nat} {valuations : Valuation → Prop}

/-- Cutting by an atom gives the parts of every piece, and records the atom if some piece has several
of them. -/
theorem cutAll_parts (hmay : Tolerant may) {partition : Partition}
    (htiles : Tiles partition.pieces clocks valuations) {atom : Constraint}
    (hisAtom : atom.isAtom = true)
    (hatom : (∃ valuation, valuations valuation) → atom.Tolerated may clocks) :
    Yields may (cutAll partition atom) fun next ↦ ∃ parts,
      List.Forall₂ (fun piece ↦ CutBy atom clocks (· ∈ piece)) partition.pieces parts ∧
      next = ⟨parts.flatten, if parts.any (1 < ·.length) then partition.used ++ [atom]
        else partition.used⟩ := by
  unfold cutAll
  rw [if_pos hisAtom]
  cases hcomplement : atom.complement with
  | none => exact absurd hcomplement (isAtom_complement hisAtom)
  | some opposite =>
    have hcut : Yields may (partition.pieces.mapM (cut atom opposite))
        (List.Forall₂ (fun piece ↦ CutBy atom clocks (· ∈ piece)) partition.pieces) := by
      refine Yields.mapM fun piece hpiece ↦ ?_
      obtain ⟨valuation, hmem⟩ := htiles.exists_mem hpiece
      exact cut_yields hmay (htiles.denotes hpiece) (htiles.nonempty piece hpiece)
        (hatom ⟨valuation, htiles.subset hpiece hmem⟩) hcomplement
    exact hcut.bind fun parts hparts ↦ ⟨parts, hparts, rfl⟩

theorem cutAll_yields (hmay : Tolerant may) {partition : Partition} {done : List Constraint}
    (hby : partition.By clocks valuations done) {atom : Constraint}
    (hatom : (∃ valuation, valuations valuation) → atom.isAtom = true →
      atom.Tolerated may clocks) :
    Yields may (cutAll partition atom) (·.By clocks valuations (done ++ [atom])) := by
  by_cases hisAtom : atom.isAtom = true
  · refine (cutAll_parts hmay hby.tiles hisAtom fun hsome ↦ hatom hsome hisAtom).mono ?_
    rintro _ ⟨parts, hparts, rfl⟩
    exact hby.cut hisAtom hparts
  · rw [cutAll, if_neg hisAtom]
    refine ⟨hby.tiles, ?_, fun other hother ↦ ?_, fun hsome ↦ ?_, hby.determined⟩
    · exact List.forall_mem_append.mpr ⟨hby.uniform, by simp [hisAtom]⟩
    · exact (hby.used other hother).imp_left (List.mem_append_left _)
    · exact List.forall_mem_append.mpr ⟨hby.within hsome, by simp [hisAtom]⟩

/-- The cells into which atoms cut a zone. Only clocks that are out of range, of atoms that do cut,
are refused. -/
theorem partitionBy_exact (hmay : Tolerant may) {zone : Zone}
    (hzone : zone.Denotes clocks valuations) {atoms : List Constraint}
    (hatoms : (∃ valuation, valuations valuation) → ∀ atom ∈ atoms, atom.isAtom = true →
      atom.Tolerated may clocks) :
    Yields may (zone.partitionBy atoms) (·.By clocks valuations atoms) := by
  unfold partitionBy
  by_cases hbottom : zone.isBottom = true
  · rw [if_pos hbottom]
    have hnone : ∀ valuation, ¬ valuations valuation := fun valuation hvaluation ↦
      (isBottom_iff hzone.canonical).mp hbottom valuation ((hzone.mem_iff valuation).mpr hvaluation)
    exact ⟨Tiles.nil hnone, by simp [UniformOn], by simp, fun hsome ↦ absurd hsome (by simpa),
      by simp⟩
  · rw [if_neg hbottom]
    refine Yields.foldlM (fun done (current : Partition) ↦ current.By clocks valuations done) ?_ ?_
    · refine ⟨Tiles.singleton hzone (Bool.not_eq_true _ ▸ hbottom), by simp [UniformOn], by simp,
        by simp, List.forall_mem_singleton.mpr fun inside _ other hother _ ↦ ?_⟩
      exact (hzone.mem_iff other).mpr hother
    · intro done next rest helements current hcurrent
      exact cutAll_yields hmay hcurrent fun hsome ↦ hatoms hsome next (by simp [helements])

/-- The cells tile the zone, and every atom is uniform on every cell. -/
theorem partitionBy_yields (hmay : Tolerant may) {zone : Zone}
    (hzone : zone.Denotes clocks valuations) {atoms : List Constraint}
    (hatoms : ∀ atom ∈ atoms, atom.Tolerated may clocks) :
    Yields may (zone.partitionBy atoms) fun partition ↦
      Tiles partition.pieces clocks valuations ∧ UniformOn atoms partition.pieces :=
  (partitionBy_exact hmay hzone fun _ atom hatom _ ↦ hatoms atom hatom).mono
    fun _ hby ↦ ⟨hby.tiles, hby.uniform⟩

end Zone

end TimedSafety
