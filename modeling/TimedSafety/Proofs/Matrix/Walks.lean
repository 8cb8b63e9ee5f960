import Mathlib.Data.Fintype.Card
import TimedSafety.Proofs.Matrix.Limits

/-!
Closure as a search for shortest walks. A walk leads from one index to another over any others, and
its length is the sum of the cells on it. Where no walk from an index back to itself is negative,
walks can be cut at an index they meet twice, so every walk is at least as long as a simple one
(`exists_simple_walk`).

Treating the pivots one after the other then gives, in every cell, the length of a shortest walk
over the pivots treated so far (`ShortestThrough`). A shortest walk is as long as a simple one,
which has no more steps than there are indices. So no sum that closure takes overflows where the
lengths of two simple walks fit a word together (`close_shortest`).
-/

set_option autoImplicit false

namespace TimedSafety.BoundMatrix

variable {clocks : Nat} {matrix current after : BoundMatrix clocks} {limit : Int}

/-! ### Walks -/

/-- The length of the walk from `i` over the given indices to `j`. -/
def walk (matrix : BoundMatrix clocks) (i : Index clocks) :
    List (Index clocks) → Index clocks → Bound
  | [], j => matrix.cell i j
  | k :: via, j => (matrix.cell i k).sum (matrix.walk k via j)

@[simp] theorem walk_nil (matrix : BoundMatrix clocks) (i j : Index clocks) :
    matrix.walk i [] j = matrix.cell i j := rfl

@[simp] theorem walk_cons (matrix : BoundMatrix clocks) (i k j : Index clocks)
    (via : List (Index clocks)) :
    matrix.walk i (k :: via) j = (matrix.cell i k).sum (matrix.walk k via j) := rfl

/-- A walk over an index is a walk to it and one from there. -/
theorem walk_append (matrix : BoundMatrix clocks) (i k j : Index clocks)
    (first second : List (Index clocks)) : matrix.walk i (first ++ k :: second) j =
      (matrix.walk i first k).sum (matrix.walk k second j) := by
  induction first generalizing i with
  | nil => rfl
  | cons head tail ih => rw [List.cons_append, walk_cons, walk_cons, ih, Bound.sum_assoc]

/-- The difference of two indices of a point is at most the length of any walk between them. -/
theorem Admits.walk {point : Index clocks → Rat} (hadmits : matrix.Admits point)
    (i : Index clocks) (via : List (Index clocks)) (j : Index clocks) :
    (matrix.walk i via j).Admits (point i - point j) := by
  induction via generalizing i with
  | nil => exact hadmits i j
  | cons k via ih =>
    have hsum := (hadmits i k).sum (ih k)
    rwa [sub_add_sub_cancel] at hsum

theorem Limited.walk (hlimited : matrix.Limited limit) (i : Index clocks)
    (via : List (Index clocks)) (j : Index clocks) :
    (matrix.walk i via j).Limited ((via.length + 1 : Nat) * limit) := by
  induction via generalizing i with
  | nil => simpa using hlimited i j
  | cons k via ih =>
    refine ((hlimited i k).sum (ih k)).mono (le_of_eq ?_)
    push_cast [List.length_cons]
    ring

theorem walk_le_walk (hle : ∀ i j, after.cell i j ≤ matrix.cell i j) (i : Index clocks)
    (via : List (Index clocks)) (j : Index clocks) : after.walk i via j ≤ matrix.walk i via j := by
  induction via generalizing i with
  | nil => exact hle i j
  | cons k via ih => exact Bound.sum_le_sum (hle i k) (ih k)

/-- A cell is at most the length of a walk over indices through which the triangle inequality
holds. -/
theorem TriangleThrough.cell_le_walk {pivots : List (Index clocks)}
    (htriangle : matrix.TriangleThrough pivots) (i : Index clocks) {via : List (Index clocks)}
    (hvia : via ⊆ pivots) (j : Index clocks) : matrix.cell i j ≤ matrix.walk i via j := by
  induction via generalizing i with
  | nil => exact Bound.le_refl _
  | cons k via ih =>
    rw [List.cons_subset] at hvia
    calc matrix.cell i j ≤ (matrix.cell i k).sum (matrix.cell k j) := htriangle k hvia.1 i j
      _ ≤ (matrix.cell i k).sum (matrix.walk k via j) := Bound.sum_le_sum_left _ (ih k hvia.2)

/-! ### Simple walks -/

/-- No walk from an index back to itself is negative. -/
def NoNegativeCycle (matrix : BoundMatrix clocks) : Prop :=
  ∀ k cycle, Bound.zero ≤ matrix.walk k cycle k

/-- A matrix with a point has no negative cycle. -/
theorem Admits.noNegativeCycle {point : Index clocks → Rat} (hadmits : matrix.Admits point) :
    matrix.NoNegativeCycle := by
  intro k cycle
  have hzero := hadmits.walk k cycle k
  rwa [sub_self, Bound.admits_zero_iff] at hzero

/-- Without negative cycles, a walk is at least as long as one over some of its indices that meets
no index twice. -/
theorem exists_simple_walk (hcycle : matrix.NoNegativeCycle) (i : Index clocks)
    (via : List (Index clocks)) (j : Index clocks) : ∃ simple, (i :: simple).Nodup ∧
      simple ⊆ via ∧ matrix.walk i simple j ≤ matrix.walk i via j := by
  induction via generalizing i with
  | nil => exact ⟨[], List.nodup_singleton i, List.Subset.refl _, Bound.le_refl _⟩
  | cons k via ih =>
    obtain ⟨simple, hnodup, hsubset, hle⟩ := ih k
    have hlonger : matrix.walk i (k :: simple) j ≤ matrix.walk i (k :: via) j :=
      Bound.sum_le_sum_left _ hle
    have hkept : k :: simple ⊆ k :: via := List.cons_subset_cons k hsubset
    by_cases hmeets : i ∈ k :: simple
    · -- The walk comes back to where it started; what leads there is left out.
      obtain ⟨loop, rest, hsplit⟩ := List.append_of_mem hmeets
      rw [hsplit] at hnodup hkept hlonger
      refine ⟨rest, hnodup.of_append_right, fun _ hmem ↦ hkept (by simp [hmem]), ?_⟩
      calc matrix.walk i rest j = Bound.zero.sum (matrix.walk i rest j) := (Bound.zero_sum _).symm
        _ ≤ (matrix.walk i loop i).sum (matrix.walk i rest j) :=
          Bound.sum_le_sum_right (hcycle i loop) _
        _ = matrix.walk i (loop ++ i :: rest) j := (walk_append _ _ _ _ _ _).symm
        _ ≤ matrix.walk i (k :: via) j := hlonger
    · exact ⟨k :: simple, List.nodup_cons.mpr ⟨hmeets, hnodup⟩, hkept, hlonger⟩

/-- A walk that meets no index twice has no more steps than there are indices. -/
theorem length_le_of_simple {i : Index clocks} {simple : List (Index clocks)}
    (hnodup : (i :: simple).Nodup) : simple.length + 1 ≤ clocks + 1 := by
  simpa using hnodup.length_le_card

/-! ### Shortest walks -/

/-- The cells of the second matrix are the lengths of shortest walks in the first, over the given
indices. -/
structure ShortestThrough (matrix : BoundMatrix clocks) (pivots : List (Index clocks))
    (current : BoundMatrix clocks) : Prop where
  attained : ∀ i j, ∃ via ⊆ pivots, current.cell i j = matrix.walk i via j
  shortest : ∀ i j, ∀ via ⊆ pivots, current.cell i j ≤ matrix.walk i via j

theorem ShortestThrough.start (matrix : BoundMatrix clocks) :
    ShortestThrough matrix [] matrix := by
  refine ⟨fun i j ↦ ⟨[], List.Subset.refl _, rfl⟩, fun i j via hvia ↦ ?_⟩
  rw [List.subset_nil.mp hvia]
  exact Bound.le_refl _

variable {pivots : List (Index clocks)}

/-- Shortest walks are no shorter than simple ones, so they are as limited as these. -/
theorem ShortestThrough.limited (hshortest : ShortestThrough matrix pivots current)
    (hcycle : matrix.NoNegativeCycle) (hlimited : matrix.Limited limit) (hlimit : 0 ≤ limit) :
    current.Limited ((clocks + 1 : Nat) * limit) := by
  intro i j
  obtain ⟨via, hvia, hcell⟩ := hshortest.attained i j
  obtain ⟨simple, hnodup, hsubset, hle⟩ := exists_simple_walk hcycle i via j
  have hwalk : current.cell i j = matrix.walk i simple j := by
    refine Bound.le_antisymm (hshortest.shortest i j simple (List.Subset.trans hsubset hvia)) ?_
    rwa [hcell]
  rw [hwalk]
  refine (hlimited.walk i simple j).mono ?_
  have hlength := length_le_of_simple hnodup
  gcongr

/-- The diagonal stays `≤ 0` where no cycle is negative. -/
theorem ShortestThrough.diagonal (hshortest : ShortestThrough matrix pivots current)
    (hcycle : matrix.NoNegativeCycle) (hdiagonal : ∀ i, matrix.cell i i = Bound.zero)
    (i : Index clocks) : current.cell i i = Bound.zero := by
  obtain ⟨via, -, hcell⟩ := hshortest.attained i i
  refine Bound.le_antisymm ?_ ?_
  · rw [← hdiagonal i]
    exact hshortest.shortest i i [] (List.nil_subset _)
  · rw [hcell]
    exact hcycle i via

theorem ShortestThrough.triangle (hshortest : ShortestThrough matrix pivots current) :
    current.TriangleThrough pivots := by
  intro k hk i j
  obtain ⟨first, hfirst, hleft⟩ := hshortest.attained i k
  obtain ⟨second, hsecond, hright⟩ := hshortest.attained k j
  rw [hleft, hright, ← walk_append]
  refine hshortest.shortest i j _ ?_
  exact List.append_subset.mpr ⟨hfirst, List.cons_subset.mpr ⟨hk, hsecond⟩⟩

/-- Treating one more pivot gives the shortest walks that may also go over it. -/
theorem ShortestThrough.pivot {pivot : Index clocks}
    (hshortest : ShortestThrough matrix pivots current)
    (hpivot : current.cell pivot pivot = Bound.zero)
    (hcells : ∀ i j, after.cell i j =
      min ((current.cell i pivot).sum (current.cell pivot j)) (current.cell i j)) :
    ShortestThrough matrix (pivots ++ [pivot]) after := by
  have hmore : pivots ⊆ pivots ++ [pivot] := List.subset_append_left _ _
  constructor
  · intro i j
    rw [hcells]
    rcases min_choice ((current.cell i pivot).sum (current.cell pivot j)) (current.cell i j)
      with hmin | hmin
    · obtain ⟨first, hfirst, hleft⟩ := hshortest.attained i pivot
      obtain ⟨second, hsecond, hright⟩ := hshortest.attained pivot j
      refine ⟨first ++ pivot :: second, ?_, by rw [hmin, hleft, hright, walk_append]⟩
      refine List.append_subset.mpr ⟨List.Subset.trans hfirst hmore, ?_⟩
      exact List.cons_subset.mpr ⟨by simp, List.Subset.trans hsecond hmore⟩
    · obtain ⟨via, hvia, hcell⟩ := hshortest.attained i j
      exact ⟨via, List.Subset.trans hvia hmore, by rw [hmin, hcell]⟩
  · intro i j via hvia
    have hle : ∀ row column, after.cell row column ≤ matrix.cell row column := by
      intro row column
      rw [hcells]
      exact Bound.le_trans (min_le_right _ _)
        (hshortest.shortest row column [] (List.nil_subset _))
    calc after.cell i j ≤ after.walk i via j :=
          (hshortest.triangle.pivot hpivot hcells).cell_le_walk i hvia j
      _ ≤ matrix.walk i via j := walk_le_walk hle i via j

/-- Without negative cycles, the cells after all pivots are the lengths of shortest walks, and no
sum overflows if a simple walk and another one fit a word together. -/
theorem foldlM_relaxAll_shortest (hdiagonal : ∀ i, matrix.cell i i = Bound.zero)
    (hcycle : matrix.NoNegativeCycle) (hlimited : matrix.Limited limit) (hlimit : 0 ≤ limit)
    (hfits : 2 * ((clocks + 1 : Nat) * limit) < 2 ^ 63) :
    Yields (fun _ ↦ False) ((Index.all clocks).foldlM relaxAll matrix)
      (ShortestThrough matrix (Index.all clocks)) := by
  refine Yields.foldlM (ShortestThrough matrix) (ShortestThrough.start matrix) ?_
  intro before pivot after _ current hcurrent
  have hcells := hcurrent.limited hcycle hlimited hlimit
  have hpivot := hcurrent.diagonal hcycle hdiagonal pivot
  refine (relaxAll_cells (fun i j ↦ ?_) hpivot).mono fun improved himproved ↦ ?_
  · exact (hcells i pivot).sumTolerated (hcells pivot j) (by omega) _
  · exact hcurrent.pivot hpivot himproved

/-- Closure of a matrix without negative cycles does not overflow, and its cells are the lengths of
shortest walks. -/
theorem close_shortest (hdiagonal : ∀ i, matrix.cell i i = Bound.zero)
    (hcycle : matrix.NoNegativeCycle) (hlimited : matrix.Limited limit) (hlimit : 0 ≤ limit)
    (hfits : 2 * ((clocks + 1 : Nat) * limit) < 2 ^ 63) :
    Yields (fun _ ↦ False) matrix.close (ShortestThrough matrix (Index.all clocks)) := by
  have hempty : matrix.isEmpty = false := by simp [isEmpty, hdiagonal]
  unfold close
  rw [hempty, if_neg Bool.false_ne_true]
  refine (foldlM_relaxAll_shortest hdiagonal hcycle hlimited hlimit hfits).bind
    fun closed hclosed ↦ ?_
  have hnegative : ¬ closed.hasNegativeDiagonal = true := by
    rw [hasNegativeDiagonal_iff]
    rintro ⟨i, hi⟩
    rw [hclosed.diagonal hcycle hdiagonal i] at hi
    exact lt_irrefl _ hi
  rwa [Yields.pure_iff, if_neg hnegative]

end TimedSafety.BoundMatrix
