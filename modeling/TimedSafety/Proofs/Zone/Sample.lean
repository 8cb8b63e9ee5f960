import TimedSafety.Proofs.Matrix.Interval
import TimedSafety.Proofs.Zone.Denotation

/-!
The valuation that is picked from a zone belongs to it. Values are given in order; the invariant is
that those given so far obey the bounds among them. The next clock finds a value because the bounds
of a closed matrix through it are no tighter than the direct ones. So a canonical zone that is not
the empty form has a valuation, and being bottom is the same as being empty.
-/

set_option autoImplicit false

namespace TimedSafety

namespace BoundMatrix

variable {clocks : Nat} {matrix : BoundMatrix clocks}

/-- The reference has value zero, and the given values obey the bounds among them. -/
structure Consistent (matrix : BoundMatrix clocks) (assigned : List (Index clocks × Rat)) :
    Prop where
  reference : (Index.reference, 0) ∈ assigned
  obeys : ∀ first ∈ assigned, ∀ second ∈ assigned,
    (matrix.cell first.1 second.1).Admits (first.2 - second.2)

/-- A clock can be given a value on top of a consistent assignment. -/
theorem Consistent.assign (hclosed : matrix.Closed) {assigned : List (Index clocks × Rat)}
    (hassigned : matrix.Consistent assigned) (k : Index clocks) :
    matrix.Consistent (matrix.assign assigned k) := by
  obtain ⟨-, hbetween⟩ := Endpoint.pick_between (fun entry : Index clocks × Rat ↦
    matrix.cell entry.1 k) (fun entry ↦ matrix.cell k entry.1) Prod.snd Prod.snd assigned (by
      intro entry hentry
      refine Bound.admits_of_le ?_ (hassigned.obeys _ hassigned.reference entry hentry)
      calc matrix.cell Index.reference entry.1
          ≤ (matrix.cell Index.reference k).sum (matrix.cell k entry.1) := hclosed.triangle _ _ _
        _ = (matrix.cell k entry.1).sum (matrix.cell Index.reference k) := Bound.sum_comm _ _
        _ ≤ matrix.cell k entry.1 := Bound.sum_le_of_le_zero (hclosed.nonnegative k)) (by
      intro first hfirst second hsecond
      exact Bound.admits_of_le (hclosed.triangle _ _ _)
        (hassigned.obeys first hfirst second hsecond))
  refine ⟨List.mem_append_left _ hassigned.reference, ?_⟩
  simp only [BoundMatrix.assign, List.forall_mem_append, List.forall_mem_singleton]
  refine ⟨fun first hfirst ↦ ⟨hassigned.obeys first hfirst, (hbetween first hfirst).1⟩,
    fun second hsecond ↦ (hbetween second hsecond).2, ?_⟩
  rw [hclosed.diagonal, sub_self]
  exact Bound.admits_zero_iff.mpr le_rfl

theorem consistent_assignment (hclosed : matrix.Closed) : matrix.Consistent matrix.assignment := by
  have hstart : matrix.Consistent [(Index.reference, 0)] := by
    refine ⟨List.mem_singleton_self _, ?_⟩
    simp [hclosed.diagonal, Bound.Admits]
  exact List.foldlRecOn (motive := fun assigned ↦ matrix.Consistent assigned) _ _ hstart
    fun assigned hassigned k _ ↦ hassigned.assign hclosed k

/-! ### The values, in order -/

theorem foldl_assign_indices (matrix : BoundMatrix clocks) (indices : List (Index clocks))
    (assigned : List (Index clocks × Rat)) :
    (indices.foldl matrix.assign assigned).map Prod.fst = assigned.map Prod.fst ++ indices := by
  induction indices generalizing assigned with
  | nil => simp
  | cons k rest ih => simp [ih, assign]

theorem foldl_assign_head (matrix : BoundMatrix clocks) (indices : List (Index clocks))
    (entry : Index clocks × Rat) (assigned : List (Index clocks × Rat)) :
    ∃ rest, indices.foldl matrix.assign (entry :: assigned) = entry :: rest := by
  induction indices generalizing assigned with
  | nil => exact ⟨assigned, rfl⟩
  | cons k indices ih => exact ih _

theorem assignment_indices (matrix : BoundMatrix clocks) :
    matrix.assignment.map Prod.fst = Index.all clocks := by
  rw [assignment, foldl_assign_indices, Index.proper, Index.all, List.finRange_succ]
  simp [List.filter_map, Function.comp_def, Fin.succ_ne_zero]

/-- In a list with one entry per index, in order, the entry of an index stands at its place. -/
theorem mem_of_indices {entries : List (Index clocks × Rat)}
    (hindices : entries.map Prod.fst = Index.all clocks) (i : Index clocks) :
    (i, (entries.map Prod.snd).getD i 0) ∈ entries := by
  have hlength : entries.length = clocks + 1 := by
    simpa [Index.all] using congrArg List.length hindices
  have hi : i.val < entries.length := i.isLt.trans_eq hlength.symm
  have hindex : entries[i.val].1 = i := by
    have hget := List.getElem_of_eq hindices (i := i.val) (by simpa using hi)
    simpa [Index.all] using hget
  have hvalue : (entries.map Prod.snd).getD i 0 = entries[i.val].2 := by simp [hi]
  have hentry : (i, (entries.map Prod.snd).getD i 0) = entries[i.val] :=
    Prod.ext hindex.symm hvalue
  rw [hentry]
  exact List.getElem_mem hi

end BoundMatrix

namespace Zone

variable {zone : Zone} {valuation : Valuation}

/-- A picked valuation holds the assigned values, each at its index. -/
theorem mem_assignment_of_sample (hsample : zone.sample = some valuation) :
    valuation.clocks = zone.clocks ∧
      ∀ i, (i, valuation.point zone.clocks i) ∈ zone.matrix.assignment := by
  unfold sample at hsample
  split_ifs at hsample with hbottom
  obtain rfl := Option.some.inj hsample
  obtain ⟨rest, hrest⟩ : ∃ rest, zone.matrix.assignment = (Index.reference, 0) :: rest :=
    BoundMatrix.foldl_assign_head _ _ _ _
  have hindices := zone.matrix.assignment_indices
  have hlength : rest.length = zone.clocks := by
    have hcount := congrArg List.length hindices
    simpa [hrest, Index.all] using hcount
  refine ⟨by simpa [hrest, Valuation.clocks] using hlength, fun i ↦ ?_⟩
  have hmem := BoundMatrix.mem_of_indices hindices i
  rw [hrest] at hmem ⊢
  exact hmem

/-- What is picked from a zone belongs to it. -/
theorem sample_mem (hcanonical : zone.Canonical) (hsample : zone.sample = some valuation) :
    valuation ∈ zone := by
  have hbottom : zone.isBottom = false := by
    unfold sample at hsample
    split_ifs at hsample with hbottom
    exact Bool.not_eq_true _ ▸ hbottom
  obtain ⟨hclocks, hassigned⟩ := mem_assignment_of_sample hsample
  have hconsistent := BoundMatrix.consistent_assignment (hcanonical.closed hbottom)
  refine (mem_iff_admits zone valuation).mpr ⟨hclocks, fun i j ↦ ?_⟩
  exact hconsistent.obeys _ (hassigned i) _ (hassigned j)

/-- A zone is bottom just if it contains nothing. -/
theorem isBottom_iff (hcanonical : zone.Canonical) :
    zone.isBottom = true ↔ ∀ valuation, valuation ∉ zone := by
  constructor
  · intro hbottom valuation hmem
    rw [isBottom_of_mem hmem] at hbottom
    contradiction
  · intro hnone
    by_contra hbottom
    exact hnone _ (sample_mem hcanonical (by rw [sample, if_neg hbottom]))

theorem exists_mem_iff (hcanonical : zone.Canonical) :
    zone.isBottom = false ↔ ∃ valuation, valuation ∈ zone := by
  rw [← Bool.not_eq_true, isBottom_iff hcanonical]
  simp

/-- Something can be picked from a zone that is not bottom. -/
theorem sample_isSome_iff : zone.sample.isSome ↔ zone.isBottom = false := by
  unfold sample
  split_ifs with hbottom <;> simp [hbottom]

theorem meets_yields {may : Fault → Prop} (hmay : Tolerant may) {clocks : Nat} {other : Zone}
    {valuations others : Valuation → Prop} (hzone : zone.Denotes clocks valuations)
    (hother : other.Denotes clocks others) :
    Yields may (zone.meets other) fun common ↦
      (common = true ↔ ∃ valuation, valuations valuation ∧ others valuation) := by
  refine (meet_yields hmay hzone hother).bind fun common hcommon ↦ ?_
  rw [Yields.pure_iff, Bool.not_eq_true', exists_mem_iff hcommon.canonical]
  exact exists_congr hcommon.mem_iff

end Zone

end TimedSafety
