import Mathlib.Data.List.Induction
import Mathlib.Tactic.Ring
import TimedSafety.Proofs.Matrix.Points
import TimedSafety.Zone.Sample

/-!
Values between bounds. Lower bounds and upper bounds on one value leave an interval, whose ends are
the highest of the lower ends and the lowest of the upper ends. If every lower bound and every upper
bound leave room for each other, that is, their sum admits the difference of what they are measured
against, the value that `Endpoint.pick` takes obeys all of them (`pick_between`).

Picking the value of a clock, forgetting a clock and letting time pass all come down to this.
-/

set_option autoImplicit false

namespace TimedSafety

namespace Endpoint

/-- The value is not below a lower end. -/
def AdmitsAbove (lower : Endpoint) (value : Rat) : Prop :=
  if lower.strict then lower.value < value else lower.value ≤ value

/-- The value is not above an upper end. -/
def AdmitsBelow (upper : Endpoint) (value : Rat) : Prop :=
  if upper.strict then value < upper.value else value ≤ upper.value

/-- Some value lies between a lower end and an upper end. -/
def LeavesRoom (lower upper : Endpoint) : Prop :=
  lower.value < upper.value ∨
    (lower.value = upper.value ∧ lower.strict = false ∧ upper.strict = false)

theorem raise_admitsAbove_iff (lower next : Endpoint) (value : Rat) :
    (lower.raise next).AdmitsAbove value ↔ lower.AdmitsAbove value ∧ next.AdmitsAbove value := by
  obtain ⟨low, strict⟩ := lower
  obtain ⟨other, otherStrict⟩ := next
  unfold raise AdmitsAbove
  cases strict <;> cases otherStrict <;> split_ifs <;> grind

theorem raise_eq (lower next : Endpoint) : lower.raise next = lower ∨ lower.raise next = next := by
  unfold raise
  split_ifs
  · exact Or.inr rfl
  · exact Or.inl rfl

theorem lowerTo_admitsBelow_iff (upper : Option Endpoint) (next : Endpoint) (value : Rat) :
    (∀ high ∈ lowerTo upper next, high.AdmitsBelow value) ↔
      (∀ high ∈ upper, high.AdmitsBelow value) ∧ next.AdmitsBelow value := by
  cases upper with
  | none => simp [lowerTo]
  | some current =>
    obtain ⟨limit, strict⟩ := current
    obtain ⟨other, otherStrict⟩ := next
    unfold lowerTo AdmitsBelow
    cases strict <;> cases otherStrict <;> simp only <;> split_ifs <;>
      simp only [Option.mem_def, Option.some.injEq, forall_eq'] <;> grind

theorem mem_lowerTo {upper : Option Endpoint} {next high : Endpoint}
    (hmem : high ∈ lowerTo upper next) : high ∈ upper ∨ high = next := by
  unfold lowerTo at hmem
  split at hmem
  · exact Or.inr (Option.some.inj hmem).symm
  · split_ifs at hmem
    · exact Or.inr (Option.some.inj hmem).symm
    · exact Or.inl hmem

/-- The picked value lies between ends that leave room. -/
theorem pick_admits {lower : Endpoint} {upper : Option Endpoint}
    (hroom : ∀ high ∈ upper, lower.LeavesRoom high) :
    lower.AdmitsAbove (pick lower upper) ∧
      ∀ high ∈ upper, high.AdmitsBelow (pick lower upper) := by
  cases upper with
  | none => cases hstrict : lower.strict <;> simp [pick, AdmitsAbove, hstrict]
  | some high =>
    have hhigh := hroom high rfl
    cases hlower : lower.strict
    · cases hupper : high.strict <;>
        simp_all [pick, AdmitsAbove, AdmitsBelow, LeavesRoom, le_iff_lt_or_eq]
    · have hlt : lower.value < high.value := by
        rcases hhigh with hlt | ⟨-, hfalse, -⟩
        · exact hlt
        · rw [hlower] at hfalse
          contradiction
      have habove : lower.value < (lower.value + high.value) / 2 := by linarith
      have hbelow : (lower.value + high.value) / 2 < high.value := by linarith
      cases hupper : high.strict <;>
        simp [pick, AdmitsAbove, AdmitsBelow, hlower, hupper, habove, hbelow, le_of_lt]

end Endpoint

/-! ### Ends from bounds -/

namespace Bound

/-- The end that a bound on `given - value` sets to the value from below. -/
def lowerEnd (bound : Bound) (given : Rat) : Option Endpoint :=
  match bound with
  | infinite => none
  | finite value strict => some ⟨given - value, strict⟩

/-- The end that a bound on `value - given` sets to the value from above. -/
def upperEnd (bound : Bound) (given : Rat) : Option Endpoint :=
  match bound with
  | infinite => none
  | finite value strict => some ⟨given + value, strict⟩

theorem lowerEnd_iff (bound : Bound) (given value : Rat) :
    (∀ low ∈ bound.lowerEnd given, low.AdmitsAbove value) ↔ bound.Admits (given - value) := by
  cases bound with
  | infinite => simp [lowerEnd, Admits]
  | finite limit strict =>
    cases strict <;> simp [lowerEnd, Endpoint.AdmitsAbove, Admits] <;> constructor <;> intro _ <;>
      linarith

theorem upperEnd_iff (bound : Bound) (given value : Rat) :
    (∀ high ∈ bound.upperEnd given, high.AdmitsBelow value) ↔ bound.Admits (value - given) := by
  cases bound with
  | infinite => simp [upperEnd, Admits]
  | finite limit strict =>
    cases strict <;> simp [upperEnd, Endpoint.AdmitsBelow, Admits] <;> constructor <;> intro _ <;>
      linarith

/-- Two bounds leave room for each other if their sum admits what they are measured against. -/
theorem leavesRoom_of_sum {lower upper : Bound} {above below : Rat}
    (hsum : (lower.sum upper).Admits (above - below)) {low high : Endpoint}
    (hlow : low ∈ lower.lowerEnd above) (hhigh : high ∈ upper.upperEnd below) :
    low.LeavesRoom high := by
  cases lower with
  | infinite => simp [lowerEnd] at hlow
  | finite value strict =>
    cases upper with
    | infinite => simp [upperEnd] at hhigh
    | finite value' strict' =>
      simp only [lowerEnd, upperEnd, Option.mem_def, Option.some.injEq] at hlow hhigh
      subst hlow hhigh
      unfold Endpoint.LeavesRoom
      simp only [sum] at hsum
      cases strict <;> cases strict' <;> simp [Admits] at hsum ⊢
      · rcases lt_or_eq_of_le hsum with hlt | heq
        · exact Or.inl (by linarith)
        · exact Or.inr (by linarith)
      all_goals linarith

end Bound

/-! ### Many bounds -/

namespace Endpoint

variable {α : Type}

/-- The highest of zero and the ends that the elements set from below. -/
def highestLower (lower : α → Bound) (above : α → Rat) (elements : List α) : Endpoint :=
  elements.foldl (fun current element ↦
    match lower element with
    | .infinite => current
    | .finite bound strict => current.raise ⟨above element - bound, strict⟩) ⟨0, false⟩

/-- The lowest of the ends that the elements set from above. -/
def lowestUpper (upper : α → Bound) (below : α → Rat) (elements : List α) : Option Endpoint :=
  elements.foldl (fun current element ↦
    match upper element with
    | .infinite => current
    | .finite bound strict => lowerTo current ⟨below element + bound, strict⟩) none

theorem highestLower_append (lower : α → Bound) (above : α → Rat) (elements : List α)
    (element : α) : highestLower lower above (elements ++ [element]) =
      ((lower element).lowerEnd (above element)).elim (highestLower lower above elements)
        (highestLower lower above elements).raise := by
  simp only [highestLower, List.foldl_append, List.foldl_cons, List.foldl_nil]
  cases lower element <;> rfl

theorem lowestUpper_append (upper : α → Bound) (below : α → Rat) (elements : List α)
    (element : α) : lowestUpper upper below (elements ++ [element]) =
      ((upper element).upperEnd (below element)).elim (lowestUpper upper below elements)
        (lowerTo (lowestUpper upper below elements)) := by
  simp only [lowestUpper, List.foldl_append, List.foldl_cons, List.foldl_nil]
  cases upper element <;> rfl

theorem highestLower_admitsAbove_iff (lower : α → Bound) (above : α → Rat) (elements : List α)
    (value : Rat) : (highestLower lower above elements).AdmitsAbove value ↔
      0 ≤ value ∧ ∀ element ∈ elements, (lower element).Admits (above element - value) := by
  induction elements using List.reverseRecOn with
  | nil => simp [highestLower, AdmitsAbove]
  | append_singleton front last ih =>
    have hlast := Bound.lowerEnd_iff (lower last) (above last) value
    rw [highestLower_append, List.forall_mem_append, ← and_assoc, ← ih, List.forall_mem_singleton,
      ← hlast]
    cases (lower last).lowerEnd (above last) with
    | none => simp
    | some low => simp [raise_admitsAbove_iff]

theorem lowestUpper_admitsBelow_iff (upper : α → Bound) (below : α → Rat) (elements : List α)
    (value : Rat) : (∀ high ∈ lowestUpper upper below elements, high.AdmitsBelow value) ↔
      ∀ element ∈ elements, (upper element).Admits (value - below element) := by
  induction elements using List.reverseRecOn with
  | nil => simp [lowestUpper]
  | append_singleton front last ih =>
    have hlast := Bound.upperEnd_iff (upper last) (below last) value
    rw [lowestUpper_append, List.forall_mem_append, ← ih, List.forall_mem_singleton, ← hlast]
    cases (upper last).upperEnd (below last) with
    | none => simp
    | some high => simpa using lowerTo_admitsBelow_iff _ high value

/-- The highest lower end is zero or belongs to an element. -/
theorem highestLower_attained (lower : α → Bound) (above : α → Rat) (elements : List α) :
    highestLower lower above elements = ⟨0, false⟩ ∨
      ∃ element ∈ elements,
        highestLower lower above elements ∈ (lower element).lowerEnd (above element) := by
  induction elements using List.reverseRecOn with
  | nil => exact Or.inl rfl
  | append_singleton front last ih =>
    have hfront : highestLower lower above front = ⟨0, false⟩ ∨ ∃ element ∈ front ++ [last],
        highestLower lower above front ∈ (lower element).lowerEnd (above element) :=
      ih.imp id fun ⟨element, hmem, hend⟩ ↦ ⟨element, List.mem_append_left _ hmem, hend⟩
    rw [highestLower_append]
    cases hend : (lower last).lowerEnd (above last) with
    | none => exact hfront
    | some low =>
      rw [Option.elim_some]
      rcases raise_eq (highestLower lower above front) low with hraise | hraise
      · rw [hraise]
        exact hfront
      · rw [hraise]
        exact Or.inr ⟨last, by simp, hend⟩

/-- The lowest upper end belongs to an element. -/
theorem lowestUpper_attained (upper : α → Bound) (below : α → Rat) (elements : List α)
    {high : Endpoint} (hhigh : high ∈ lowestUpper upper below elements) :
    ∃ element ∈ elements, high ∈ (upper element).upperEnd (below element) := by
  induction elements using List.reverseRecOn generalizing high with
  | nil => simp [lowestUpper] at hhigh
  | append_singleton front last ih =>
    have hfront : high ∈ lowestUpper upper below front → ∃ element ∈ front ++ [last],
        high ∈ (upper element).upperEnd (below element) := fun hmem ↦
      (ih hmem).imp fun element helement ↦ ⟨List.mem_append_left _ helement.1, helement.2⟩
    rw [lowestUpper_append] at hhigh
    cases hend : (upper last).upperEnd (below last) with
    | none =>
      rw [hend] at hhigh
      exact hfront hhigh
    | some next =>
      rw [hend, Option.elim_some] at hhigh
      rcases mem_lowerTo hhigh with hold | rfl
      · exact hfront hold
      · exact ⟨last, by simp, hend⟩

/-- The picked value is not negative and obeys all bounds, if they leave room for each other and
for zero. -/
theorem pick_between (lower upper : α → Bound) (above below : α → Rat) (elements : List α)
    (hzero : ∀ element ∈ elements, (upper element).Admits (0 - below element))
    (hroom : ∀ first ∈ elements, ∀ second ∈ elements,
      ((lower first).sum (upper second)).Admits (above first - below second)) :
    0 ≤ pick (highestLower lower above elements) (lowestUpper upper below elements) ∧
      ∀ element ∈ elements,
        (lower element).Admits (above element -
          pick (highestLower lower above elements) (lowestUpper upper below elements)) ∧
        (upper element).Admits (pick (highestLower lower above elements)
          (lowestUpper upper below elements) - below element) := by
  have hends : ∀ high ∈ lowestUpper upper below elements,
      (highestLower lower above elements).LeavesRoom high := by
    intro high hhigh
    obtain ⟨second, hsecond, hend⟩ := lowestUpper_attained upper below elements hhigh
    rcases highestLower_attained lower above elements with hlow | ⟨first, hfirst, hlow⟩
    · have hsum : (Bound.zero.sum (upper second)).Admits (0 - below second) := by
        rw [Bound.zero_sum]
        exact hzero second hsecond
      rw [hlow]
      exact Bound.leavesRoom_of_sum hsum (by simp [Bound.lowerEnd]) hend
    · exact Bound.leavesRoom_of_sum (hroom first hfirst second hsecond) hlow hend
  obtain ⟨hlow, hhigh⟩ := pick_admits hends
  rw [highestLower_admitsAbove_iff] at hlow
  rw [lowestUpper_admitsBelow_iff] at hhigh
  exact ⟨hlow.1, fun element hmem ↦ ⟨hlow.2 element hmem, hhigh element hmem⟩⟩

end Endpoint

end TimedSafety
