import Mathlib.Data.Int.Order.Basic
import Mathlib.Data.Nat.Basic
import TimedSafety.Precision.Table

/-!
Precisions as sets of atoms, and tables as functions of the location. The order of constraints tells
any two of them apart, so inserting one into a sorted list loses none. An update of a table changes
what it says about one location and nothing else, even where it writes no entry
(`PrecisionTable.precision?_update`).
-/

set_option autoImplicit false

namespace TimedSafety

/-! ### Sorted lists of constraints -/

/-- Inserting elements one by one adds just these, whatever place each of them gets. -/
theorem mem_foldl_insert_iff {α : Type} {insert : α → List α → List α}
    (hinsert : ∀ {element other : α} {sorted : List α},
      other ∈ insert element sorted ↔ other = element ∨ other ∈ sorted)
    {added sorted : List α} {other : α} :
    other ∈ added.foldl (fun sorted element ↦ insert element sorted) sorted ↔
      other ∈ sorted ∨ other ∈ added := by
  induction added generalizing sorted with
  | nil => simp
  | cons head rest ih =>
    rw [List.foldl_cons, ih, hinsert, List.mem_cons, or_comm (a := other = head), or_assoc]

theorem Comparison.rank_injective : Function.Injective Comparison.rank := by
  intro left right hrank
  cases left <;> cases right <;> cases hrank <;> rfl

namespace Constraint

/-- The missing clock has rank zero, which is no clock's number. -/
theorem rightRank_injective : Function.Injective rightRank := by
  intro left right hrank
  cases left with
  | none =>
    cases right with
    | none => rfl
    | some clock => exact absurd hrank (Nat.ne_of_lt clock.id_pos)
  | some clock =>
    cases right with
    | none => exact absurd hrank (Nat.ne_of_gt clock.id_pos)
    | some other =>
      cases clock
      cases other
      cases hrank
      rfl

theorem eq_of_order {left right : Constraint} (horder : order left right = .eq) :
    left = right := by
  cases left with
  | always =>
    cases right <;> cases horder
    rfl
  | never =>
    cases right <;> cases horder
    rfl
  | compare clock rightClock comparison bound =>
    cases right with
    | always => cases horder
    | never => cases horder
    | compare clock' rightClock' comparison' bound' =>
      simp only [order, Ordering.then_eq_eq, compare_eq_iff_eq] at horder
      obtain ⟨hclock, hright, hcomparison, rfl⟩ := horder
      obtain rfl := rightRank_injective hright
      obtain rfl := Comparison.rank_injective hcomparison
      cases clock
      cases clock'
      cases hclock
      rfl

theorem mem_insertSorted_iff {constraint other : Constraint} {sorted : List Constraint} :
    other ∈ insertSorted constraint sorted ↔ other = constraint ∨ other ∈ sorted := by
  induction sorted with
  | nil => simp [insertSorted]
  | cons head rest ih =>
    unfold insertSorted
    cases horder : order constraint head with
    | lt => simp
    | eq => simp [eq_of_order horder]
    | gt =>
      simp only [List.mem_cons, ih]
      exact or_left_comm

end Constraint

/-- Joining adds the atoms among the constraints. -/
theorem Precision.mem_join_iff {precision : Precision} {constraints : List Constraint}
    {atom : Constraint} : atom ∈ (precision.join constraints).atoms ↔
      atom ∈ precision.atoms ∨ (atom ∈ constraints ∧ atom.isAtom = true) := by
  simp only [join, mem_foldl_insert_iff Constraint.mem_insertSorted_iff, List.mem_filter]

/-! ### Updates of a table -/

namespace PrecisionTable

variable {π : Type}

theorem explicit?_cons (entry : Location × π) (rest : List (Location × π)) (location : Location) :
    explicit? (entry :: rest) location =
      if location = entry.1 then some entry.2 else explicit? rest location := by
  by_cases hentry : entry.1 = location
  · simp [explicit?, hentry]
  · simp [explicit?, hentry, Ne.symm hentry]

theorem explicit?_insertEntry (entries : List (Location × π)) (location other : Location)
    (precision : π) : explicit? (insertEntry location precision entries) other =
      if other = location then some precision else explicit? entries other := by
  induction entries with
  | nil => exact explicit?_cons _ _ _
  | cons entry rest ih =>
    unfold insertEntry
    split_ifs with hbefore hsame
    all_goals simp only [explicit?_cons, ih]
    all_goals grind

/-- An update changes what the table says about its own location only. -/
theorem precision?_update [DecidableEq π] (table : PrecisionTable π) (location other : Location)
    (precision : π) : (table.update [(location, precision)]).precision? other =
      if other = location then some precision else table.precision? other := by
  simp only [update, List.foldl_cons, List.foldl_nil, updateAt]
  split_ifs with hrepeats hsame hsame
  · -- the entry is dropped because the fallback already says the same
    subst hsame
    rw [precision?, hrepeats.1, hrepeats.2, Option.none_or]
  · rfl
  · rw [precision?, explicit?_insertEntry, if_pos hsame, Option.some_or]
  · rw [precision?, explicit?_insertEntry, if_neg hsame]
    rfl

/-- A location with a precision keeps one after an update. -/
theorem precision?_update_isSome [DecidableEq π] (table : PrecisionTable π)
    (location other : Location) (precision : π) (hother : (table.precision? other).isSome) :
    ((table.update [(location, precision)]).precision? other).isSome := by
  rw [precision?_update]
  split_ifs
  · rfl
  · exact hother

end PrecisionTable

end TimedSafety
