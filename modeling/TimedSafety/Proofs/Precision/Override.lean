import Mathlib.Data.List.Induction
import TimedSafety.Proofs.Precision

/-!
Tables as maps. A list of entries is read by its first entry for a location and a list of updates by
its last one. Inserting keeps the entries in the order of their locations, so no location has two.
A table after any number of updates says what the last update for a location says, and what it said
before where there is none; that updates which repeat the fallback may be dropped shows in the
entries only, never in what the table says (`PrecisionTable.update_overrides`).
-/

set_option autoImplicit false

namespace TimedSafety.PrecisionTable

variable {π : Type}

/-! ### Lists of entries -/

/-- The last of the updates for a location. -/
def last? (updates : List (Location × π)) (location : Location) : Option π :=
  explicit? updates.reverse location

/-- The entries stand in the order of their locations, none of which has two. -/
def InOrder (entries : List (Location × π)) : Prop :=
  entries.Pairwise fun earlier later ↦ earlier.1.index < later.1.index

theorem explicit?_append (first second : List (Location × π)) (location : Location) :
    explicit? (first ++ second) location =
      (explicit? first location).or (explicit? second location) := by
  induction first with
  | nil => rfl
  | cons entry rest ih =>
    rw [List.cons_append, explicit?_cons, explicit?_cons, ih]
    split_ifs <;> rfl

theorem explicit?_eq_none_iff {entries : List (Location × π)} {location : Location} :
    explicit? entries location = none ↔ ∀ entry ∈ entries, entry.1 ≠ location := by
  simp [explicit?]

theorem last?_append (first second : List (Location × π)) (location : Location) :
    last? (first ++ second) location = (last? second location).or (last? first location) := by
  rw [last?, List.reverse_append, explicit?_append]
  rfl

theorem last?_concat (updates : List (Location × π)) (location other : Location)
    (precision : π) : last? (updates ++ [(location, precision)]) other =
      if other = location then some precision else last? updates other := by
  rw [last?, List.reverse_concat, explicit?_cons]
  rfl

/-- The last update of a location stands after all its others. -/
theorem last?_eq_some_iff {updates : List (Location × π)} {location : Location} {precision : π} :
    last? updates location = some precision ↔
      ∃ earlier later, updates = earlier ++ (location, precision) :: later ∧
        ∀ update ∈ later, update.1 ≠ location := by
  constructor
  · intro hlast
    induction updates using List.reverseRecOn with
    | nil => cases hlast
    | append_singleton updates update ih =>
      rw [last?_concat] at hlast
      split_ifs at hlast with hsame
      · -- the update just made is the last one
        obtain rfl := Option.some.inj hlast
        subst hsame
        exact ⟨updates, [], rfl, by simp⟩
      · obtain ⟨earlier, later, rfl, hlater⟩ := ih hlast
        refine ⟨earlier, later ++ [update], by simp, ?_⟩
        intro other hother
        rcases List.mem_append.mp hother with hother | hother
        · exact hlater other hother
        · rw [List.mem_singleton.mp hother]
          exact Ne.symm hsame
  · rintro ⟨earlier, later, rfl, hlater⟩
    have hnone : last? later location = none :=
      explicit?_eq_none_iff.mpr fun update hupdate ↦ hlater update (List.mem_reverse.mp hupdate)
    rw [List.append_cons, last?_append, hnone, Option.none_or, last?_concat, if_pos rfl]

theorem mem_insertEntry {entries : List (Location × π)} {location : Location} {precision : π}
    {entry : Location × π} (hentry : entry ∈ insertEntry location precision entries) :
    entry = (location, precision) ∨ entry ∈ entries := by
  induction entries with
  | nil => exact .inl (List.mem_singleton.mp hentry)
  | cons head rest ih =>
    unfold insertEntry at hentry
    split_ifs at hentry
    all_goals grind

theorem InOrder.insertEntry {entries : List (Location × π)} (horder : InOrder entries)
    (location : Location) (precision : π) :
    InOrder (insertEntry location precision entries) := by
  induction entries with
  | nil => exact List.pairwise_singleton _ _
  | cons head rest ih =>
    obtain ⟨hhead, hrest⟩ := List.pairwise_cons.mp horder
    unfold PrecisionTable.insertEntry
    split_ifs with hbefore hsame
    · refine List.pairwise_cons.mpr ⟨?_, horder⟩
      intro entry hentry
      rcases List.mem_cons.mp hentry with rfl | hentry
      · exact hbefore
      · exact Nat.lt_trans hbefore (hhead entry hentry)
    · subst hsame
      exact List.pairwise_cons.mpr ⟨hhead, hrest⟩
    · refine List.pairwise_cons.mpr ⟨?_, ih hrest⟩
      intro entry hentry
      rcases mem_insertEntry hentry with rfl | hentry
      · -- the indices differ because the locations do
        have hindex : location.index ≠ head.1.index :=
          fun heq ↦ hsame (congrArg Location.mk heq)
        change head.1.index < location.index
        omega
      · exact hhead entry hentry

/-- In a list in order, the entry of a location is the one that is read. -/
theorem InOrder.explicit?_eq_some_iff {entries : List (Location × π)} (horder : InOrder entries)
    {location : Location} {precision : π} :
    explicit? entries location = some precision ↔ (location, precision) ∈ entries := by
  induction entries with
  | nil => simp [explicit?]
  | cons head rest ih =>
    obtain ⟨hhead, hrest⟩ := List.pairwise_cons.mp horder
    rw [explicit?_cons, List.mem_cons, ← ih hrest]
    split_ifs with hsame
    · subst hsame
      have hother : explicit? rest head.1 ≠ some precision := by
        intro hfound
        exact Nat.lt_irrefl head.1.index (hhead (head.1, precision) ((ih hrest).mp hfound))
      simp only [hother, or_false, Option.some.injEq]
      constructor
      · rintro rfl
        rfl
      · intro heq
        rw [← heq]
    · have hne : (location, precision) ≠ head := fun heq ↦ hsame (by rw [← heq])
      simp only [hne, false_or]

/-- Entries written one after the other: the list is read as the last of them says. -/
theorem explicit?_foldl_insertEntry (updates entries : List (Location × π))
    (location : Location) :
    explicit? (updates.foldl (fun sorted update ↦ insertEntry update.1 update.2 sorted) entries)
      location = (last? updates location).or (explicit? entries location) := by
  induction updates using List.reverseRecOn with
  | nil => rfl
  | append_singleton updates update ih =>
    rw [List.foldl_append, List.foldl_cons, List.foldl_nil, explicit?_insertEntry, last?_concat,
      ih]
    split_ifs <;> rfl

theorem InOrder.foldl_insertEntry {entries : List (Location × π)} (horder : InOrder entries)
    (updates : List (Location × π)) :
    InOrder (updates.foldl (fun sorted update ↦ PrecisionTable.insertEntry update.1 update.2 sorted)
      entries) :=
  List.foldlRecOn updates _ horder fun _ hsorted update _ ↦
    hsorted.insertEntry update.1 update.2

/-! ### Sequences of updates -/

variable [DecidableEq π]

theorem update_append (table : PrecisionTable π) (first second : List (Location × π)) :
    table.update (first ++ second) = (table.update first).update second :=
  List.foldl_append

theorem fallback_update (table : PrecisionTable π) (updates : List (Location × π)) :
    (table.update updates).fallback = table.fallback := by
  induction updates using List.reverseRecOn with
  | nil => rfl
  | append_singleton updates update ih =>
    rw [update_append, ← ih]
    change ((table.update updates).updateAt update.1 update.2).fallback = _
    unfold updateAt
    split_ifs <;> rfl

theorem precision?_update_eq (table : PrecisionTable π) (updates : List (Location × π))
    (location : Location) : (table.update updates).precision? location =
      (last? updates location).or (table.precision? location) := by
  induction updates using List.reverseRecOn with
  | nil => rfl
  | append_singleton updates update ih =>
    rw [update_append, precision?_update, last?_concat, ih]
    split_ifs <;> rfl

/-- One update writes its entry unless there is none yet and the fallback says the same. -/
theorem explicit?_updateAt (table : PrecisionTable π) (location other : Location)
    (precision : π) : explicit? (table.update [(location, precision)]).entries other =
      if other = location ∧
          ¬(explicit? table.entries location = none ∧ table.fallback = some precision) then
        some precision
      else explicit? table.entries other := by
  simp only [update, List.foldl_cons, List.foldl_nil, updateAt]
  split_ifs with hrepeats hwritten hwritten
  · exact absurd hrepeats hwritten.2
  · rfl
  · rw [explicit?_insertEntry, if_pos hwritten.1]
  · rw [explicit?_insertEntry, if_neg fun hsame ↦ hwritten ⟨hsame, hrepeats⟩]

/-- An entry that stands after the updates says what the last update for its location said. -/
theorem explicit?_update_eq_some {table : PrecisionTable π} {updates : List (Location × π)}
    {location : Location} {precision : π}
    (hentry : explicit? (table.update updates).entries location = some precision) :
    (last? updates location).or (explicit? table.entries location) = some precision := by
  induction updates using List.reverseRecOn with
  | nil => exact hentry
  | append_singleton updates update ih =>
    rw [update_append, explicit?_updateAt] at hentry
    rw [last?_concat]
    by_cases hsame : location = update.1
    · rw [if_pos hsame, Option.some_or]
      split_ifs at hentry with hwritten
      · exact hentry
      · -- the update was dropped, but only because the location had no entry
        have hdropped := not_not.mp fun hkept ↦ hwritten ⟨hsame, hkept⟩
        rw [hsame, hdropped.1] at hentry
        cases hentry
    · rw [if_neg fun hwritten ↦ hsame hwritten.1] at hentry
      rw [if_neg hsame]
      exact ih hentry

/-- A location is left without an entry just if it had none and all its updates repeat the
fallback. -/
theorem explicit?_update_eq_none_iff {table : PrecisionTable π} {updates : List (Location × π)}
    {location : Location} : explicit? (table.update updates).entries location = none ↔
      explicit? table.entries location = none ∧
        ∀ precision, (location, precision) ∈ updates → table.fallback = some precision := by
  induction updates using List.reverseRecOn with
  | nil => simp [update]
  | append_singleton updates update ih =>
    obtain ⟨other, precision⟩ := update
    have hupdates : (∀ said, (location, said) ∈ updates ++ [(other, precision)] →
        table.fallback = some said) ↔
        (∀ said, (location, said) ∈ updates → table.fallback = some said) ∧
          (location = other → table.fallback = some precision) := by
      grind
    rw [update_append, explicit?_updateAt, fallback_update, hupdates, ← and_assoc, ← ih]
    by_cases hsame : location = other
    · subst hsame
      split_ifs with hwritten
      · simpa using hwritten
      · have hdropped := not_not.mp fun hkept ↦ hwritten ⟨rfl, hkept⟩
        exact iff_of_true hdropped.1 ⟨hdropped.1, fun _ ↦ hdropped.2⟩
    · simp [hsame]

/-- A table after updates says what the last update for a location says, and else what it said
before; updates may be made in one go or in several; and an entry that repeats the fallback is new
only where an earlier update for its location said something else. -/
theorem update_overrides (table : PrecisionTable π) :
    (∀ updates location, (table.update updates).precision? location =
      (last? updates location).or (table.precision? location)) ∧
    (∀ first second, table.update (first ++ second) = (table.update first).update second) ∧
    (∀ updates location precision, table.fallback = some precision →
      explicit? table.entries location = none →
      explicit? (table.update updates).entries location = some precision →
      ∃ earlier later other, updates = earlier ++ (location, precision) :: later ∧
        (∀ update ∈ later, update.1 ≠ location) ∧
        (location, other) ∈ earlier ∧ other ≠ precision) := by
  refine ⟨table.precision?_update_eq, table.update_append, ?_⟩
  intro updates location precision hfallback hnone hentry
  have hlast : last? updates location = some precision := by
    have hsays := explicit?_update_eq_some hentry
    rwa [hnone, Option.or_none] at hsays
  obtain ⟨earlier, later, rfl, hlater⟩ := last?_eq_some_iff.mp hlast
  -- not all updates for the location repeat the fallback, or none would have been written
  have hdiffers : ¬∀ other, (location, other) ∈ earlier ++ (location, precision) :: later →
      table.fallback = some other := by
    intro hrepeat
    rw [explicit?_update_eq_none_iff.mpr ⟨hnone, hrepeat⟩] at hentry
    cases hentry
  push Not at hdiffers
  obtain ⟨other, hother, hne⟩ := hdiffers
  have hne : other ≠ precision := by
    rintro rfl
    exact hne hfallback
  refine ⟨earlier, later, other, rfl, hlater, ?_, hne⟩
  rcases List.mem_append.mp hother with hother | hother
  · exact hother
  · rcases List.mem_cons.mp hother with heq | hother
    · exact absurd (Prod.mk.inj heq).2 hne
    · exact absurd rfl (hlater _ hother)

/-- Going away from the fallback and back leaves an entry that repeats it. -/
theorem update_overrides_returning :
    explicit? ((uniform 3).update [(⟨0⟩, 3), (⟨0⟩, 5), (⟨1⟩, 3), (⟨0⟩, 3)]).entries ⟨0⟩ = some 3 ∧
      ((uniform 3).update [(⟨0⟩, 3), (⟨0⟩, 5), (⟨1⟩, 3), (⟨0⟩, 3)]).precision? ⟨0⟩ = some 3 ∧
      ∃ earlier later other,
        [((⟨0⟩ : Location), 3), (⟨0⟩, 5), (⟨1⟩, 3), (⟨0⟩, 3)] = earlier ++ (⟨0⟩, 3) :: later ∧
        (∀ update ∈ later, update.1 ≠ ⟨0⟩) ∧ (⟨0⟩, other) ∈ earlier ∧ other ≠ 3 :=
  ⟨by decide, (update_overrides (uniform 3)).1 _ _,
    (update_overrides (uniform 3)).2.2 _ _ _ rfl rfl (by decide)⟩

end TimedSafety.PrecisionTable
