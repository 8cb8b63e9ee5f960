import TimedSafety.Automaton.Draft
import TimedSafety.Proofs.Precision.Override
import TimedSafety.Proofs.Zone.Operators

/-!
What a draft names and what it declares. A draft may name locations and clocks that were not
declared. Building looks at each of them: it ends in the declared parts only if all were declared,
and reports one of the others if not (`AutomatonDraft.build_yields`). Of several error conditions
for a location, the one declared last is in effect, and only its clocks matter.
-/

set_option autoImplicit false

namespace TimedSafety.AutomatonDraft

variable {draft : AutomatonDraft} {may : Fault → Prop} {admitted : Failure ModelError → Prop}

/-! ### Drafts and declarations -/

/-- The drafts that can be made by declarations, one after the other. -/
inductive Drafted : AutomatonDraft → Prop
  | start : Drafted {}
  | addClock {draft : AutomatonDraft} (hdraft : Drafted draft) (name : String) :
      Drafted (draft.addClock name)
  | addLocation {draft : AutomatonDraft} (hdraft : Drafted draft) (name : String) (urgent : Bool) :
      Drafted (draft.addLocation name urgent)
  | addInvariant {draft : AutomatonDraft} (hdraft : Drafted draft) (location : Location)
      (constraint : Constraint) : Drafted (draft.addInvariant location constraint)
  | addEdge {draft : AutomatonDraft} (hdraft : Drafted draft) (source target : Location)
      (commands : List Command) : Drafted (draft.addEdge source target commands)
  | setInitial {draft : AutomatonDraft} (hdraft : Drafted draft) (location : Location) :
      Drafted (draft.setInitial location)
  | addError {draft : AutomatonDraft} (hdraft : Drafted draft) (location : Location)
      (constraints : List Constraint) : Drafted (draft.addError location constraints)

/-- Every draft can be made by declarations, so what holds of all drafts is what holds after any
declarations. -/
theorem drafted (draft : AutomatonDraft) : Drafted draft := by
  obtain ⟨clockNames, locations, invariants, edges, initial, errors⟩ := draft
  have hclocks : Drafted { clockNames } := by
    induction clockNames using List.reverseRecOn with
    | nil => exact .start
    | append_singleton _ name ih => exact ih.addClock name
  have hlocations : Drafted { clockNames, locations } := by
    induction locations using List.reverseRecOn with
    | nil => exact hclocks
    | append_singleton _ location ih => exact ih.addLocation location.1 location.2
  have hinvariants : Drafted { clockNames, locations, invariants } := by
    induction invariants using List.reverseRecOn with
    | nil => exact hlocations
    | append_singleton _ invariant ih => exact ih.addInvariant invariant.1 invariant.2
  have hedges : Drafted { clockNames, locations, invariants, edges } := by
    induction edges using List.reverseRecOn with
    | nil => exact hinvariants
    | append_singleton _ edge ih => exact ih.addEdge edge.1 edge.2.1 edge.2.2
  have hinitial : Drafted { clockNames, locations, invariants, edges, initial } := by
    cases initial with
    | none => exact hedges
    | some location => exact hedges.setInitial location
  induction errors using List.reverseRecOn with
  | nil => exact hinitial
  | append_singleton _ error ih => exact ih.addError error.1 error.2

/-! ### Error conditions in effect -/

/-- The constraints of the error condition that was declared last for a location. -/
def lastError? (draft : AutomatonDraft) (location : Location) : Option (List Constraint) :=
  PrecisionTable.last? draft.errors location

/-- Error conditions are written like the entries of a table. -/
theorem insertError_eq_insertEntry (location : Location) (constraints : List Constraint)
    (sorted : List (Location × List Constraint)) :
    insertError location constraints sorted =
      PrecisionTable.insertEntry location constraints sorted := by
  induction sorted with
  | nil => rfl
  | cons head rest ih => rw [insertError, PrecisionTable.insertEntry, ih]

theorem effectiveErrors_eq_foldl (draft : AutomatonDraft) : draft.effectiveErrors =
    draft.errors.foldl (fun sorted entry ↦ PrecisionTable.insertEntry entry.1 entry.2 sorted)
      [] := by
  simp only [effectiveErrors, insertError_eq_insertEntry]

theorem explicit?_effectiveErrors (draft : AutomatonDraft) (location : Location) :
    PrecisionTable.explicit? draft.effectiveErrors location = draft.lastError? location := by
  rw [effectiveErrors_eq_foldl, PrecisionTable.explicit?_foldl_insertEntry]
  exact Option.or_none

/-- The error conditions in effect are those declared last. -/
theorem mem_effectiveErrors_iff {location : Location} {constraints : List Constraint} :
    (location, constraints) ∈ draft.effectiveErrors ↔
      draft.lastError? location = some constraints := by
  have horder : PrecisionTable.InOrder draft.effectiveErrors := by
    rw [effectiveErrors_eq_foldl]
    exact PrecisionTable.InOrder.foldl_insertEntry List.Pairwise.nil draft.errors
  rw [← explicit?_effectiveErrors, horder.explicit?_eq_some_iff]

theorem mem_of_lastError {location : Location} {constraints : List Constraint}
    (hlast : draft.lastError? location = some constraints) :
    (location, constraints) ∈ draft.errors := by
  obtain ⟨earlier, later, herrors, -⟩ := PrecisionTable.last?_eq_some_iff.mp hlast
  rw [herrors]
  exact List.mem_append_right earlier List.mem_cons_self

theorem exists_lastError {location : Location} {constraints : List Constraint}
    (herror : (location, constraints) ∈ draft.errors) :
    ∃ others, draft.lastError? location = some others := by
  by_contra hnone
  have hnone : draft.lastError? location = none :=
    Option.eq_none_iff_forall_ne_some.mpr fun others hlast ↦ hnone ⟨others, hlast⟩
  exact PrecisionTable.explicit?_eq_none_iff.mp hnone _ (List.mem_reverse.mpr herror) rfl

/-! ### What a draft names -/

/-- The draft names the location. -/
inductive NamesLocation (draft : AutomatonDraft) (location : Location) : Prop
  | initial (hinitial : draft.initial = some location)
  | invariant {constraint : Constraint} (hinvariant : (location, constraint) ∈ draft.invariants)
  | source {target : Location} {commands : List Command}
      (hedge : (location, target, commands) ∈ draft.edges)
  | target {source : Location} {commands : List Command}
      (hedge : (source, location, commands) ∈ draft.edges)
  | error {constraints : List Constraint} (herror : (location, constraints) ∈ draft.errors)

/-- The draft names the clock, other than in an error condition that was replaced. -/
inductive NamesClock (draft : AutomatonDraft) (clock : Clock) : Prop
  | invariant {location : Location} {constraint : Constraint}
      (hinvariant : (location, constraint) ∈ draft.invariants) (hclock : clock ∈ constraint.clocks)
  | command {source target : Location} {commands : List Command} {command : Command}
      (hedge : (source, target, commands) ∈ draft.edges) (hcommand : command ∈ commands)
      (hclock : clock ∈ command.clocks)
  | error {location : Location} {constraints : List Constraint} {constraint : Constraint}
      (hlast : draft.lastError? location = some constraints)
      (hconstraint : constraint ∈ constraints) (hclock : clock ∈ constraint.clocks)

/-- There is an initial location, and all that is named was declared. -/
structure Declared (draft : AutomatonDraft) : Prop where
  initial : ∃ location, draft.initial = some location
  location : ∀ location, draft.NamesLocation location → location.index < draft.locations.length
  clock : ∀ clock, draft.NamesClock clock → clock.id ≤ draft.clockNames.length

/-- The failures of building that are to be expected: reports of what is named and was not declared,
and overflows. -/
def Refuses (draft : AutomatonDraft) : Failure ModelError → Prop
  | .reported .noInitialLocation => draft.initial = none
  | .reported (.unknownLocation location) =>
    draft.NamesLocation location ∧ ¬location.index < draft.locations.length
  | .reported (.unknownClock clock) =>
    draft.NamesClock clock ∧ ¬clock.id ≤ draft.clockNames.length
  | .broken fault => fault.IsOverflow

/-- If all is declared, only overflows are left. -/
theorem Declared.isOverflow (hdeclared : draft.Declared) {failure : Failure ModelError}
    (hrefuses : draft.Refuses failure) : failure.IsOverflow := by
  rcases failure with (_ | location | clock) | fault
  · obtain ⟨initial, hinitial⟩ := hdeclared.initial
    exact absurd (hinitial.symm.trans hrefuses) (Option.some_ne_none initial)
  · exact absurd (hdeclared.location location hrefuses.1) hrefuses.2
  · exact absurd (hdeclared.clock clock hrefuses.1) hrefuses.2
  · exact hrefuses

/-! ### Checks -/

theorem checkLocation_yields {location : Location}
    (hadmitted : ¬location.index < draft.locations.length →
      admitted (.reported (.unknownLocation location))) :
    Yields admitted (draft.checkLocation location)
      fun _ ↦ location.index < draft.locations.length := by
  unfold checkLocation
  split_ifs with hlocation
  · exact hlocation
  · exact hadmitted hlocation

theorem checkClocks_yields {clocks : List Clock}
    (hadmitted : ∀ clock ∈ clocks, ¬clock.id ≤ draft.clockNames.length →
      admitted (.reported (.unknownClock clock))) :
    Yields admitted (draft.checkClocks clocks)
      fun _ ↦ ∀ clock ∈ clocks, clock.id ≤ draft.clockNames.length := by
  unfold checkClocks
  cases hfind : clocks.find? fun clock ↦ draft.clockNames.length < clock.id with
  | none => simpa using hfind
  | some clock =>
    have hbeyond : draft.clockNames.length < clock.id := by simpa using List.find?_some hfind
    exact hadmitted clock (List.mem_of_find?_eq_some hfind) (not_le.mpr hbeyond)

theorem checkInvariant_yields {entry : Location × Constraint}
    (hentry : entry ∈ draft.invariants) :
    Yields draft.Refuses (draft.checkInvariant entry) fun _ ↦
      entry.1.index < draft.locations.length ∧ entry.2.Within draft.clockNames.length := by
  refine (checkLocation_yields fun hunknown ↦ ⟨.invariant hentry, hunknown⟩).bind
    fun _ hlocation ↦ ?_
  refine (checkClocks_yields fun clock hclock hunknown ↦
    ⟨.invariant hentry hclock, hunknown⟩).mono fun _ hclocks ↦ ?_
  exact ⟨hlocation, hclocks⟩

theorem checkEdge_yields {edge : Location × Location × List Command}
    (hedge : edge ∈ draft.edges) :
    Yields draft.Refuses (draft.checkEdge edge) fun _ ↦
      edge.1.index < draft.locations.length ∧ edge.2.1.index < draft.locations.length ∧
        ∀ command ∈ edge.2.2, ∀ clock ∈ command.clocks, clock.id ≤ draft.clockNames.length := by
  refine (checkLocation_yields fun hunknown ↦ ⟨.source hedge, hunknown⟩).bind fun _ hsource ↦ ?_
  refine (checkLocation_yields fun hunknown ↦ ⟨.target hedge, hunknown⟩).bind fun _ htarget ↦ ?_
  refine (Yields.forM fun command hcommand ↦ checkClocks_yields fun clock hclock hunknown ↦
    ⟨.command hedge hcommand hclock, hunknown⟩).mono fun _ hclocks ↦ ?_
  exact ⟨hsource, htarget, hclocks⟩

/-! ### Parts -/

@[simp] theorem length_places (draft : AutomatonDraft) :
    draft.places.length = draft.locations.length := by
  simp [places]

theorem invariants_of_mem_places {place : Place} (hplace : place ∈ draft.places)
    {constraint : Constraint} (hconstraint : constraint ∈ place.invariants) :
    ∃ location, (location, constraint) ∈ draft.invariants := by
  obtain ⟨⟨⟨name, urgent⟩, index⟩, -, rfl⟩ := List.mem_map.mp hplace
  obtain ⟨⟨location, other⟩, hmem, hsome⟩ := List.mem_filterMap.mp hconstraint
  simp only at hsome
  split_ifs at hsome
  obtain rfl := Option.some.inj hsome
  exact ⟨location, hmem⟩

theorem getElem?_numberedEdges {index : Nat} {edge : Edge}
    (hedge : draft.numberedEdges[index]? = some edge) :
    edge.id = ⟨index⟩ ∧ (edge.source, edge.target, edge.commands) ∈ draft.edges := by
  simp only [numberedEdges, List.getElem?_map, List.getElem?_zipIdx, Option.map_map,
    Option.map_eq_some_iff] at hedge
  obtain ⟨declared, hdeclared, rfl⟩ := hedge
  exact ⟨by simp, List.mem_of_getElem? hdeclared⟩

/-! ### Error conditions -/

theorem approach_yields (hmay : Tolerant may) {place : Place} {zone : Zone} {clocks : Nat}
    {valuations : Valuation → Prop} (hzone : zone.Denotes clocks valuations)
    (hinvariants : ∀ constraint ∈ place.invariants, constraint.Tolerated may clocks) :
    Yields may (approach place zone) (·.Denotes clocks fun valuation ↦
      valuation.NonNegative ∧ valuation.Satisfies place.invariants ∧
        ∃ final, valuation.Waits final place.urgent place.invariants ∧ valuations final) := by
  obtain rfl := hzone.clocks_eq
  refine (Draft.restrictAll_yields hmay (Draft.denotes_draft hzone) hinvariants).bind
    fun allowed hallowed ↦ ?_
  have hnonnegative : ∀ valuation, valuations valuation ∧ valuation.Satisfies place.invariants →
      valuation.NonNegative := fun valuation hvaluation ↦
    Zone.nonNegative_of_mem hzone.canonical ((hzone.mem_iff valuation).mpr hvaluation.1)
  refine (Draft.undelay_yields hmay hallowed hnonnegative place.urgent).bind
    fun earlier hearlier ↦ ?_
  refine (Draft.restrictAll_yields hmay hearlier hinvariants).bind fun waiting hwaiting ↦ ?_
  refine (Draft.finish_yields hmay hwaiting).mono fun finished hfinished ↦
    hfinished.congr fun valuation ↦ ?_
  constructor
  · rintro ⟨⟨hsign, duration, hduration, hurgent, hfinal, hsatisfies⟩, hhere⟩
    exact ⟨hsign, hhere, valuation.later duration,
      ⟨duration, hduration, hurgent, rfl, hsatisfies⟩, hfinal⟩
  · rintro ⟨hsign, hhere, final, ⟨duration, hduration, hurgent, rfl, hsatisfies⟩, hfinal⟩
    exact ⟨⟨hsign, duration, hduration, hurgent, hfinal, hsatisfies⟩, hhere⟩

/-- The condition is the one that the constraints declare for the location: its zone holds what
satisfies them, and its approach what can wait into the zone. -/
structure Declares (draft : AutomatonDraft) (location : Location) (constraints : List Constraint)
    (condition : ErrorCondition) : Prop where
  location_eq : condition.location = location
  declared : location.index < draft.locations.length
  within : ∀ constraint ∈ constraints, constraint.Within draft.clockNames.length
  zone : condition.zone.Denotes draft.clockNames.length fun valuation ↦
    (valuation.clocks = draft.clockNames.length ∧ valuation.NonNegative) ∧
      valuation.Satisfies constraints
  approach : ∃ place, draft.places[location.index]? = some place ∧
    condition.approach.Denotes draft.clockNames.length fun valuation ↦
      valuation.NonNegative ∧ valuation.Satisfies place.invariants ∧
        ∃ final, valuation.Waits final place.urgent place.invariants ∧ final ∈ condition.zone

/-- Restricting by the constraints of an error condition checks their clocks. -/
theorem restrictChecked_yields {location : Location} {constraints : List Constraint}
    (hlast : draft.lastError? location = some constraints) :
    Yields draft.Refuses (constraints.foldlM draft.restrictChecked
      (Zone.top draft.clockNames.length).draft) fun restricted ↦
        (∀ constraint ∈ constraints, constraint.Within draft.clockNames.length) ∧
          restricted.Denotes fun valuation ↦
            (valuation.clocks = draft.clockNames.length ∧ valuation.NonNegative) ∧
              valuation.Satisfies constraints := by
  refine Yields.foldlM (fun done (current : Draft draft.clockNames.length) ↦
    (∀ constraint ∈ done, constraint.Within draft.clockNames.length) ∧
      current.Denotes fun valuation ↦
        (valuation.clocks = draft.clockNames.length ∧ valuation.NonNegative) ∧
          valuation.Satisfies done) ⟨by simp, ?_⟩ ?_
  · refine (Draft.denotes_draft (Zone.denotes_top _)).congr fun valuation ↦ ?_
    simp [Valuation.Satisfies]
  · rintro before constraint after helements current ⟨hbefore, hcurrent⟩
    have hmem : constraint ∈ constraints := by simp [helements]
    refine (checkClocks_yields fun clock hclock hunknown ↦
      ⟨.error hlast hmem hclock, hunknown⟩).bind fun _ hclocks ↦ ?_
    have hwithin : constraint.Within draft.clockNames.length := hclocks
    refine ((Draft.restrict_yields tolerant_isOverflow hcurrent (hwithin.tolerated _)).lift
      fun _ hoverflow ↦ hoverflow).mono fun restricted hrestricted ↦ ⟨?_, ?_⟩
    · exact List.forall_mem_append.mpr ⟨hbefore, List.forall_mem_singleton.mpr hwithin⟩
    · refine hrestricted.congr fun valuation ↦ ?_
      simp only [Valuation.Satisfies, List.forall_mem_append, List.forall_mem_singleton, and_assoc]

theorem errorCondition_yields
    (hinvariants : ∀ entry ∈ draft.invariants, entry.2.Within draft.clockNames.length)
    {location : Location} {constraints : List Constraint}
    (hlast : draft.lastError? location = some constraints) :
    Yields draft.Refuses (draft.errorCondition location constraints)
      (draft.Declares location constraints) := by
  refine (checkLocation_yields fun hunknown ↦
    ⟨.error (mem_of_lastError hlast), hunknown⟩).bind fun _ hlocation ↦ ?_
  refine (restrictChecked_yields hlast).bind ?_
  rintro restricted ⟨hwithin, hrestricted⟩
  refine ((Draft.finish_yields tolerant_isOverflow hrestricted).lift
    fun _ hoverflow ↦ hoverflow).bind fun zone hzone ↦ ?_
  obtain ⟨place, hplace⟩ : ∃ place, draft.places[location.index]? = some place :=
    ⟨_, List.getElem?_eq_getElem (by rwa [length_places])⟩
  have htolerated : ∀ constraint ∈ place.invariants,
      constraint.Tolerated Fault.IsOverflow draft.clockNames.length := by
    intro constraint hconstraint
    obtain ⟨other, hmem⟩ := invariants_of_mem_places (List.mem_of_getElem? hplace) hconstraint
    exact (hinvariants _ hmem).tolerated _
  rw [hplace]
  refine ((approach_yields tolerant_isOverflow hzone.members htolerated).lift
    fun _ hoverflow ↦ hoverflow).bind fun approach happroach ↦ ?_
  exact ⟨rfl, hlocation, hwithin, hzone, place, hplace, happroach⟩

/-! ### Building -/

/-- The automaton consists of the parts that the draft declares. -/
structure Assembles (draft : AutomatonDraft) (automaton : Automaton) : Prop where
  declared : draft.Declared
  clockNames : automaton.clockNames = draft.clockNames
  places : automaton.places = draft.places
  edges : automaton.edges = draft.numberedEdges
  initial : draft.initial = some automaton.initial
  errors : List.Forall₂ (fun entry condition ↦ draft.Declares entry.1 entry.2 condition)
    draft.effectiveErrors automaton.errors

/-- Building ends in the parts that were declared. It fails by overflow, or because something that
the draft names was not declared, and then reports it. -/
theorem build_yields (draft : AutomatonDraft) :
    Yields draft.Refuses draft.build draft.Assembles := by
  unfold build
  cases hinitial : draft.initial with
  | none => exact hinitial
  | some initial =>
    refine (checkLocation_yields fun hunknown ↦ ⟨.initial hinitial, hunknown⟩).bind
      fun _ hstart ↦ ?_
    refine (Yields.forM fun entry hentry ↦ checkInvariant_yields hentry).bind
      fun _ hinvariants ↦ ?_
    refine (Yields.forM fun edge hedge ↦ checkEdge_yields hedge).bind fun _ hedges ↦ ?_
    refine (Yields.mapM fun entry hentry ↦ errorCondition_yields
      (fun invariant hmem ↦ (hinvariants invariant hmem).2)
      (mem_effectiveErrors_iff.mp hentry)).bind fun errors herrors ↦ ?_
    have heffective : ∀ location constraints, draft.lastError? location = some constraints →
        ∃ condition, draft.Declares location constraints condition := by
      intro location constraints hlast
      obtain ⟨condition, -, hdeclares⟩ :=
        Yields.exists_related herrors.flip (mem_effectiveErrors_iff.mpr hlast)
      exact ⟨condition, hdeclares⟩
    refine ⟨⟨⟨initial, hinitial⟩, ?_, ?_⟩, rfl, rfl, rfl, hinitial, herrors⟩
    · rintro location (hnamed | hnamed | hnamed | hnamed | hnamed)
      · exact Option.some.inj (hinitial.symm.trans hnamed) ▸ hstart
      · exact (hinvariants _ hnamed).1
      · exact (hedges _ hnamed).1
      · exact (hedges _ hnamed).2.1
      · obtain ⟨constraints, hlast⟩ := exists_lastError hnamed
        obtain ⟨condition, hdeclares⟩ := heffective location constraints hlast
        exact hdeclares.declared
    · rintro clock (⟨hnamed, hclock⟩ | ⟨hnamed, hcommand, hclock⟩ | ⟨hlast, hconstraint, hclock⟩)
      · exact (hinvariants _ hnamed).2 clock hclock
      · exact (hedges _ hnamed).2.2 _ hcommand clock hclock
      · obtain ⟨condition, hdeclares⟩ := heffective _ _ hlast
        exact hdeclares.within _ hconstraint clock hclock

theorem assembles_of_build {automaton : Automaton} (hbuild : draft.build = .ok automaton) :
    draft.Assembles automaton :=
  (build_yields draft).result hbuild

end TimedSafety.AutomatonDraft
