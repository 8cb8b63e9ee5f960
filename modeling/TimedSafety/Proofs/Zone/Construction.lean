import TimedSafety.Proofs.Zone.Operators
import TimedSafety.Proofs.Zone.Order

/-!
Whole constructions of zones. Each operation on a draft makes a set of valuations out of another one
(`ZoneStep.image`), and a list of operations makes one set after the other. A zone that is built
from a base zone contains just the valuations that the operations make out of the base set, and its
matrix is canonical (`transform_exact`); since a set has one canonical matrix only, the moments at
which the draft is closed do not show in the result.

The zones that can be built at all are `Zone.Built`. On these the tests of matrices decide what they
are named for: inclusion, equality, emptiness, fullness and overlap (`Built.tests_decide`).
-/

set_option autoImplicit false

namespace TimedSafety

/-- An overflow, or the refusal of a constant that is too large. -/
def Fault.IsExcess : Fault → Prop
  | constantOutOfRange _ _ => True
  | fault => fault.IsOverflow

/-- Overflows and the refusal of constants are among the admitted faults. -/
structure Lenient (may : Fault → Prop) : Prop where
  tolerant : Tolerant may
  constant : ∀ value subject, may (.constantOutOfRange value subject)

theorem lenient_isExcess : Lenient Fault.IsExcess where
  tolerant fault hfault := by
    cases fault with
    | constantOutOfRange => trivial
    | _ => exact hfault
  constant _ _ := trivial

theorem lenient_true : Lenient fun _ ↦ True := ⟨tolerant_true, fun _ _ ↦ trivial⟩

/-! ### Where constructions start -/

/-- The zones that a construction can start from. -/
inductive ZoneBase where
  | top
  | zero
  | bottom

namespace ZoneBase

def zone (clocks : Nat) : ZoneBase → Zone
  | top => .top clocks
  | zero => .zero clocks
  | bottom => .bottom clocks

/-- All valuations that are not negative, the one that is zero, or none. -/
def valuations (clocks : Nat) : ZoneBase → Valuation → Prop
  | top, valuation => valuation.clocks = clocks ∧ valuation.NonNegative
  | zero, valuation => valuation = .zero clocks
  | bottom, _ => False

theorem denotes (clocks : Nat) (base : ZoneBase) :
    (base.zone clocks).Denotes clocks (base.valuations clocks) := by
  cases base with
  | top => exact Zone.denotes_top clocks
  | zero => exact Zone.denotes_zero clocks
  | bottom => exact Zone.denotes_bottom clocks

end ZoneBase

/-! ### What operations make of sets -/

namespace ZoneStep

/-- The valuations that an operation makes out of a set of them. -/
def image (step : ZoneStep) (valuations : Valuation → Prop) (after : Valuation) : Prop :=
  match step with
  | restrict constraint => valuations after ∧ constraint.holds after = .ok true
  | meet zone => valuations after ∧ after ∈ zone
  | up => ∃ before, valuations before ∧ ∃ duration, 0 ≤ duration ∧ after = before.later duration
  | down => after.NonNegative ∧ ∃ duration, 0 ≤ duration ∧ valuations (after.later duration)
  | free clock => ∃ before, valuations before ∧
      ∃ value, 0 ≤ value ∧ before.set clock value = .ok after
  | reset clock value => ∃ before, valuations before ∧
      (Command.reset clock value).apply before = .ok (some after)
  | copy clock source => ∃ before, valuations before ∧
      (Command.copy clock source).apply before = .ok (some after)
  | shift clock offset => ∃ before, valuations before ∧
      (Command.shift clock offset).apply before = .ok (some after)
  | execute command => ∃ before, valuations before ∧ command.Leads before after
  | settle => valuations after

/-- The valuations that operations make, one after the other. -/
def images (steps : List ZoneStep) (valuations : Valuation → Prop) : Valuation → Prop :=
  steps.foldl (fun current step ↦ step.image current) valuations

theorem images_append_singleton (steps : List ZoneStep) (step : ZoneStep)
    (valuations : Valuation → Prop) :
    images (steps ++ [step]) valuations = step.image (images steps valuations) := by
  simp [images]

/-! ### What an operation may be refused for -/

/-- The clocks that an operation names. -/
def clocks : ZoneStep → List Clock
  | restrict constraint => constraint.clocks
  | free clock => [clock]
  | reset clock _ => [clock]
  | copy clock source => [clock, source]
  | shift clock _ => [clock]
  | execute command => command.clocks
  | meet _ | up | down | settle => []

/-- A reset is to a value that is not negative. -/
def KeepsNonNegative : ZoneStep → Prop
  | reset _ value => 0 ≤ value
  | execute command => command.KeepsNonNegative
  | _ => True

/-- The fault for a clock out of range is admitted where it can arise, resets are not negative, and
a zone that is met is in order. -/
structure Tolerated (may : Fault → Prop) (clocks : Nat) (step : ZoneStep) : Prop where
  clock : ∀ clock ∈ step.clocks, clocks < clock.id → may (.clockOutOfRange clock clocks)
  nonNegative : step.KeepsNonNegative
  met : ∀ zone, step = meet zone → zone.Denotes clocks (· ∈ zone)

end ZoneStep

namespace Draft

variable {clocks : Nat} {may : Fault → Prop} {draft : Draft clocks}
  {valuations : Valuation → Prop}

/-- A draft after an operation contains just what the operation makes of its valuations. -/
theorem apply_yields (hmay : Lenient may) (hdraft : draft.Denotes valuations) {step : ZoneStep}
    (hstep : step.Tolerated may clocks) :
    Yields may (draft.apply step) (·.Denotes (step.image valuations)) := by
  have hconstant : ∀ (command : Command), ∀ value ∈ command.constant?,
      ¬ (-maxConstant ≤ value ∧ value ≤ maxConstant) →
        may (.constantOutOfRange value command.text) :=
    fun command value _ _ ↦ hmay.constant value command.text
  cases step with
  | restrict constraint => exact restrict_yields hmay.tolerant hdraft hstep.clock
  | meet zone => exact meet_yields hmay.tolerant hdraft (hstep.met zone rfl)
  | up => exact up_yields hmay.tolerant hdraft
  | down =>
    refine (down_yields hmay.tolerant hdraft).mono fun _ hdown ↦ hdown.congr fun after ↦ ?_
    constructor
    · rintro ⟨before, hbefore, hnonnegative, duration, hduration, rfl⟩
      exact ⟨hnonnegative, duration, hduration, hbefore⟩
    · rintro ⟨hnonnegative, duration, hduration, hbefore⟩
      exact ⟨_, hbefore, hnonnegative, duration, hduration, rfl⟩
  | free clock => exact free_yields hmay.tolerant hdraft (hstep.clock clock List.mem_cons_self)
  | reset clock value =>
    exact reset_yields hmay.tolerant hdraft ⟨hstep.clock, hconstant _, hstep.nonNegative⟩
  | copy clock source =>
    exact copy_yields hmay.tolerant hdraft ⟨hstep.clock, hconstant _, trivial⟩
  | shift clock offset =>
    exact shift_yields hmay.tolerant hdraft ⟨hstep.clock, hconstant _, trivial⟩
  | execute command =>
    exact execute_yields hmay.tolerant hdraft ⟨hstep.clock, hconstant _, hstep.nonNegative⟩
  | settle => exact (settle_yields hmay.tolerant hdraft).mono fun _ hsettled ↦ hsettled.1

theorem run_yields (hmay : Lenient may) (hdraft : draft.Denotes valuations)
    {steps : List ZoneStep} (hsteps : ∀ step ∈ steps, step.Tolerated may clocks) :
    Yields may (draft.run steps) (·.Denotes (ZoneStep.images steps valuations)) := by
  refine Yields.foldlM (fun done (current : Draft clocks) ↦
    current.Denotes (ZoneStep.images done valuations)) hdraft ?_
  intro before next after helements current hcurrent
  rw [ZoneStep.images_append_singleton]
  exact apply_yields hmay hcurrent (hsteps next (by simp [helements]))

end Draft

/-! ### Built zones -/

/-- The zones over a number of clocks that can be built from the base zones, where a zone that is
met has been built before and no reset is negative. -/
inductive Zone.Built (clocks : Nat) : Zone → Prop
  | base (base : ZoneBase) : Built clocks (base.zone clocks)
  | transform {zone made : Zone} {steps : List ZoneStep} (hzone : Built clocks zone)
      (hresets : ∀ step ∈ steps, step.KeepsNonNegative)
      (hmet : ∀ other, ZoneStep.meet other ∈ steps → Built clocks other)
      (hmade : zone.transform steps = .ok made) : Built clocks made

namespace Zone

variable {clocks : Nat} {may : Fault → Prop} {zone other third : Zone}
  {valuations : Valuation → Prop}

theorem transform_yields (hmay : Lenient may) (hzone : zone.Denotes clocks valuations)
    {steps : List ZoneStep} (hsteps : ∀ step ∈ steps, step.Tolerated may clocks) :
    Yields may (zone.transform steps) (·.Denotes clocks (ZoneStep.images steps valuations)) := by
  obtain rfl := hzone.clocks_eq
  exact (Draft.run_yields hmay (Draft.denotes_draft hzone) hsteps).bind
    fun _ hdraft ↦ Draft.finish_yields hmay.tolerant hdraft

theorem Built.denotes (hzone : zone.Built clocks) : zone.Denotes clocks (· ∈ zone) := by
  induction hzone with
  | base base => exact (base.denotes clocks).members
  | transform _ hresets _ hmade ihzone ihmet =>
    refine Denotes.members ((transform_yields lenient_true ihzone fun step hstep ↦ ?_).result hmade)
    refine ⟨fun _ _ _ ↦ trivial, hresets step hstep, ?_⟩
    rintro met rfl
    exact ihmet met hstep

/-! ### Constructions are exact -/

end Zone

namespace ZoneStep

/-- The operation only closes the draft. -/
def isSettle : ZoneStep → Bool
  | settle => true
  | _ => false

/-- The operations that do more than closing the draft. -/
def withoutSettling (steps : List ZoneStep) : List ZoneStep :=
  steps.filter fun step ↦ !step.isSettle

theorem images_withoutSettling (steps : List ZoneStep) (valuations : Valuation → Prop) :
    images (withoutSettling steps) valuations = images steps valuations := by
  induction steps generalizing valuations with
  | nil => rfl
  | cons step rest ih =>
    cases step with
    | settle => exact ih valuations
    | _ => exact ih _

theorem mem_of_withoutSettling {steps eager : List ZoneStep}
    (hsame : withoutSettling eager = withoutSettling steps) {step : ZoneStep}
    (hmem : step ∈ eager) : step = settle ∨ step ∈ steps := by
  by_cases hsettle : step.isSettle = true
  · cases step with
    | settle => exact Or.inl rfl
    | _ => contradiction
  · have hstays : step ∈ withoutSettling eager := List.mem_filter.mpr ⟨hmem, by simp [hsettle]⟩
    rw [hsame] at hstays
    exact Or.inr (List.mem_filter.mp hstays).1

/-- A construction from a base zone, over clocks in range and with resets that are not negative,
ends in a canonical matrix and contains just what its operations make out of the base set, unless it
overflows or names a constant that is too large. Closing the draft at other moments changes
nothing. -/
theorem transform_exact (clocks : Nat) (base : ZoneBase) (steps : List ZoneStep)
    (hclocks : ∀ step ∈ steps, ∀ clock ∈ step.clocks, clock.id ≤ clocks)
    (hresets : ∀ step ∈ steps, step.KeepsNonNegative)
    (hmet : ∀ zone, meet zone ∈ steps → zone.Built clocks) :
    Yields Fault.IsExcess ((base.zone clocks).transform steps) fun made ↦
      made.clocks = clocks ∧ made.matrix.Canonical ∧
      (∀ valuation, made.contains valuation = .ok true ↔
        images steps (base.valuations clocks) valuation) ∧
      ∀ eager other, withoutSettling eager = withoutSettling steps →
        (base.zone clocks).transform eager = .ok other → other = made := by
  have htolerated : ∀ step ∈ steps, step.Tolerated Fault.IsExcess clocks := by
    refine fun step hstep ↦ ⟨fun clock hclock hrange ↦ ?_, hresets step hstep, ?_⟩
    · exact absurd (hclocks step hstep clock hclock) (not_le.mpr hrange)
    · rintro zone rfl
      exact (hmet zone hstep).denotes
  refine (Zone.transform_yields lenient_isExcess (base.denotes clocks) htolerated).mono
    fun made hmade ↦ ⟨hmade.clocks_eq, hmade.canonical, hmade.mem_iff, ?_⟩
  intro eager other hsame hother
  have hlate : other.Denotes clocks (images eager (base.valuations clocks)) := by
    refine (Zone.transform_yields lenient_true (base.denotes clocks) ?_).result hother
    intro step hstep
    rcases mem_of_withoutSettling hsame hstep with rfl | hmem
    · exact ⟨fun _ _ _ ↦ trivial, trivial, nofun⟩
    · exact ⟨fun _ _ _ ↦ trivial, (htolerated step hmem).nonNegative, (htolerated step hmem).met⟩
  rw [← images_withoutSettling, hsame, images_withoutSettling] at hlate
  exact hlate.unique hmade

/-- A construction over two clocks in which all kinds of operations occur. -/
def circuit : List ZoneStep :=
  let first : Clock := ⟨1, Nat.one_pos⟩
  let second : Clock := ⟨2, Nat.two_pos⟩
  [up, restrict (.compare first none .less 5), reset second 2, meet (.top 2), shift first (-1),
    copy second first, free first, execute (.guard (.compare second (some first) .atLeast 1)),
    down]

/-- The zone that the construction ends in: the second clock is at least one, less than four, and
at least one ahead of the first. -/
def circuitZone : Zone where
  clocks := 2
  matrix := ⟨#v[#v[.atMost 0, .atMost 0, .atMost (-1)], #v[.below 3, .atMost 0, .atMost (-1)],
    #v[.below 4, .below 4, .atMost 0]]⟩

theorem transform_circuit : (ZoneBase.zero.zone 2).transform circuit = .ok circuitZone := by
  decide +kernel

theorem circuit_keepsNonNegative : ∀ step ∈ circuit, step.KeepsNonNegative := by
  simp [circuit, KeepsNonNegative, Command.KeepsNonNegative]

theorem circuit_meets_built : ∀ zone, meet zone ∈ circuit → zone.Built 2 := by
  simp only [circuit, List.mem_cons, List.not_mem_nil, meet.injEq, reduceCtorEq, false_or,
    or_false, forall_eq]
  exact .base .top

theorem circuitZone_built : circuitZone.Built 2 :=
  .transform (.base .zero) circuit_keepsNonNegative circuit_meets_built transform_circuit

theorem transform_exact_circuit : (∀ step ∈ circuit, ∀ clock ∈ step.clocks, clock.id ≤ 2) ∧
    circuitZone.matrix.Canonical ∧
    (∀ valuation, circuitZone.contains valuation = .ok true ↔
      images circuit (ZoneBase.zero.valuations 2) valuation) ∧
    ∀ eager other, withoutSettling eager = withoutSettling circuit →
      (ZoneBase.zero.zone 2).transform eager = .ok other → other = circuitZone := by
  have hclocks : ∀ step ∈ circuit, ∀ clock ∈ step.clocks, clock.id ≤ 2 := by decide
  exact ⟨hclocks, ((transform_exact 2 .zero circuit hclocks circuit_keepsNonNegative
    circuit_meets_built).result transform_circuit).2⟩

end ZoneStep

/-! ### Tests on built zones -/

namespace Zone

variable {clocks : Nat} {zone other : Zone}

/-- The tests of matrices decide what they are named for: inclusion, equality, emptiness, fullness
and overlap, the last unless it overflows. Inclusion is a partial order. -/
structure TestsDecide (clocks : Nat) (zone other : Zone) : Prop where
  subset : Yields (fun _ ↦ False) (zone.isSubset other) fun answer ↦
    (answer = true ↔ ∀ valuation ∈ zone, valuation ∈ other)
  equal : zone = other ↔ ∀ valuation, valuation ∈ zone ↔ valuation ∈ other
  bottom : zone.isBottom = true ↔ ∀ valuation, valuation ∉ zone
  top : zone.isTop = true ↔ ∀ valuation : Valuation, valuation.clocks = clocks →
    valuation.NonNegative → valuation ∈ zone
  overlap : Yields Fault.IsOverflow (zone.meets other) fun answer ↦
    (answer = true ↔ ∃ valuation, valuation ∈ zone ∧ valuation ∈ other)
  refl : zone.isSubset zone = .ok true
  antisymm : zone.isSubset other = .ok true → other.isSubset zone = .ok true → zone = other
  trans : ∀ third : Zone, third.Built clocks → zone.isSubset other = .ok true →
    other.isSubset third = .ok true → zone.isSubset third = .ok true

theorem Built.tests_decide (hzone : zone.Built clocks) (hother : other.Built clocks) :
    TestsDecide clocks zone other := by
  have hsubset : ∀ {first second : Zone}, first.Built clocks → second.Built clocks →
      (first.isSubset second = .ok true ↔ ∀ valuation ∈ first, valuation ∈ second) := by
    intro first second hfirst hsecond
    exact isSubset_eq_true_iff hfirst.denotes.canonical hsecond.denotes.canonical
      (hsecond.denotes.clocks_eq.trans hfirst.denotes.clocks_eq.symm)
  have hcanonical := hzone.denotes.canonical
  have hclocks : other.clocks = zone.clocks :=
    hother.denotes.clocks_eq.trans hzone.denotes.clocks_eq.symm
  have hext := hcanonical.ext hother.denotes.canonical hclocks
  constructor
  case subset => exact isSubset_yields hcanonical hother.denotes.canonical hclocks
  case equal => exact ⟨fun heq _ ↦ heq ▸ Iff.rfl, hext⟩
  case bottom => exact isBottom_iff hcanonical
  case top => exact hzone.denotes.clocks_eq ▸ isTop_iff hcanonical
  case overlap => exact meets_yields tolerant_isOverflow hzone.denotes hother.denotes
  case refl => exact (hsubset hzone hzone).mpr fun _ hmem ↦ hmem
  case antisymm =>
    intro hforth hback
    exact hext fun valuation ↦ ⟨(hsubset hzone hother).mp hforth valuation,
      (hsubset hother hzone).mp hback valuation⟩
  case trans =>
    intro third hthird hfirst hsecond
    exact (hsubset hzone hthird).mpr fun valuation hmem ↦
      (hsubset hother hthird).mp hsecond valuation ((hsubset hzone hother).mp hfirst valuation hmem)

theorem tests_decide_circuit : ZoneStep.circuitZone.Built 2 ∧ (top 2).Built 2 ∧
    ZoneStep.circuitZone.meets (top 2) = .ok true ∧
    TestsDecide 2 ZoneStep.circuitZone (top 2) := by
  have htop : (top 2).Built 2 := .base .top
  have hmeets : ZoneStep.circuitZone.meets (top 2) = .ok true := by decide +kernel
  exact ⟨ZoneStep.circuitZone_built, htop, hmeets, ZoneStep.circuitZone_built.tests_decide htop⟩

end Zone

end TimedSafety
