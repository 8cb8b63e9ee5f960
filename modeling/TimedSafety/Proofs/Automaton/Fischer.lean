import TimedSafety.Automaton.Fischer
import TimedSafety.Proofs.Automaton.Building

/-!
Fischer's protocol keeps the critical sections apart, whatever the deadline, and its lenient variant
does not.

What a process can do in a situation is given by five rules (`Acts`), and what the protocol can
reach by following them with any delays in between (`Reaches`). The automaton of the protocol has
just these runs (`Declares.run_iff`). Mutual exclusion is an invariant of the rules (`Excludes`):
the process in its critical section owns the shared variable and no other process has a request, and
a process that waits as the owner has the smaller clock as long as the other one's request is open.
In the lenient variant both clocks can stand at the deadline at once, which lets both processes in.
-/

set_option autoImplicit false

namespace TimedSafety

/-- The results of a mapping to lists are, together, what the elements have. -/
theorem Yields.mem_flatten_iff {α β : Type} {property : α → β → Prop} {elements : List α}
    {results : List (List β)}
    (hrelated : List.Forall₂ (fun element found ↦ ∀ value, value ∈ found ↔ property element value)
      elements results) (value : β) :
    value ∈ results.flatten ↔ ∃ element ∈ elements, property element value := by
  rw [List.mem_flatten]
  constructor
  · rintro ⟨found, hfound, hvalue⟩
    obtain ⟨element, helement, hproperty⟩ := Yields.exists_related hrelated hfound
    exact ⟨element, helement, (hproperty value).mp hvalue⟩
  · rintro ⟨element, helement, hvalue⟩
    obtain ⟨found, hfound, hproperty⟩ := Yields.exists_related hrelated.flip helement
    exact ⟨found, hfound, (hproperty value).mpr hvalue⟩

namespace Fischer

/-! ### Processes and situations -/

namespace Process

/-- The other process. -/
def other : Process → Process
  | first => second
  | second => first

@[simp] theorem mem_all (process : Process) : process ∈ all := by
  cases process <;> decide

theorem other_ne (process : Process) : process.other ≠ process := by
  cases process <;> decide

theorem eq_or_eq_other (process given : Process) : given = process ∨ given = process.other := by
  cases process <;> cases given <;> decide

@[simp] theorem other_other (process : Process) : process.other.other = process := by
  cases process <;> rfl

theorem number_other_ne (process : Process) : process.other.number ≠ process.number := by
  cases process <;> decide

theorem number_ne_zero (process : Process) : process.number ≠ 0 := by
  cases process <;> decide

theorem number_lt (process : Process) : process.number < 3 := by
  cases process <;> decide

end Process

namespace Situation

variable {situation : Situation}

theorem mem_all_iff : situation ∈ all ↔ situation.shared < 3 := by
  obtain ⟨first, second, shared⟩ := situation
  cases first <;> cases second <;> simp [all, Phase.all]

/-- A situation stands at its location in the order of all. -/
theorem getElem?_location (hsituation : situation ∈ all) :
    all[situation.location.index]? = some situation := by
  have hall : ∀ situation ∈ all, all[situation.location.index]? = some situation := by decide
  exact hall situation hsituation

theorem location_injective {given : Situation} (hsituation : situation ∈ all) (hgiven : given ∈ all)
    (hlocation : situation.location = given.location) : situation = given := by
  have hfound := getElem?_location hsituation
  rw [hlocation, getElem?_location hgiven] at hfound
  exact (Option.some.inj hfound).symm

@[simp] theorem shared_enter (process : Process) (phase : Phase) (shared : Nat) :
    (situation.enter process phase shared).shared = shared := by
  cases process <;> rfl

theorem phase_enter (process given : Process) (phase : Phase) (shared : Nat) :
    (situation.enter process phase shared).phase given =
      if given = process then phase else situation.phase given := by
  cases process <;> cases given <;> rfl

@[simp] theorem phase_enter_self (process : Process) (phase : Phase) (shared : Nat) :
    (situation.enter process phase shared).phase process = phase := by
  rw [phase_enter, if_pos rfl]

@[simp] theorem phase_enter_other (process : Process) (phase : Phase) (shared : Nat) :
    (situation.enter process phase shared).phase process.other =
      situation.phase process.other := by
  rw [phase_enter, if_neg process.other_ne]

end Situation

/-! ### The rules of the protocol -/

/-- The comparison of a clock with the deadline that lets a process in. -/
def entry (lenient : Bool) : Comparison := if lenient then .atLeast else .greater

/-- What a process can do in a situation: where that leads, and the commands. -/
inductive Acts (deadline : Int) (lenient : Bool) (situation : Situation) (process : Process) :
    Situation → List Command → Prop
  | ask (hphase : situation.phase process = .idle) (hfree : situation.shared = 0) :
      Acts deadline lenient situation process (situation.enter process .request 0)
        [.reset process.clock 0]
  | claim (hphase : situation.phase process = .request) :
      Acts deadline lenient situation process (situation.enter process .wait process.number)
        [.reset process.clock 0]
  | proceed (hphase : situation.phase process = .wait)
      (howner : situation.shared = process.number) :
      Acts deadline lenient situation process (situation.enter process .critical process.number)
        [.guard (.compare process.clock none (entry lenient) deadline)]
  | withdraw (hphase : situation.phase process = .wait)
      (hlost : situation.shared ≠ process.number) :
      Acts deadline lenient situation process (situation.enter process .idle situation.shared) []
  | leave (hphase : situation.phase process = .critical) :
      Acts deadline lenient situation process (situation.enter process .idle 0) []

/-- The clock of a process. -/
def reading (valuation : Valuation) (process : Process) : Rat := valuation.coordinate process.number

/-- No request is open for longer than the deadline. -/
def InTime (deadline : Int) (situation : Situation) (valuation : Valuation) : Prop :=
  ∀ process, situation.phase process = .request → reading valuation process ≤ deadline

/-- The protocol can be in the situation, with the valuation on entry: processes act one after the
other, each after some delay, and requests are left in time. -/
inductive Reaches (deadline : Int) (lenient : Bool) : Situation → Valuation → Prop
  | start : Reaches deadline lenient ⟨.idle, .idle, 0⟩ (.zero 2)
  | act {situation next : Situation} {before after : Valuation} {process : Process}
      {commands : List Command} {duration : Rat}
      (hreaches : Reaches deadline lenient situation before)
      (hacts : Acts deadline lenient situation process next commands) (hduration : 0 ≤ duration)
      (hready : InTime deadline situation (before.later duration))
      (hleads : Command.LeadAll commands (before.later duration) after)
      (harrived : InTime deadline next after) : Reaches deadline lenient next after

variable {deadline : Int} {lenient : Bool} {situation next : Situation} {process : Process}
  {commands : List Command} {valuation : Valuation}

/-- The situations that actions lead to are among those of the product. -/
theorem Acts.mem_all (hacts : Acts deadline lenient situation process next commands)
    (hsituation : situation ∈ Situation.all) : next ∈ Situation.all := by
  rw [Situation.mem_all_iff] at hsituation ⊢
  have hnumber := process.number_lt
  cases hacts <;> simp <;> omega

/-- Valuations on entry have two clocks, and these are not negative. -/
theorem Reaches.keeps (hreaches : Reaches deadline lenient situation valuation) :
    situation ∈ Situation.all ∧ valuation.clocks = 2 ∧ valuation.NonNegative := by
  induction hreaches with
  | start => exact ⟨by decide, Valuation.clocks_zero 2, Automaton.nonNegative_zero 2⟩
  | @act _ _ before _ _ _ duration _ hacts hduration _ hleads _ ih =>
    obtain ⟨hsituation, hclocks, hsign⟩ := ih
    have hwaits : before.Waits (before.later duration) false [] :=
      ⟨duration, hduration, nofun, rfl, nofun⟩
    exact ⟨hacts.mem_all hsituation, (hleads.keeps.1.trans hwaits.keeps.1).trans hclocks,
      hleads.keeps.2 (hwaits.keeps.2 hsign)⟩

/-! ### Readings of the clocks -/

/-- The index of the clock of a process. -/
def Process.index (process : Process) : Index 2 := ⟨process.number, process.number_lt⟩

theorem Process.index_val (process : Process) : process.index.val = process.clock.id := by
  cases process <;> rfl

theorem reading_eq_point (valuation : Valuation) (process : Process) :
    reading valuation process = valuation.point 2 process.index := rfl

theorem reading_nonneg (hclocks : valuation.clocks = 2) (hsign : valuation.NonNegative)
    (process : Process) : 0 ≤ reading valuation process := by
  exact (Valuation.nonNegative_iff hclocks).mp hsign process.index

theorem reading_later (hclocks : valuation.clocks = 2) (duration : Rat) (process : Process) :
    reading (valuation.later duration) process = reading valuation process + duration := by
  rw [reading_eq_point, Valuation.point_later hclocks,
    BoundMatrix.delayed_of_ne _ _ (Valuation.index_ne_reference process.index_val)]
  rfl

theorem reading_write (hclocks : valuation.clocks = 2) (process given : Process) (value : Rat) :
    reading (valuation.write process.clock value) given =
      if given = process then value else reading valuation given := by
  rw [reading_eq_point, Valuation.point_write hclocks process.index_val, Function.update_apply]
  cases process <;> cases given <;> rfl

/-- A comparison of the clock of a process with the deadline speaks of its reading. -/
theorem holds_iff (hclocks : valuation.clocks = 2) (process : Process) (comparison : Comparison)
    (bound : Int) : (Constraint.compare process.clock none comparison bound).holds valuation =
      .ok true ↔ comparison.test (reading valuation process) bound = true := by
  rw [Constraint.holds_unit_iff hclocks process.index_val, Valuation.point_reference, sub_zero]
  rfl

/-- A reset sets the clock of the process to zero. -/
theorem leadAll_reset_iff {before after : Valuation} (hclocks : before.clocks = 2)
    (process : Process) : Command.LeadAll [.reset process.clock 0] before after ↔
      after = before.write process.clock 0 := by
  have hleads : (Command.reset process.clock 0).Leads before after ↔
      0 ≤ ((0 : Int) : Rat) ∧ after = before.write process.clock ((0 : Int) : Rat) :=
    Command.leads_reset_iff hclocks process.index_val 0
  constructor
  · rintro (_ | ⟨hfirst, hrest⟩)
    obtain rfl := Command.leadAll_nil_iff.mp hrest
    simpa using (hleads.mp hfirst).2
  · rintro rfl
    exact .next (hleads.mpr ⟨by simp, by simp⟩) (.done _)

/-- A guard leaves the valuation as it is. -/
theorem leadAll_guard_iff {before after : Valuation} (hclocks : before.clocks = 2)
    (process : Process) (comparison : Comparison) (bound : Int) :
    Command.LeadAll [.guard (.compare process.clock none comparison bound)] before after ↔
      comparison.test (reading before process) bound = true ∧ after = before := by
  rw [← holds_iff hclocks]
  constructor
  · rintro (_ | ⟨hfirst, hrest⟩)
    obtain rfl := Command.leadAll_nil_iff.mp hrest
    exact Command.leads_guard_iff.mp hfirst
  · rintro ⟨hholds, rfl⟩
    exact .next (Command.leads_guard_iff.mpr ⟨hholds, rfl⟩) (.done _)

/-! ### Mutual exclusion -/

/-- A process in its critical section owns the shared variable, and the other one is idle or waits.
The owner that waits has the smaller clock while the request of the other is open. -/
structure Excludes (situation : Situation) (valuation : Valuation) : Prop where
  critical : ∀ process, situation.phase process = .critical →
    situation.shared = process.number ∧ situation.phase process.other ≠ .critical ∧
      situation.phase process.other ≠ .request
  wait : ∀ process, situation.phase process = .wait → situation.shared = process.number →
    situation.phase process.other = .request →
      reading valuation process ≤ reading valuation process.other

theorem Excludes.later (hexcludes : Excludes situation valuation) (hclocks : valuation.clocks = 2)
    (duration : Rat) : Excludes situation (valuation.later duration) := by
  refine ⟨hexcludes.critical, fun process hphase howner hother ↦ ?_⟩
  rw [reading_later hclocks, reading_later hclocks]
  exact add_le_add_left (hexcludes.wait process hphase howner hother) duration

/-- The invariant after one process has changed its phase, from what it says of either process. -/
theorem excludes_enter {phase : Phase} {shared : Nat}
    (hself : phase = .critical → shared = process.number ∧
      situation.phase process.other ≠ .critical ∧ situation.phase process.other ≠ .request)
    (hother : situation.phase process.other = .critical → shared = process.other.number ∧
      phase ≠ .critical ∧ phase ≠ .request)
    (hwait : phase = .wait → shared = process.number →
      situation.phase process.other = .request →
        reading valuation process ≤ reading valuation process.other)
    (hwaitOther : situation.phase process.other = .wait → shared = process.other.number →
      phase = .request → reading valuation process.other ≤ reading valuation process) :
    Excludes (situation.enter process phase shared) valuation := by
  constructor
  · intro given
    rcases process.eq_or_eq_other given with rfl | rfl
    · simpa using hself
    · simpa using hother
  · intro given
    rcases process.eq_or_eq_other given with rfl | rfl
    · simpa using hwait
    · simpa using hwaitOther

/-- What any process does keeps the invariant, if entering asks for more than the deadline. -/
theorem Excludes.act {ready after : Valuation} (hexcludes : Excludes situation ready)
    (hclocks : ready.clocks = 2) (hsign : ready.NonNegative)
    (hready : InTime deadline situation ready)
    (hacts : Acts deadline false situation process next commands)
    (hleads : Command.LeadAll commands ready after) : Excludes next after := by
  have hcritical := hexcludes.critical process.other
  have hnumber := process.number_other_ne
  rw [Process.other_other] at hcritical
  cases hacts with
  | ask hphase hfree =>
    -- The shared variable is free, so the other process neither owns it nor is critical.
    have hfreeOther : situation.shared ≠ process.other.number :=
      hfree ▸ process.other.number_ne_zero.symm
    refine excludes_enter nofun (fun hother ↦ ?_) nofun fun _ howner ↦ ?_
    · exact absurd (hcritical hother).1 hfreeOther
    · exact absurd howner.symm process.other.number_ne_zero
  | claim hphase =>
    obtain rfl := (leadAll_reset_iff hclocks process).mp hleads
    refine excludes_enter nofun (fun hother ↦ ?_) (fun _ _ _ ↦ ?_) fun _ howner ↦ ?_
    · exact absurd hphase (hcritical hother).2.2
    · rw [reading_write hclocks, reading_write hclocks, if_pos rfl, if_neg process.other_ne]
      exact reading_nonneg hclocks hsign process.other
    · exact absurd howner.symm hnumber
  | proceed hphase howner =>
    obtain ⟨hlate, rfl⟩ := (leadAll_guard_iff hclocks process _ _).mp hleads
    have hlonger : (deadline : Rat) < reading after process := of_decide_eq_true hlate
    refine excludes_enter (fun _ ↦ ⟨rfl, fun hother ↦ ?_, fun hother ↦ ?_⟩) (fun hother ↦ ?_) nofun
      nofun
    · exact absurd ((hcritical hother).1.symm.trans howner) hnumber
    · -- An open request is not older than the deadline, and the owner not older than that.
      have hyounger := hexcludes.wait process hphase howner hother
      exact absurd (hyounger.trans (hready process.other hother)) (not_le.mpr hlonger)
    · exact absurd ((hcritical hother).1.symm.trans howner) hnumber
  | withdraw hphase hlost =>
    obtain rfl := Command.leadAll_nil_iff.mp hleads
    refine excludes_enter nofun (fun hother ↦ ?_) nofun nofun
    exact ⟨(hcritical hother).1, nofun, nofun⟩
  | leave hphase =>
    have hother := (hexcludes.critical process hphase).2.1
    exact excludes_enter nofun (fun hentered ↦ absurd hentered hother) nofun nofun

theorem Reaches.excludes (hreaches : Reaches deadline false situation valuation) :
    Excludes situation valuation := by
  induction hreaches with
  | start =>
    exact ⟨fun process ↦ by cases process <;> nofun, fun process ↦ by cases process <;> nofun⟩
  | @act _ _ before _ _ _ duration hbefore hacts hduration hready hleads _ ih =>
    obtain ⟨-, hclocks, hsign⟩ := hbefore.keeps
    have hwaits : before.Waits (before.later duration) false [] :=
      ⟨duration, hduration, nofun, rfl, nofun⟩
    exact (ih.later hclocks duration).act (hwaits.keeps.1.trans hclocks) (hwaits.keeps.2 hsign)
      hready hacts hleads

/-- Both processes are in their critical sections. -/
def Collides (situation : Situation) : Prop := ∀ process, situation.phase process = .critical

theorem Reaches.not_collides (hreaches : Reaches deadline false situation valuation) :
    ¬ Collides situation := fun hcollides ↦
  (hreaches.excludes.critical .first (hcollides .first)).2.1 (hcollides .second)

/-! ### A collision in the lenient variant -/

theorem inTime_iff {first second : Rat} : InTime deadline situation ⟨[first, second]⟩ ↔
    (situation.first = .request → first ≤ deadline) ∧
      (situation.second = .request → second ≤ deadline) := by
  constructor
  · intro hinTime
    exact ⟨hinTime .first, hinTime .second⟩
  · rintro ⟨hfirst, hsecond⟩ process
    cases process with
    | first => exact hfirst
    | second => exact hsecond

/-- A process resets its clock after a delay. -/
theorem Reaches.reset (process : Process) {first second duration : Rat} {after : Valuation}
    (hreaches : Reaches deadline lenient situation ⟨[first, second]⟩)
    (hacts : Acts deadline lenient situation process next [.reset process.clock 0])
    (hduration : 0 ≤ duration)
    (hready : InTime deadline situation ⟨[first + duration, second + duration]⟩)
    (hafter : after = Valuation.write ⟨[first + duration, second + duration]⟩ process.clock 0)
    (harrived : InTime deadline next after) : Reaches deadline lenient next after :=
  .act hreaches hacts hduration hready ((leadAll_reset_iff rfl process).mpr hafter) harrived

/-- The owner of the lenient variant enters once its clock has come to the deadline. -/
theorem Reaches.proceed (process : Process) {first second duration : Rat}
    (hreaches : Reaches deadline true situation ⟨[first, second]⟩) (hduration : 0 ≤ duration)
    (hphase : situation.phase process = .wait) (howner : situation.shared = process.number)
    (hready : InTime deadline situation ⟨[first + duration, second + duration]⟩)
    (hlate : deadline ≤ reading ⟨[first + duration, second + duration]⟩ process)
    (harrived : InTime deadline (situation.enter process .critical process.number)
      ⟨[first + duration, second + duration]⟩) :
    Reaches deadline true (situation.enter process .critical process.number)
      ⟨[first + duration, second + duration]⟩ := by
  refine .act hreaches (.proceed hphase howner) hduration hready ?_ harrived
  rw [leadAll_guard_iff rfl]
  refine ⟨?_, rfl⟩
  simp only [entry, Comparison.test, if_true, decide_eq_true_eq]
  exact hlate

/-- If waiting as long as the deadline is enough, the first process can enter while the request of
the second is still open, and the second can claim the variable and enter as its new owner. -/
theorem exists_reaches_collides (hdeadline : 0 ≤ deadline) :
    ∃ situation valuation, Reaches deadline true situation valuation ∧ Collides situation := by
  have hdelay : (0 : Rat) ≤ deadline := by exact_mod_cast hdeadline
  have hzero : (0 : Rat) + 0 ≤ deadline := by simpa using hdelay
  have hfirstAsks : Reaches deadline true ⟨.request, .idle, 0⟩ ⟨[0, 0]⟩ :=
    Reaches.start.reset .first (.ask rfl rfl) le_rfl
      (inTime_iff.mpr ⟨by simp, by simp⟩) (by simp [Valuation.write, Process.clock])
      (inTime_iff.mpr ⟨fun _ ↦ hdelay, by simp⟩)
  have hsecondAsks : Reaches deadline true ⟨.request, .request, 0⟩ ⟨[0, 0]⟩ :=
    hfirstAsks.reset .second (.ask rfl rfl) le_rfl
      (inTime_iff.mpr ⟨fun _ ↦ hzero, by simp⟩) (by simp [Valuation.write, Process.clock])
      (inTime_iff.mpr ⟨fun _ ↦ hdelay, fun _ ↦ hdelay⟩)
  have hfirstClaims : Reaches deadline true ⟨.wait, .request, 1⟩ ⟨[0, 0]⟩ :=
    hsecondAsks.reset .first (.claim rfl) le_rfl
      (inTime_iff.mpr ⟨fun _ ↦ hzero, fun _ ↦ hzero⟩) (by simp [Valuation.write, Process.clock])
      (inTime_iff.mpr ⟨by simp, fun _ ↦ hdelay⟩)
  -- Both clocks stand at the deadline now, and the second request need not be left before.
  have hatDeadline : (0 : Rat) + deadline ≤ deadline := by simp
  have hfirstEnters : Reaches deadline true ⟨.critical, .request, 1⟩
      ⟨[0 + (deadline : Rat), 0 + (deadline : Rat)]⟩ :=
    hfirstClaims.proceed .first hdelay rfl rfl
      (inTime_iff.mpr ⟨by simp, fun _ ↦ hatDeadline⟩)
      (by simp [reading, Valuation.coordinate, Process.number])
      (inTime_iff.mpr ⟨by simp, fun _ ↦ hatDeadline⟩)
  have hsecondClaims : Reaches deadline true ⟨.critical, .wait, 2⟩ ⟨[(deadline : Rat), 0]⟩ :=
    hfirstEnters.reset .second (.claim rfl) le_rfl
      (inTime_iff.mpr ⟨by simp, fun _ ↦ by simp⟩) (by simp [Valuation.write, Process.clock])
      (inTime_iff.mpr ⟨by simp, by simp⟩)
  refine ⟨_, _, hsecondClaims.proceed .second hdelay rfl rfl
    (inTime_iff.mpr ⟨by simp, by simp⟩) (by simp [reading, Valuation.coordinate, Process.number])
    (inTime_iff.mpr ⟨by simp [Situation.enter], by simp [Situation.enter]⟩), fun process ↦ ?_⟩
  cases process <;> rfl

/-! ### The draft of the protocol -/

section Draft

variable (hrange : -maxConstant ≤ deadline ∧ deadline ≤ maxConstant)
include hrange

theorem invariants_yields (situation : Situation) :
    Yields (fun _ ↦ False) (invariants deadline situation) fun found ↦ ∀ entry, entry ∈ found ↔
      ∃ process, situation.phase process = .request ∧
        entry = (situation.location, .compare process.clock none .atMost deadline) := by
  have hbound : ∀ process ∈ Process.all.filter fun process ↦ situation.phase process = .request,
      Yields (fun _ ↦ False)
        (do let constraint ← Constraint.unit process.clock .atMost deadline
            return (situation.location, constraint) : Except Fault (Location × Constraint))
        (· = (situation.location, .compare process.clock none .atMost deadline)) := by
    intro process _
    refine (Constraint.unit_yields hrange).bind ?_
    rintro _ rfl
    rfl
  refine (Yields.mapM hbound).mono fun found hfound entry ↦ ⟨fun hentry ↦ ?_, ?_⟩
  · obtain ⟨process, hprocess, rfl⟩ := Yields.exists_related hfound hentry
    exact ⟨process, by simpa using hprocess, rfl⟩
  · rintro ⟨process, hphase, rfl⟩
    obtain ⟨_, hmem, rfl⟩ := Yields.exists_related hfound.flip
      (show process ∈ Process.all.filter _ by simpa using hphase)
    exact hmem

/-- The actions that are computed are those of the rules. -/
theorem action_yields (lenient : Bool) (situation : Situation) (process : Process) :
    Yields (fun _ ↦ False) (action deadline lenient situation process) fun found ↦
      ∀ next commands, found = some (next, commands) ↔
        Acts deadline lenient situation process next commands := by
  have hreset : Yields (fun _ ↦ False) (Command.resetTo process.clock 0)
      (· = .reset process.clock 0) := by
    rw [Command.resetTo, if_neg (lt_irrefl 0)]
    exact (checkConstant_yields fun hzero ↦ absurd (by decide) hzero).bind fun _ _ ↦ rfl
  unfold action
  cases hphase : situation.phase process with
  | idle =>
    dsimp only
    split_ifs with hfree
    · refine hreset.bind ?_
      rintro _ rfl next commands
      constructor
      · rintro ⟨⟩
        exact hfree ▸ .ask hphase hfree
      · rintro (_ | _ | _ | _ | _) <;> simp_all
    · rintro next commands
      refine ⟨by simp, ?_⟩
      rintro (_ | _ | _ | _ | _) <;> simp_all
  | request =>
    refine hreset.bind ?_
    rintro _ rfl next commands
    constructor
    · rintro ⟨⟩
      exact .claim hphase
    · rintro (_ | _ | _ | _ | _) <;> simp_all
  | wait =>
    by_cases howner : situation.shared = process.number
    · dsimp only
      rw [if_pos howner]
      refine (Constraint.unit_yields hrange).bind ?_
      rintro _ rfl next commands
      constructor
      · rintro ⟨⟩
        exact howner ▸ .proceed hphase howner
      · rintro (_ | _ | _ | _ | _) <;> simp_all [entry]
    · dsimp only
      rw [if_neg howner]
      rintro next commands
      constructor
      · rintro ⟨⟩
        exact .withdraw hphase howner
      · rintro (_ | _ | _ | _ | _) <;> simp_all
  | critical =>
    rintro next commands
    constructor
    · rintro ⟨⟩
      exact .leave hphase
    · rintro (_ | _ | _ | _ | _) <;> simp_all

theorem edgesFrom_yields (lenient : Bool) (situation : Situation) :
    Yields (fun _ ↦ False) (edgesFrom deadline lenient situation) fun found ↦
      ∀ edge, edge ∈ found ↔ ∃ process next, Acts deadline lenient situation process next edge.2.2 ∧
        edge.1 = situation.location ∧ edge.2.1 = next.location := by
  refine (Yields.mapM fun process _ ↦ action_yields hrange lenient situation process).bind
    fun actions hactions ↦ ?_
  rw [Yields.pure_iff]
  rintro ⟨source, target, commands⟩
  simp only [List.mem_map, List.mem_filterMap, id_eq, exists_eq_right, Prod.mk.injEq, Prod.exists]
  constructor
  · rintro ⟨next, _, hmem, rfl, rfl, rfl⟩
    obtain ⟨process, -, hfound⟩ := Yields.exists_related hactions hmem
    exact ⟨process, next, (hfound _ _).mp rfl, rfl, rfl⟩
  · rintro ⟨process, next, hacts, rfl, rfl⟩
    obtain ⟨_, hmem, hfound⟩ := Yields.exists_related hactions.flip process.mem_all
    obtain rfl := (hfound next commands).mpr hacts
    exact ⟨next, commands, hmem, rfl, rfl, rfl⟩

end Draft

/-- The draft declares the situations, bounds the requests in each, and has an edge for every
action. -/
structure Declares (deadline : Int) (lenient : Bool) (draft : AutomatonDraft) : Prop where
  clockNames : draft.clockNames.length = 2
  locations : draft.locations = Situation.all.map fun situation ↦ (situation.name, false)
  initial : draft.initial = some (Situation.location ⟨.idle, .idle, 0⟩)
  invariants : ∀ entry, entry ∈ draft.invariants ↔ ∃ situation ∈ Situation.all, ∃ process,
    situation.phase process = .request ∧
      entry = (situation.location, .compare process.clock none .atMost deadline)
  edges : ∀ edge, edge ∈ draft.edges ↔ ∃ situation ∈ Situation.all, ∃ process next,
    Acts deadline lenient situation process next edge.2.2 ∧
      edge.1 = situation.location ∧ edge.2.1 = next.location
  errors : ∀ entry ∈ draft.errors, ∃ situation ∈ Situation.all, Collides situation ∧
    entry = (situation.location, [])

theorem draft_yields (hrange : -maxConstant ≤ deadline ∧ deadline ≤ maxConstant) (lenient : Bool) :
    Yields (fun _ ↦ False) (draft deadline lenient) (Declares deadline lenient) := by
  refine (Yields.mapM fun situation _ ↦ invariants_yields hrange situation).bind
    fun invariants hinvariants ↦ ?_
  refine (Yields.mapM fun situation _ ↦ edgesFrom_yields hrange lenient situation).bind
    fun edges hedges ↦ ?_
  refine ⟨rfl, rfl, rfl, Yields.mem_flatten_iff hinvariants, Yields.mem_flatten_iff hedges, ?_⟩
  intro entry hentry
  obtain ⟨situation, hsituation, rfl⟩ := List.mem_map.mp hentry
  obtain ⟨hmem, hcritical⟩ := List.mem_filter.mp hsituation
  have hboth : situation.first = .critical ∧ situation.second = .critical := by
    simpa using hcritical
  refine ⟨situation, hmem, fun process ↦ ?_, rfl⟩
  cases process with
  | first => exact hboth.1
  | second => exact hboth.2

namespace Declares

variable {draft : AutomatonDraft} {automaton : Automaton}

theorem getElem?_locations (hdeclares : Declares deadline lenient draft)
    (hsituation : situation ∈ Situation.all) :
    draft.locations[situation.location.index]? = some (situation.name, false) := by
  rw [hdeclares.locations, List.getElem?_map, Situation.getElem?_location hsituation]
  rfl

theorem location_lt (hdeclares : Declares deadline lenient draft)
    (hsituation : situation ∈ Situation.all) :
    situation.location.index < draft.locations.length :=
  (List.getElem?_eq_some_iff.mp (hdeclares.getElem?_locations hsituation)).1

/-- The invariants that are declared for a situation bound its requests. -/
theorem mem_invariants_iff (hdeclares : Declares deadline lenient draft)
    (hsituation : situation ∈ Situation.all) (constraint : Constraint) :
    (situation.location, constraint) ∈ draft.invariants ↔ ∃ process,
      situation.phase process = .request ∧
        constraint = .compare process.clock none .atMost deadline := by
  rw [hdeclares.invariants]
  constructor
  · rintro ⟨given, hgiven, process, hphase, hentry⟩
    obtain ⟨hlocation, rfl⟩ := Prod.mk.inj hentry
    obtain rfl := Situation.location_injective hsituation hgiven hlocation
    exact ⟨process, hphase, rfl⟩
  · rintro ⟨process, hphase, rfl⟩
    exact ⟨situation, hsituation, process, hphase, rfl⟩

/-- Where both processes are critical nothing is asked, so the error condition can be computed. -/
theorem exists_errorCondition (hdeclares : Declares deadline lenient draft)
    (hsituation : situation ∈ Situation.all) (hcollides : Collides situation) :
    ∃ condition, draft.errorCondition situation.location [] = .ok condition := by
  obtain ⟨place, hplace, -, hinvariants⟩ :=
    AutomatonDraft.getElem?_places (hdeclares.getElem?_locations hsituation)
  have hfree : place.invariants = [] := by
    refine List.eq_nil_iff_forall_not_mem.mpr fun constraint hconstraint ↦ ?_
    obtain ⟨process, hphase, -⟩ := (hdeclares.mem_invariants_iff hsituation constraint).mp
      ((hinvariants constraint).mp hconstraint)
    rw [hcollides process] at hphase
    contradiction
  exact AutomatonDraft.exists_errorCondition_nil hplace hfree

theorem resolves (hdeclares : Declares deadline lenient draft) : draft.Resolves := by
  have hclock : ∀ process : Process, process.clock.id ≤ draft.clockNames.length := by
    intro process
    rw [hdeclares.clockNames]
    cases process <;> decide
  constructor
  · exact ⟨_, hdeclares.initial, hdeclares.location_lt (by decide)⟩
  · intro entry hentry
    obtain ⟨situation, hsituation, process, -, rfl⟩ := (hdeclares.invariants entry).mp hentry
    refine ⟨hdeclares.location_lt hsituation, ?_⟩
    simpa [Constraint.Within, Constraint.clocks] using hclock process
  · rintro ⟨source, target, commands⟩ hedge
    obtain ⟨situation, hsituation, process, next, hacts, rfl, rfl⟩ := (hdeclares.edges _).mp hedge
    refine ⟨hdeclares.location_lt hsituation, hdeclares.location_lt (hacts.mem_all hsituation), ?_⟩
    cases hacts <;> simp [Command.clocks, Constraint.clocks, hclock]
  · intro entry hentry
    obtain ⟨situation, hsituation, hcollides, rfl⟩ := hdeclares.errors entry hentry
    exact hdeclares.exists_errorCondition hsituation hcollides

/-! ### The automaton of the protocol -/

variable (hdeclares : Declares deadline lenient draft)
  (hbuilt : AutomatonDraft.BuiltFrom automaton draft)
include hdeclares hbuilt

theorem clocks_eq : automaton.clocks = 2 := by
  rw [Automaton.clocks, hbuilt.clockNames, hdeclares.clockNames]

/-- The place of a situation asks that its requests are in time. -/
theorem exists_place (hsituation : situation ∈ Situation.all) :
    ∃ place, automaton.place situation.location = .ok place ∧ place.urgent = false ∧
      ∀ valuation : Valuation, valuation.clocks = 2 →
        (valuation.Satisfies place.invariants ↔ InTime deadline situation valuation) := by
  obtain ⟨place, hplace, hurgent, hinvariants⟩ :=
    hbuilt.exists_place (hdeclares.getElem?_locations hsituation)
  refine ⟨place, hplace, hurgent, fun valuation hclocks ↦ ?_⟩
  have hbound : ∀ process : Process,
      (Constraint.compare process.clock none .atMost deadline).holds valuation = .ok true ↔
        reading valuation process ≤ deadline := by
    intro process
    rw [holds_iff hclocks]
    simp [Comparison.test]
  constructor
  · intro hsatisfies process hphase
    refine (hbound process).mp (hsatisfies _ ((hinvariants _).mpr ?_))
    exact (hdeclares.mem_invariants_iff hsituation _).mpr ⟨process, hphase, rfl⟩
  · intro hinTime constraint hconstraint
    obtain ⟨process, hphase, rfl⟩ := (hdeclares.mem_invariants_iff hsituation constraint).mp
      ((hinvariants constraint).mp hconstraint)
    exact (hbound process).mpr (hinTime process hphase)

/-- A move between situations waits while requests are in time, does its commands, and arrives with
all requests in time. -/
theorem leads_iff (hsituation : situation ∈ Situation.all) (hnext : next ∈ Situation.all)
    {id : EdgeId} {move : Move} (hmove : automaton.move id = .ok move)
    (hsource : move.source = situation.location) (htarget : move.target = next.location)
    {before after : Valuation} (hclocks : before.clocks = 2) :
    move.Leads before after ↔ ∃ duration, 0 ≤ duration ∧
      InTime deadline situation (before.later duration) ∧
      Command.LeadAll move.commands (before.later duration) after ∧
      InTime deadline next after := by
  obtain ⟨edge, -, -, hof⟩ := Automaton.moveOf_of_move hbuilt.wellFormed hmove
  obtain ⟨source, hsourcePlace, hsourceInvariants, hsourceUrgent⟩ := hof.sourcePlace
  obtain ⟨target, htargetPlace, htargetInvariants⟩ := hof.targetPlace
  obtain ⟨place, hplace, hurgent, hinTime⟩ := exists_place hdeclares hbuilt hsituation
  obtain ⟨arrival, harrival, -, harrived⟩ := exists_place hdeclares hbuilt hnext
  rw [← hof.source, hsource, hplace] at hsourcePlace
  rw [← hof.target, htarget, harrival] at htargetPlace
  obtain rfl := Except.ok.inj hsourcePlace
  obtain rfl := Except.ok.inj htargetPlace
  have hlater : ∀ duration, (before.later duration).clocks = 2 :=
    fun duration ↦ (Valuation.clocks_later before duration).trans hclocks
  simp only [Move.Leads, Valuation.Waits, hsourceInvariants, htargetInvariants, hsourceUrgent,
    hurgent]
  constructor
  · rintro ⟨_, ⟨duration, hduration, -, rfl, hready⟩, hleads, hallowed⟩
    refine ⟨duration, hduration, (hinTime _ (hlater duration)).mp hready, hleads, ?_⟩
    exact (harrived after (hleads.keeps.1.trans (hlater duration))).mp hallowed
  · rintro ⟨duration, hduration, hready, hleads, hallowed⟩
    refine ⟨_, ⟨duration, hduration, (absurd · Bool.false_ne_true), rfl, ?_⟩, hleads, ?_⟩
    · exact (hinTime _ (hlater duration)).mpr hready
    · exact (harrived after (hleads.keeps.1.trans (hlater duration))).mpr hallowed

theorem initial_eq : automaton.initial = Situation.location ⟨.idle, .idle, 0⟩ :=
  Option.some.inj (hbuilt.initial.symm.trans hdeclares.initial)

/-- The runs of the automaton reach just what the rules of the protocol reach. -/
theorem run_iff {location : Location} :
    (∃ taken, automaton.Run taken ⟨location, valuation⟩) ↔ ∃ situation,
      location = situation.location ∧ Reaches deadline lenient situation valuation := by
  constructor
  · rintro ⟨taken, hrun⟩
    generalize hhere : Configuration.mk location valuation = here at hrun
    induction hrun generalizing location valuation with
    | start hplace hallowed =>
      obtain ⟨rfl, rfl⟩ := Configuration.mk.inj hhere
      rw [clocks_eq hdeclares hbuilt]
      exact ⟨_, initial_eq hdeclares hbuilt, .start⟩
    | @step _ here _ move after hrun hmove hsource hleads ih =>
      obtain ⟨rfl, rfl⟩ := Configuration.mk.inj hhere
      obtain ⟨situation, hlocation, hreaches⟩ := ih rfl
      obtain ⟨hsituation, hclocks, -⟩ := hreaches.keeps
      obtain ⟨given, hgiven, process, next, hacts, hfrom, hto⟩ :=
        (hdeclares.edges _).mp (hbuilt.exists_move_iff.mp ⟨_, move, hmove, rfl, rfl, rfl⟩)
      obtain rfl := Situation.location_injective hsituation hgiven
        (hlocation.symm.trans (hsource.symm.trans hfrom))
      obtain ⟨duration, hduration, hready, hcommands, harrived⟩ :=
        (leads_iff hdeclares hbuilt hsituation (hacts.mem_all hsituation) hmove hfrom hto
          hclocks).mp hleads
      exact ⟨next, hto, .act hreaches hacts hduration hready hcommands harrived⟩
  · rintro ⟨situation, rfl, hreaches⟩
    induction hreaches with
    | start =>
      obtain ⟨place, hplace, -, hinTime⟩ :=
        exists_place hdeclares hbuilt (show (⟨.idle, .idle, 0⟩ : Situation) ∈ _ by decide)
      have hidle : InTime deadline ⟨.idle, .idle, 0⟩ (.zero 2) := by
        intro process
        cases process <;> nofun
      have hallowed := (hinTime (.zero 2) (Valuation.clocks_zero 2)).mpr hidle
      rw [← initial_eq hdeclares hbuilt] at hplace ⊢
      rw [← clocks_eq hdeclares hbuilt] at hallowed ⊢
      exact ⟨[], .start hplace hallowed⟩
    | @act situation next _ _ process commands duration hbefore hacts hduration hready hleads
        harrived ih =>
      obtain ⟨taken, hrun⟩ := ih
      obtain ⟨hsituation, hclocks, -⟩ := hbefore.keeps
      have hdeclared : (situation.location, next.location, commands) ∈ draft.edges :=
        (hdeclares.edges _).mpr ⟨situation, hsituation, process, next, hacts, rfl, rfl⟩
      obtain ⟨id, move, hmove, hsource, htarget, rfl⟩ := hbuilt.exists_move_iff.mpr hdeclared
      have hmoves := (leads_iff hdeclares hbuilt hsituation (hacts.mem_all hsituation) hmove
        hsource htarget hclocks).mpr ⟨duration, hduration, hready, hleads, harrived⟩
      rw [← htarget]
      exact ⟨_, .step hrun hmove hsource hmoves⟩

end Declares

/-- The protocol is built, into an automaton with the runs of its rules. -/
theorem exists_automaton (hrange : -maxConstant ≤ deadline ∧ deadline ≤ maxConstant)
    (lenient : Bool) : ∃ automaton, Fischer.automaton deadline lenient = .ok automaton ∧
      ∀ location valuation, (∃ taken, automaton.Run taken ⟨location, valuation⟩) ↔
        ∃ situation, location = situation.location ∧
          Reaches deadline lenient situation valuation := by
  obtain ⟨draft, hdraft, hdeclares⟩ := (draft_yields hrange lenient).exists_ok
  obtain ⟨automaton, hbuild⟩ := hdeclares.resolves.exists_build
  refine ⟨automaton, ?_, fun location valuation ↦ ?_⟩
  · rw [Fischer.automaton, hdraft]
    exact hbuild
  · exact hdeclares.run_iff (AutomatonDraft.builtFrom_of_build hbuild)

/-- For every deadline, no run of the protocol comes to a situation with both processes in their
critical sections, and some run of the lenient variant does. -/
theorem exclusive_iff_not_lenient (deadline : Int) (hdeadline : 0 ≤ deadline)
    (hmax : deadline ≤ maxConstant) :
    (∃ automaton, Fischer.automaton deadline false = .ok automaton ∧
      ∀ taken here, automaton.Run taken here →
        ∀ situation ∈ Situation.all, Collides situation → here.location ≠ situation.location) ∧
    ∃ automaton, Fischer.automaton deadline true = .ok automaton ∧
      ∃ taken here, automaton.Run taken here ∧
        ∃ situation ∈ Situation.all, Collides situation ∧ here.location = situation.location := by
  have hrange : -maxConstant ≤ deadline ∧ deadline ≤ maxConstant :=
    ⟨le_trans (by decide) hdeadline, hmax⟩
  obtain ⟨strict, hstrict, hstrictRuns⟩ := exists_automaton hrange false
  obtain ⟨relaxed, hrelaxed, hrelaxedRuns⟩ := exists_automaton hrange true
  refine ⟨⟨strict, hstrict, fun taken here hrun situation hsituation hcollides hlocation ↦ ?_⟩,
    relaxed, hrelaxed, ?_⟩
  · obtain ⟨reached, hreached, hreaches⟩ := (hstrictRuns _ _).mp ⟨taken, hrun⟩
    obtain rfl := Situation.location_injective hsituation hreaches.keeps.1
      (hlocation.symm.trans hreached)
    exact hreaches.not_collides hcollides
  · obtain ⟨situation, valuation, hreaches, hcollides⟩ := exists_reaches_collides hdeadline
    obtain ⟨taken, hrun⟩ := (hrelaxedRuns _ _).mpr ⟨situation, rfl, hreaches⟩
    exact ⟨taken, _, hrun, situation, hreaches.keeps.1, hcollides, rfl⟩

theorem exclusive_iff_not_lenient_two : (0 : Int) ≤ 2 ∧ 2 ≤ maxConstant ∧
    (∃ automaton, Fischer.automaton 2 false = .ok automaton ∧
      ∀ taken here, automaton.Run taken here →
        ∀ situation ∈ Situation.all, Collides situation → here.location ≠ situation.location) ∧
    ∃ automaton, Fischer.automaton 2 true = .ok automaton ∧
      ∃ taken here, automaton.Run taken here ∧
        ∃ situation ∈ Situation.all, Collides situation ∧ here.location = situation.location :=
  ⟨by decide, by decide, exclusive_iff_not_lenient 2 (by decide) (by decide)⟩

end Fischer

end TimedSafety
