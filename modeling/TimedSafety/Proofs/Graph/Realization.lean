import TimedSafety.Proofs.Graph.Chart

/-!
Replay of a path against the runs of the automaton. A run follows a path as far as it goes if it
takes the smallest edge between any two states of the path and enters the zone of each
(`Follows`). The replay decides what such runs can do (`replay_exact`): its trace is as long as the
longest of them, each step is where one of them arrives at that position, and the path is feasible
just if one comes to its end and can wait there into an error.

A step need not be one from which the path can be followed further (`relay_step_strands`). And a
path is given by its states alone: a run through these states may need another edge than the
smallest one. So a path that is called feasible is realizable, and conversely if no two edges join
the same two states of it (`feasible_iff_realizable`), but not in general
(`parallel_relay_misjudged`).
-/

set_option autoImplicit false

namespace TimedSafety

/-- The verdict calls the path feasible. -/
def Verdict.isFeasible : Verdict → Bool
  | feasible _ => true
  | infeasible _ => false

/-- An entry of a list with one more element at its end. -/
theorem getElem?_append_singleton_cases {α : Type} {front : List α} {last found : α} {index : Nat}
    (hfound : (front ++ [last])[index]? = some found) :
    front[index]? = some found ∨ index = front.length ∧ last = found := by
  rcases Nat.lt_or_ge index front.length with hindex | hindex
  · exact Or.inl (by rwa [List.getElem?_append_left hindex] at hfound)
  · rw [List.getElem?_append_right hindex, List.getElem?_singleton] at hfound
    split_ifs at hfound with hlast
    exact Or.inr ⟨by omega, Option.some.inj hfound⟩

/-! ### Configurations of a run -/

namespace Automaton

variable {automaton : Automaton}

/-- The configurations that a run enters, the last one included. -/
def entered (taken : List (Configuration × EdgeId)) (here : Configuration) : List Configuration :=
  taken.map (·.1) ++ [here]

@[simp] theorem length_entered (taken : List (Configuration × EdgeId)) (here : Configuration) :
    (entered taken here).length = taken.length + 1 := by
  simp [entered]

theorem getElem?_entered_length (taken : List (Configuration × EdgeId)) (here : Configuration) :
    (entered taken here)[taken.length]? = some here := by
  simp [entered]

theorem entered_append (taken : List (Configuration × EdgeId)) (before here : Configuration)
    (edge : EdgeId) :
    entered (taken ++ [(before, edge)]) here = entered taken before ++ [here] := by
  simp [entered]

/-- A position after which the run goes on has been left by an edge. -/
theorem exists_taken {taken : List (Configuration × EdgeId)} {here next : Configuration}
    {index : Nat} (hnext : (entered taken here)[index + 1]? = some next) :
    ∃ configuration edge, taken[index]? = some (configuration, edge) ∧
      (entered taken here)[index]? = some configuration := by
  have hindex : index < taken.length := by
    obtain ⟨hlength, -⟩ := List.getElem?_eq_some_iff.mp hnext
    simpa using hlength
  refine ⟨taken[index].1, taken[index].2, List.getElem?_eq_getElem hindex, ?_⟩
  simp [entered, List.getElem?_append_left, hindex]

/-- A run enters its first configuration at the start. -/
theorem Run.starts {taken : List (Configuration × EdgeId)} {here first : Configuration}
    (hrun : automaton.Run taken here) (hfirst : (entered taken here)[0]? = some first) :
    first.location = automaton.initial ∧ automaton.Starts first.valuation := by
  induction hrun with
  | start hplace hallowed =>
    obtain rfl : ⟨automaton.initial, .zero automaton.clocks⟩ = first := by
      simpa [entered] using hfirst
    exact ⟨rfl, rfl, Valuation.clocks_zero _, nonNegative_zero _, _, hplace, hallowed⟩
  | step _ _ _ _ ih =>
    rw [entered_append, List.getElem?_append_left (by simp [entered])] at hfirst
    exact ih hfirst

/-- Each edge that a run takes leads from one configuration it enters to the next. -/
theorem Run.leads_at {taken : List (Configuration × EdgeId)} {here configuration : Configuration}
    {edge : EdgeId} {index : Nat} (hrun : automaton.Run taken here)
    (htaken : taken[index]? = some (configuration, edge)) :
    ∃ move next, automaton.move edge = .ok move ∧ move.source = configuration.location ∧
      (entered taken here)[index + 1]? = some next ∧ next.location = move.target ∧
      move.Leads configuration.valuation next.valuation := by
  induction hrun with
  | start => simp at htaken
  | @step taken here last move after hrun hmove hsource hleads ih =>
    rw [entered_append]
    rcases getElem?_append_singleton_cases htaken with hearlier | ⟨rfl, hlast⟩
    · obtain ⟨found, next, hfound, hfrom, hnext, hto⟩ := ih hearlier
      refine ⟨found, next, hfound, hfrom, ?_, hto⟩
      rw [List.getElem?_append_left (List.getElem?_eq_some_iff.mp hnext).1, hnext]
    · obtain ⟨rfl, rfl⟩ := Prod.mk.inj hlast
      refine ⟨move, ⟨move.target, after⟩, hmove, hsource, ?_, rfl, hleads⟩
      simp [entered]

end Automaton

namespace AbstractGraph

variable {automaton : Automaton} {graph : AbstractGraph} {path : List StateId}
  {taken : List (Configuration × EdgeId)} {here : Configuration}

/-! ### Runs along a path -/

/-- The run takes the smallest edge between consecutive states of the path, and each valuation on
entry lies in the zone of the state at its position. -/
structure Follows (graph : AbstractGraph) (path : List StateId)
    (taken : List (Configuration × EdgeId)) (here : Configuration) : Prop where
  run : graph.automaton.Run taken here
  least : ∀ (index : Nat) (configuration : Configuration) (edge : EdgeId),
    taken[index]? = some (configuration, edge) → ∃ source target, path[index]? = some source ∧
      path[index + 1]? = some target ∧ graph.LeastEdge source target edge
  inside : ∀ (index : Nat) (configuration : Configuration),
    (Automaton.entered taken here)[index]? = some configuration → ∃ id state,
      path[index]? = some id ∧ graph.state? id = some state ∧ configuration.valuation ∈ state.zone

/-- The run goes through all states of the path, by any edges: each configuration on entry is at the
location and in the zone of the state at its position. -/
structure Visits (graph : AbstractGraph) (path : List StateId)
    (taken : List (Configuration × EdgeId)) (here : Configuration) : Prop where
  run : graph.automaton.Run taken here
  complete : taken.length + 1 = path.length
  inside : ∀ (index : Nat) (configuration : Configuration),
    (Automaton.entered taken here)[index]? = some configuration → ∃ id state,
      path[index]? = some id ∧ graph.state? id = some state ∧
        configuration.location = state.location ∧ configuration.valuation ∈ state.zone

/-- Some run goes through all states of the path and can wait at the last one into an error. -/
def Realizable (graph : AbstractGraph) (path : List StateId) : Prop :=
  ∃ taken here final, graph.Visits path taken here ∧ graph.automaton.Fails here final

/-- No two edges join the same two consecutive states of the path. -/
def SingleEdged (graph : AbstractGraph) (path : List StateId) : Prop :=
  ∀ (index : Nat) (source target : StateId), path[index]? = some source →
    path[index + 1]? = some target → ∀ edge other, ⟨source, edge, target⟩ ∈ graph.transitions →
      ⟨source, other, target⟩ ∈ graph.transitions → edge = other

theorem Follows.length_lt (hfollows : graph.Follows path taken here) :
    taken.length < path.length := by
  obtain ⟨id, -, hid, -⟩ := hfollows.inside _ _ (Automaton.getElem?_entered_length taken here)
  exact (List.getElem?_eq_some_iff.mp hid).1

/-- The move along the smallest edge is the one that the replay takes. -/
theorem LeastEdge.pathMove_eq (hcharted : graph.Charted automaton) {source target : StateId}
    {edge : EdgeId} (hleast : graph.LeastEdge source target edge) {move : Move}
    (hmove : graph.automaton.move edge = .ok move) : graph.pathMove source target = .ok move :=
  pathMove_eq_ok_iff.mpr ⟨edge, hcharted.edgeBetween_eq_some_iff.mpr hleast, hmove⟩

/-- All that a run enters along the path is reached there. -/
theorem Follows.reachedAt (hcharted : graph.Charted automaton)
    (hfollows : graph.Follows path taken here) {index : Nat} {configuration : Configuration}
    (hentered : (Automaton.entered taken here)[index]? = some configuration) :
    graph.ReachedAt path index configuration.valuation := by
  induction index generalizing configuration with
  | zero => exact ⟨(hfollows.run.starts hentered).2, hfollows.inside 0 configuration hentered⟩
  | succ index ih =>
    obtain ⟨before, edge, htaken, hbefore⟩ := Automaton.exists_taken hentered
    obtain ⟨move, next, hmove, -, hnext, -, hleads⟩ := hfollows.run.leads_at htaken
    obtain rfl : next = configuration := Option.some.inj (hnext.symm.trans hentered)
    obtain ⟨source, target, hsource, htarget, hleast⟩ := hfollows.least index before edge htaken
    obtain ⟨id, state, hid, hstate, hmem⟩ := hfollows.inside _ _ hentered
    obtain rfl : target = id := Option.some.inj (htarget.symm.trans hid)
    exact ⟨source, target, move, state, before.valuation, hsource, htarget,
      hleast.pathMove_eq hcharted hmove, hstate, ih hbefore, hleads, hmem⟩

/-- Along the path, a run is at the location of each state it enters. -/
theorem Follows.location_eq (hexact : graph.Exact) (hstart : graph.StartsInitial path)
    (hfollows : graph.Follows path taken here) {index : Nat} {configuration : Configuration}
    (hentered : (Automaton.entered taken here)[index]? = some configuration) :
    ∃ id state, path[index]? = some id ∧ graph.state? id = some state ∧
      configuration.location = state.location ∧ configuration.valuation ∈ state.zone := by
  obtain ⟨id, state, hid, hstate, hmem⟩ := hfollows.inside index configuration hentered
  refine ⟨id, state, hid, hstate, ?_, hmem⟩
  cases index with
  | zero =>
    obtain ⟨first, hfirst, hhead, hinitial⟩ := hstart
    rw [List.head?_eq_getElem?, hid] at hhead
    have hfound := (state?_eq_some_iff hexact.distinct).mpr ⟨hfirst, (Option.some.inj hhead).symm⟩
    obtain rfl : first = state := Option.some.inj (hfound.symm.trans hstate)
    rw [(hfollows.run.starts hentered).1, ((hexact.flag first hfirst).mp hinitial).1]
  | succ index =>
    obtain ⟨before, edge, htaken, -⟩ := Automaton.exists_taken hentered
    obtain ⟨move, next, hmove, -, hnext, hlocation, -⟩ := hfollows.run.leads_at htaken
    obtain rfl : next = configuration := Option.some.inj (hnext.symm.trans hentered)
    obtain ⟨source, target, -, htarget, hleast⟩ := hfollows.least index before edge htaken
    obtain rfl : target = id := Option.some.inj (htarget.symm.trans hid)
    obtain ⟨-, -, second, hsecond, -, hid', found, hfound, -, harrives, -⟩ :=
      (hexact.transition_iff _).mp hleast.1
    obtain rfl : found = move := Except.ok.inj (hfound.symm.trans hmove)
    have hsame := (state?_eq_some_iff hexact.distinct).mpr ⟨hsecond, hid'⟩
    obtain rfl : second = state := Option.some.inj (hsame.symm.trans hstate)
    rw [hlocation, harrives]

/-- A run that follows the path is extended by one more smallest edge into the next state. -/
theorem Follows.extend (hfollows : graph.Follows path taken here) {source target : StateId}
    {edge : EdgeId} {move : Move} {state : AbstractState} {after : Valuation}
    (hsource : path[taken.length]? = some source)
    (htarget : path[taken.length + 1]? = some target) (hleast : graph.LeastEdge source target edge)
    (hmove : graph.automaton.move edge = .ok move) (hfrom : move.source = here.location)
    (hleads : move.Leads here.valuation after) (hstate : graph.state? target = some state)
    (hmem : after ∈ state.zone) :
    graph.Follows path (taken ++ [(here, edge)]) ⟨move.target, after⟩ := by
  refine ⟨.step hfollows.run hmove hfrom hleads, fun index configuration given htaken ↦ ?_,
    fun index configuration hentered ↦ ?_⟩
  · rcases getElem?_append_singleton_cases htaken with hearlier | ⟨rfl, hlast⟩
    · exact hfollows.least index configuration given hearlier
    · obtain ⟨-, rfl⟩ := Prod.mk.inj hlast
      exact ⟨source, target, hsource, htarget, hleast⟩
  · rw [Automaton.entered_append] at hentered
    rcases getElem?_append_singleton_cases hentered with hearlier | ⟨rfl, rfl⟩
    · exact hfollows.inside index configuration hearlier
    · rw [Automaton.length_entered]
      exact ⟨target, state, htarget, hstate, hmem⟩

/-- What is reached at a position is what runs along the path arrive with. -/
theorem reachedAt_iff (hexact : graph.Exact) (hcharted : graph.Charted automaton)
    (hstart : graph.StartsInitial path) {index : Nat} {valuation : Valuation} :
    graph.ReachedAt path index valuation ↔ ∃ taken here, graph.Follows path taken here ∧
      taken.length = index ∧ here.valuation = valuation := by
  constructor
  · intro hreached
    induction index generalizing valuation with
    | zero =>
      refine ⟨[], ⟨graph.automaton.initial, valuation⟩, ⟨?_, by simp, ?_⟩, rfl, rfl⟩
      · exact Automaton.starts_iff.mp hreached.1
      · intro index configuration hentered
        obtain ⟨rfl, rfl⟩ : index = 0 ∧ ⟨graph.automaton.initial, valuation⟩ = configuration := by
          simpa [Automaton.entered, List.getElem?_singleton] using hentered
        exact hreached.2
    | succ index ih =>
      obtain ⟨source, target, move, state, before, hsource, htarget, hmove, hstate, hbefore, hleads,
        hmem⟩ := hreached
      obtain ⟨taken, here, hfollows, rfl, rfl⟩ := ih hbefore
      obtain ⟨edge, hedge, hedgeMove⟩ := pathMove_eq_ok_iff.mp hmove
      obtain ⟨first, -, -, hfirst, -, -, hfrom, -⟩ := hexact.joins_of_pathMove hmove
      obtain ⟨id, former, hid, hformer, hlocation, -⟩ := hfollows.location_eq hexact hstart
        (Automaton.getElem?_entered_length taken here)
      obtain rfl : source = id := Option.some.inj (hsource.symm.trans hid)
      obtain rfl : first = former := Option.some.inj (hfirst.symm.trans hformer)
      exact ⟨_, _, hfollows.extend hsource htarget
        (hcharted.edgeBetween_eq_some_iff.mp hedge) hedgeMove (hfrom.symm.trans hlocation.symm)
        hleads hstate hmem, by simp, rfl⟩
  · rintro ⟨taken, here, hfollows, rfl, rfl⟩
    exact hfollows.reachedAt hcharted (Automaton.getElem?_entered_length taken here)

/-! ### The replay against runs -/

/-- Runs arrive with what is reached at the location of the state there. -/
theorem ReachedAt.exists_follows (hexact : graph.Exact) (hcharted : graph.Charted automaton)
    (hstart : graph.StartsInitial path) {index : Nat} {valuation : Valuation} {location : Location}
    (hreached : graph.ReachedAt path index valuation)
    (hlocation : path[index]?.bind graph.location? = some location) :
    ∃ taken, graph.Follows path taken ⟨location, valuation⟩ ∧ taken.length = index := by
  obtain ⟨taken, here, hfollows, rfl, rfl⟩ := (reachedAt_iff hexact hcharted hstart).mp hreached
  obtain ⟨id, state, hid, hstate, hthere, -⟩ := hfollows.location_eq hexact hstart
    (Automaton.getElem?_entered_length taken here)
  obtain rfl : here.location = location := by
    rw [hthere]
    simpa [hid, location?, hstate] using hlocation
  exact ⟨taken, hfollows, rfl⟩

/-- A path is feasible just if some run follows it to its end and can wait there into an error. -/
theorem feasible_iff (hexact : graph.Exact) (hcharted : graph.Charted automaton)
    (hstart : graph.StartsInitial path) : graph.Feasible path ↔
      ∃ taken here final, graph.Follows path taken here ∧ taken.length + 1 = path.length ∧
        graph.automaton.Fails here final := by
  constructor
  · rintro ⟨index, location, entry, final, hindex, hlocation, hreached, hfails⟩
    obtain ⟨taken, hfollows, rfl⟩ := hreached.exists_follows hexact hcharted hstart hlocation
    exact ⟨taken, _, final, hfollows, hindex, hfails⟩
  · rintro ⟨taken, here, final, hfollows, hlength, hfails⟩
    obtain ⟨id, state, hid, hstate, hthere, -⟩ := hfollows.location_eq hexact hstart
      (Automaton.getElem?_entered_length taken here)
    refine ⟨taken.length, here.location, here.valuation, final, hlength, ?_, ?_, hfails⟩
    · simp [hid, location?, hstate, hthere]
    · exact (reachedAt_iff hexact hcharted hstart).mpr ⟨taken, here, hfollows, rfl, rfl⟩

/-- The verdict on a path says just what the runs along its smallest edges can do. -/
structure VerdictExact (graph : AbstractGraph) (path : List StateId) (verdict : Verdict) :
    Prop where
  /-- The trace is as long as the path can be followed. -/
  greatest : IsGreatest {length | ∃ taken here, graph.Follows path taken here ∧
    length = taken.length + 1} verdict.trace.steps.length
  located : ∀ (index : Nat) (step : Configuration), verdict.trace.steps[index]? = some step →
    ∃ id state, path[index]? = some id ∧ graph.state? id = some state ∧
      step.location = state.location
  /-- A step is where some run arrives at its position, except for the last of a feasible path. -/
  arrives : ∀ (index : Nat) (step : Configuration), verdict.trace.steps[index]? = some step →
    (verdict.isFeasible = true → index + 1 < verdict.trace.steps.length) →
      ∃ taken, graph.Follows path taken step ∧ taken.length = index
  feasible_iff : verdict.isFeasible = true ↔ verdict.trace.steps.length = path.length ∧
    ∃ taken here final, graph.Follows path taken here ∧ taken.length + 1 = path.length ∧
      graph.automaton.Fails here final
  /-- The last step of a feasible path is an error valuation that some run waits into. -/
  fails : verdict.isFeasible = true → ∃ taken here final, graph.Follows path taken here ∧
    taken.length + 1 = path.length ∧ graph.automaton.Fails here final ∧
      verdict.trace.steps.getLast? = some ⟨here.location, final⟩

/-- The replay goes just as far as runs can follow the path. -/
theorem Judges.greatest (hexact : graph.Exact) (hcharted : graph.Charted automaton)
    (hstart : graph.StartsInitial path) {zones : List Zone} {verdict : Verdict}
    (hjudges : graph.Judges path zones verdict) :
    IsGreatest {length | ∃ taken here, graph.Follows path taken here ∧
      length = taken.length + 1} zones.length := by
  have hreached := hjudges.reached
  have hpos : 0 < zones.length := List.length_pos_iff.mpr hjudges.nonempty
  constructor
  · have hlast : zones.length - 1 < zones.length := by omega
    have hzone := hreached.denotes _ _ (List.getElem?_eq_getElem hlast)
    obtain ⟨valuation, hmem⟩ := (Zone.exists_mem_iff hzone.canonical).mp
      (hreached.nonempty _ (List.getElem_mem hlast))
    have hthere := (hzone.mem_iff valuation).mp hmem
    rw [Nat.zero_add] at hthere
    obtain ⟨taken, here, hfollows, hlength, -⟩ := (reachedAt_iff hexact hcharted hstart).mp hthere
    exact ⟨taken, here, hfollows, by omega⟩
  · rintro _ ⟨taken, here, hfollows, rfl⟩
    -- Otherwise the run would reach something where the replay has found nothing.
    by_contra hlonger
    have hindex : zones.length < (Automaton.entered taken here).length := by
      rw [Automaton.length_entered]
      omega
    have hlength := hfollows.length_lt
    have hfurther := hfollows.reachedAt hcharted (List.getElem?_eq_getElem hindex)
    have hstops := hreached.stops (by omega)
    rw [Nat.zero_add] at hstops
    exact hstops _ hfurther

theorem Judges.verdictExact (hexact : graph.Exact) (hcharted : graph.Charted automaton)
    (hstart : graph.StartsInitial path) {zones : List Zone} {verdict : Verdict}
    (hjudges : graph.Judges path zones verdict) : graph.VerdictExact path verdict := by
  have htraces : graph.Traces path 0 zones (verdict.trace.steps, verdict.isFeasible) := by
    cases verdict <;> exact hjudges.traces
  have hlength : verdict.trace.steps.length = zones.length := htraces.length_eq
  have hbound := hjudges.reached.length_le
  have hstep : ∀ (index : Nat) (step : Configuration), verdict.trace.steps[index]? = some step →
      graph.StepAt path verdict.isFeasible index step := by
    intro index step hfound
    simpa using htraces.step index step hfound
  constructor
  case greatest =>
    rw [hlength]
    exact hjudges.greatest hexact hcharted hstart
  case located =>
    intro index step hfound
    obtain ⟨id, hid, hlocation⟩ := Option.bind_eq_some_iff.mp (hstep index step hfound).1
    obtain ⟨state, hstate, hthere⟩ := Option.map_eq_some_iff.mp hlocation
    exact ⟨id, state, hid, hstate, hthere.symm⟩
  case arrives =>
    intro index step hfound hearlier
    obtain ⟨hlocation, hreached⟩ := hstep index step hfound
    rw [if_neg fun hlast ↦ absurd (hearlier hlast.1) (by omega)] at hreached
    exact hreached.exists_follows hexact hcharted hstart hlocation
  case feasible_iff =>
    rw [← feasible_iff hexact hcharted hstart, htraces.feasible_iff, hlength]
    have hpos := List.length_pos_iff.mpr hjudges.nonempty
    constructor
    · rintro ⟨-, hcomplete, hfeasible⟩
      exact ⟨by omega, hfeasible⟩
    · rintro ⟨hcomplete, hfeasible⟩
      exact ⟨by omega, by omega, hfeasible⟩
  case fails =>
    intro hfeasible
    obtain ⟨-, hcomplete, -⟩ := htraces.feasible_iff.mp hfeasible
    have hnonempty : verdict.trace.steps ≠ [] := by
      rw [← List.length_pos_iff, hlength]
      exact List.length_pos_iff.mpr hjudges.nonempty
    have hlast : verdict.trace.steps[verdict.trace.steps.length - 1]? =
        some (verdict.trace.steps.getLast hnonempty) := by
      rw [← List.getLast?_eq_getElem?, List.getLast?_eq_some_getLast hnonempty]
    have hpos := List.length_pos_iff.mpr hnonempty
    obtain ⟨hlocation, hend⟩ := hstep _ _ hlast
    rw [if_pos ⟨hfeasible, by omega⟩] at hend
    obtain ⟨entry, hreached, hfails⟩ := hend
    obtain ⟨taken, hfollows, hcount⟩ :=
      hreached.exists_follows hexact hcharted hstart hlocation
    refine ⟨taken, _, _, hfollows, by omega, hfails, ?_⟩
    rw [List.getLast?_eq_some_getLast hnonempty]

/-- The replay of a path from an initial state can only overflow, and its verdict is exact. -/
theorem StartsInitial.replay_verdictExact (hstart : graph.StartsInitial path)
    (hlinked : path.IsChain graph.Linked) (hexact : graph.Exact)
    (hcharted : graph.Charted automaton) (hwell : automaton.WellFormed)
    (hresets : automaton.ResetsNonNegative) :
    Yields Fault.IsOverflow (graph.replay path) (graph.VerdictExact path) := by
  have hreplay := hstart.replay_yields hlinked tolerant_isOverflow hexact
    (hcharted.automaton_eq ▸ hwell) (hcharted.movesTolerated hwell hresets)
  refine hreplay.mono ?_
  rintro verdict ⟨zones, hjudges⟩
  exact hjudges.verdictExact hexact hcharted hstart

/-- A graph is exact and charted at any time after it was built. -/
theorem exact_charted_of_evolves (hwell : automaton.WellFormed)
    (hresets : automaton.ResetsNonNegative) {precisions : PrecisionTable Precision}
    {start : AbstractGraph} (hbuild : build automaton precisions = .ok start)
    (hevolves : Relation.ReflTransGen Evolves start graph) :
    graph.Exact ∧ graph.Charted automaton := by
  have hcharted := charted_of_evolves hbuild hevolves
  obtain ⟨rfl, -, hbuilt, -⟩ := (build_yields tolerant_true (hwell.tolerated_true hresets)
    ⟨fun _ _ _ ↦ trivial, fun _ _ _ atom _ ↦ atom.tolerated_true _⟩).result hbuild
  exact ⟨(exact_of_evolves hevolves hbuilt hwell hresets).1, hcharted⟩

/-- At any time after a graph was built, the replay of a path from an initial state along
transitions can only overflow, and its verdict says just what the runs along the smallest edges of
the path can do. -/
theorem replay_exact {draft : AutomatonDraft} (hdraft : draft.build = .ok automaton)
    (hresets : automaton.ResetsNonNegative) {precisions : PrecisionTable Precision}
    {start : AbstractGraph} (hbuild : build automaton precisions = .ok start)
    (hevolves : Relation.ReflTransGen Evolves start graph) (hstart : graph.StartsInitial path)
    (hlinked : path.IsChain graph.Linked) :
    Yields Fault.IsOverflow (graph.replay path) (graph.VerdictExact path) := by
  have hwell := AutomatonDraft.wellFormed_of_build hdraft
  obtain ⟨hexact, hcharted⟩ := exact_charted_of_evolves hwell hresets hbuild hevolves
  exact hstart.replay_verdictExact hlinked hexact hcharted hwell hresets

/-! ### A relay -/

def relayClock : Clock := ⟨1, Nat.one_pos⟩

/-- What is asked on the way to the end of a relay. -/
def relayBar : Constraint := .compare relayClock none .atLeast 1

/-- A relay with one clock. Each of the given lists of commands enters an urgent location, which can
be passed if the clock has come to one. It fails at its end. -/
def relay (entries : List (List Command)) : AutomatonDraft where
  clockNames := ["x"]
  locations := [("wait", false), ("pass", true), ("end", false)]
  edges := entries.map (fun commands ↦ (⟨0⟩, ⟨1⟩, commands)) ++ [(⟨1⟩, ⟨2⟩, [.guard relayBar])]
  initial := some ⟨0⟩
  errors := [(⟨2⟩, [])]

def relayAutomaton (entries : List (List Command)) : Automaton where
  clockNames := ["x"]
  places := [⟨"wait", false, []⟩, ⟨"pass", true, []⟩, ⟨"end", false, []⟩]
  edges := (relay entries).numberedEdges
  initial := ⟨0⟩
  errors := [⟨⟨2⟩, Zone.top 1, Zone.top 1⟩]

/-- The graph of a relay without atoms: one state for each location. -/
def relayGraph (entries : List (List Command)) : AbstractGraph where
  automaton := relayAutomaton entries
  states := [⟨⟨0⟩, ⟨0⟩, .top 1, true, false⟩, ⟨⟨1⟩, ⟨1⟩, .top 1, false, false⟩,
    ⟨⟨2⟩, ⟨2⟩, .top 1, false, false⟩]
  transitions := (List.range entries.length).map (fun index ↦ ⟨⟨0⟩, ⟨index⟩, ⟨1⟩⟩) ++
    [⟨⟨1⟩, ⟨entries.length⟩, ⟨2⟩⟩]
  precisions := .uniform .empty
  resumeAt := 0
  lastPath := []
  nextId := ⟨3⟩

/-- The path through a relay. -/
def relayPath : List StateId := [⟨0⟩, ⟨1⟩, ⟨2⟩]

/-- The move that enters a relay. -/
def relayEntry (edge : EdgeId) (commands : List Command) : Move where
  edge := edge
  source := ⟨0⟩
  target := ⟨1⟩
  commands := commands
  sourceInvariants := []
  targetInvariants := []
  sourceUrgent := false

/-- The move to the end of a relay. -/
def relayExit (edge : EdgeId) : Move where
  edge := edge
  source := ⟨1⟩
  target := ⟨2⟩
  commands := [.guard relayBar]
  sourceInvariants := []
  targetInvariants := []
  sourceUrgent := true

theorem relayExit_leads_iff {edge : EdgeId} {before after : Valuation} :
    (relayExit edge).Leads before after ↔ relayBar.holds before = .ok true ∧ after = before := by
  constructor
  · rintro ⟨_, ⟨duration, -, hurgent, rfl, -⟩, hcommands, -⟩
    rw [hurgent rfl, Valuation.later_zero] at hcommands
    cases hcommands with
    | next hguard hrest =>
      obtain ⟨hholds, rfl⟩ := Command.leads_guard_iff.mp hguard
      exact ⟨hholds, Command.leadAll_nil_iff.mp hrest⟩
  · rintro ⟨hholds, rfl⟩
    refine ⟨after, ⟨0, le_rfl, fun _ ↦ rfl, by simp, ?_⟩, ?_, ?_⟩
    · simp [relayExit, Valuation.Satisfies]
    · exact .next (Command.leads_guard_iff.mpr ⟨hholds, rfl⟩) (.done after)
    · simp [relayExit, Valuation.Satisfies]

theorem startsInitial_relay (entries : List (List Command)) :
    (relayGraph entries).StartsInitial relayPath :=
  ⟨_, List.mem_cons_self, rfl, rfl⟩

theorem linked_relay (first : List Command) (entries : List (List Command)) :
    relayPath.IsChain (relayGraph (first :: entries)).Linked := by
  refine .cons_cons ⟨⟨0⟩, ?_⟩ (.cons_cons ⟨⟨(first :: entries).length⟩, ?_⟩ (.singleton _)) <;>
    simp [relayGraph]

theorem build_relay : (relay [[]]).build = .ok (relayAutomaton [[]]) := by
  decide +kernel

theorem build_relayGraph :
    build (relayAutomaton [[]]) (.uniform .empty) = .ok (relayGraph [[]]) := by
  decide +kernel

theorem replay_relay : (relayGraph [[]]).replay relayPath =
    .ok (.feasible ⟨[⟨⟨0⟩, ⟨[0]⟩⟩, ⟨⟨1⟩, ⟨[0]⟩⟩, ⟨⟨2⟩, ⟨[1]⟩⟩]⟩) := by
  decide +kernel

/-- The path through the relay is feasible: some run passes it, and its trace says where. -/
theorem replay_exact_relay : ∃ trace, (relayGraph [[]]).replay relayPath = .ok (.feasible trace) ∧
    (relayGraph [[]]).VerdictExact relayPath (.feasible trace) :=
  ⟨_, replay_relay, (replay_exact build_relay (by decide) build_relayGraph .refl
    (startsInitial_relay _) (linked_relay _ _)).result replay_relay⟩

/-- No run through the relay enters its second state with the clock at zero. -/
theorem relay_strands {taken : List (Configuration × EdgeId)} {here : Configuration}
    (hfollows : (relayGraph [[]]).Follows relayPath taken here) (hlength : taken.length = 2) :
    (Automaton.entered taken here)[1]? ≠ some ⟨⟨1⟩, ⟨[0]⟩⟩ := by
  intro hentered
  have hend : (Automaton.entered taken here)[1 + 1]? = some here := by
    rw [← Automaton.getElem?_entered_length taken here, hlength]
  obtain ⟨configuration, edge, htaken, hsame⟩ := Automaton.exists_taken hend
  obtain rfl : configuration = ⟨⟨1⟩, ⟨[0]⟩⟩ := Option.some.inj (hsame.symm.trans hentered)
  obtain ⟨source, target, hsource, -, hmem, -⟩ := hfollows.least 1 _ edge htaken
  obtain rfl : ⟨1⟩ = source := by simpa [relayPath] using hsource
  obtain ⟨rfl, rfl⟩ : edge = ⟨1⟩ ∧ target = ⟨2⟩ := by simpa [relayGraph] using hmem
  obtain ⟨move, next, hmove, -, -, -, hleads⟩ := hfollows.run.leads_at htaken
  obtain rfl : relayExit ⟨1⟩ = move := Except.ok.inj hmove
  exact absurd (relayExit_leads_iff.mp hleads).1 (by decide +kernel)

/-- Commands that set a clock below zero before they move it ahead. -/
def plunge : List Command := [.reset relayClock (-5), .shift relayClock 6]

/-- No run enters a relay by a plunge. -/
theorem plunge_strands {taken : List (Configuration × EdgeId)} {here : Configuration}
    (hfollows : (relayGraph [plunge]).Follows relayPath taken here) : taken = [] := by
  cases taken with
  | nil => rfl
  | cons step rest =>
    obtain ⟨source, target, hsource, -, hmem, -⟩ := hfollows.least 0 step.1 step.2 rfl
    obtain rfl : ⟨0⟩ = source := by simpa [relayPath] using hsource
    obtain ⟨hedge, rfl⟩ : step.2 = ⟨0⟩ ∧ target = ⟨1⟩ := by simpa [relayGraph] using hmem
    have htaken : (step :: rest)[0]? = some (step.1, ⟨0⟩) := by rw [← hedge]; rfl
    obtain ⟨move, next, hmove, -, -, -, ready, -, hcommands, -⟩ := hfollows.run.leads_at htaken
    obtain rfl : relayEntry ⟨0⟩ plunge = move := Except.ok.inj hmove
    cases hcommands with
    | next hreset _ =>
      simp [Command.Leads, Command.apply, Valuation.set, bind, Except.bind] at hreset

/-- The second step of the trace of a relay is where a run arrives, but none that arrives there gets
to the end. And a relay that is entered by a plunge is called feasible although no run goes beyond
its first state. -/
theorem relay_step_strands :
    ((relay [[]]).build = .ok (relayAutomaton [[]]) ∧
      build (relayAutomaton [[]]) (.uniform .empty) = .ok (relayGraph [[]]) ∧
      (relayGraph [[]]).StartsInitial relayPath ∧ relayPath.IsChain (relayGraph [[]]).Linked ∧
      (relayGraph [[]]).replay relayPath =
        .ok (.feasible ⟨[⟨⟨0⟩, ⟨[0]⟩⟩, ⟨⟨1⟩, ⟨[0]⟩⟩, ⟨⟨2⟩, ⟨[1]⟩⟩]⟩) ∧
      ∀ taken here, (relayGraph [[]]).Follows relayPath taken here → taken.length = 2 →
        (Automaton.entered taken here)[1]? ≠ some ⟨⟨1⟩, ⟨[0]⟩⟩) ∧
    (relay [plunge]).build = .ok (relayAutomaton [plunge]) ∧
      build (relayAutomaton [plunge]) (.uniform .empty) = .ok (relayGraph [plunge]) ∧
      (relayGraph [plunge]).StartsInitial relayPath ∧
      relayPath.IsChain (relayGraph [plunge]).Linked ∧
      (∃ trace, (relayGraph [plunge]).replay relayPath = .ok (.feasible trace)) ∧
      ∀ taken here, (relayGraph [plunge]).Follows relayPath taken here → taken = [] := by
  have hreplay : (relayGraph [plunge]).replay relayPath =
      .ok (.feasible ⟨[⟨⟨0⟩, ⟨[0]⟩⟩, ⟨⟨1⟩, ⟨[1]⟩⟩, ⟨⟨2⟩, ⟨[1]⟩⟩]⟩) := by decide +kernel
  exact ⟨⟨build_relay, build_relayGraph, startsInitial_relay _, linked_relay _ _, replay_relay,
    fun _ _ hfollows hlength ↦ relay_strands hfollows hlength⟩, by decide +kernel, by decide +kernel,
    startsInitial_relay _, linked_relay _ _, ⟨_, hreplay⟩,
    fun _ _ hfollows ↦ plunge_strands hfollows⟩

/-! ### Realizable paths -/

/-- Each edge that a run takes between states of the path is one of a transition. -/
theorem Visits.transition_mem (hexact : graph.Exact) (hvisits : graph.Visits path taken here)
    {index : Nat} {configuration : Configuration} {edge : EdgeId}
    (htaken : taken[index]? = some (configuration, edge)) :
    ∃ source target, path[index]? = some source ∧ path[index + 1]? = some target ∧
      ⟨source, edge, target⟩ ∈ graph.transitions := by
  obtain ⟨move, next, hmove, hfrom, hnext, hto, hleads⟩ := hvisits.run.leads_at htaken
  obtain ⟨before, found, hfound, hbefore⟩ := Automaton.exists_taken hnext
  obtain ⟨rfl, rfl⟩ := Prod.mk.inj (Option.some.inj (hfound.symm.trans htaken))
  obtain ⟨source, first, hsource, hfirst, hthere, hmem⟩ := hvisits.inside index before hbefore
  obtain ⟨target, second, htarget, hsecond, harrived, hafter⟩ := hvisits.inside _ next hnext
  refine ⟨source, target, hsource, htarget, (hexact.transition_iff _).mpr ?_⟩
  obtain ⟨hfirstMem, hfirstId⟩ := (state?_eq_some_iff hexact.distinct).mp hfirst
  obtain ⟨hsecondMem, hsecondId⟩ := (state?_eq_some_iff hexact.distinct).mp hsecond
  exact ⟨first, hfirstMem, second, hsecondMem, hfirstId, hsecondId, move, hmove,
    hthere.symm.trans hfrom.symm, harrived.symm.trans hto, before.valuation, hmem, next.valuation,
    hafter, hleads⟩

/-- Where there is one edge only, any run through the states of the path follows it. -/
theorem Visits.follows (hexact : graph.Exact) (hsingle : graph.SingleEdged path)
    (hvisits : graph.Visits path taken here) : graph.Follows path taken here := by
  refine ⟨hvisits.run, fun index configuration edge htaken ↦ ?_, fun index configuration hentered ↦
    ?_⟩
  · obtain ⟨source, target, hsource, htarget, hmem⟩ := hvisits.transition_mem hexact htaken
    refine ⟨source, target, hsource, htarget, hmem, fun other hother ↦ ?_⟩
    rw [hsingle index source target hsource htarget edge other hmem hother]
  · obtain ⟨id, state, hid, hstate, -, hmem⟩ := hvisits.inside index configuration hentered
    exact ⟨id, state, hid, hstate, hmem⟩

theorem Follows.visits (hexact : graph.Exact) (hstart : graph.StartsInitial path)
    (hfollows : graph.Follows path taken here) (hcomplete : taken.length + 1 = path.length) :
    graph.Visits path taken here :=
  ⟨hfollows.run, hcomplete, fun _ _ hentered ↦ hfollows.location_eq hexact hstart hentered⟩

/-- The replay of a path that a search has found can only overflow. If it calls the path feasible,
then some run through the states of the path can fail at its end; the converse holds if no two edges
join the same two states of the path. -/
theorem feasible_iff_realizable {draft : AutomatonDraft} (hdraft : draft.build = .ok automaton)
    (hresets : automaton.ResetsNonNegative) {precisions : PrecisionTable Precision}
    {start searched : AbstractGraph} (hbuild : build automaton precisions = .ok start)
    (hevolves : Relation.ReflTransGen Evolves start graph)
    (hfound : graph.findPath = .ok (searched, some path)) :
    Yields Fault.IsOverflow (searched.replay path) fun verdict ↦
      (verdict.isFeasible = true → searched.Realizable path) ∧
      (searched.SingleEdged path → searched.Realizable path → verdict.isFeasible = true) := by
  have hwell := AutomatonDraft.wellFormed_of_build hdraft
  obtain ⟨hbefore, hchartedBefore⟩ := exact_charted_of_evolves hwell hresets hbuild hevolves
  obtain ⟨hexact, hcharted⟩ :=
    exact_charted_of_evolves hwell hresets hbuild (hevolves.tail (.search hfound))
  obtain ⟨halike, herror⟩ := (findPath_yields tolerant_true hbefore
    (hchartedBefore.automaton_eq ▸ hwell)).result hfound
  have herror : searched.ErrorPath path := ErrorPath.alike herror halike
  refine (herror.start.replay_verdictExact herror.linked hexact hcharted hwell hresets).mono
    fun verdict hverdict ↦ ⟨fun hfeasible ↦ ?_, ?_⟩
  · obtain ⟨-, taken, here, final, hfollows, hcomplete, hfails⟩ :=
      hverdict.feasible_iff.mp hfeasible
    exact ⟨taken, here, final, hfollows.visits hexact herror.start hcomplete, hfails⟩
  · rintro hsingle ⟨taken, here, final, hvisits, hfails⟩
    have hfollows := hvisits.follows hexact hsingle
    refine hverdict.feasible_iff.mpr ⟨?_, taken, here, final, hfollows, hvisits.complete, hfails⟩
    have hlongest := hverdict.greatest.2 ⟨taken, here, hfollows, rfl⟩
    obtain ⟨reached, last, hreached, hlength⟩ := hverdict.greatest.1
    have hcomplete := hvisits.complete
    have hbound := hreached.length_lt
    omega

/-- The graph of a relay once the path through it has been found. -/
def searchedRelay (entries : List (List Command)) : AbstractGraph :=
  { (relayGraph entries).setHighlights relayPath true with lastPath := relayPath }

/-- The path through the relay has one edge at each state, so it is feasible because it is
realizable. -/
theorem feasible_iff_realizable_relay :
    (relayGraph [[]]).findPath = .ok (searchedRelay [[]], some relayPath) ∧
      (searchedRelay [[]]).SingleEdged relayPath ∧ ∃ verdict,
      (searchedRelay [[]]).replay relayPath = .ok verdict ∧
      (verdict.isFeasible = true ↔ (searchedRelay [[]]).Realizable relayPath) := by
  have hfound : (relayGraph [[]]).findPath = .ok (searchedRelay [[]], some relayPath) := by decide +kernel
  have hsingle : (searchedRelay [[]]).SingleEdged relayPath := by
    have hnumber : ∀ transition ∈ (searchedRelay [[]]).transitions,
        transition.edge = ⟨transition.source.number⟩ := by decide
    intro _ source target _ _ edge other hedge hother
    exact (hnumber _ hedge).trans (hnumber _ hother).symm
  have hreplay : (searchedRelay [[]]).replay relayPath =
      .ok (.feasible ⟨[⟨⟨0⟩, ⟨[0]⟩⟩, ⟨⟨1⟩, ⟨[0]⟩⟩, ⟨⟨2⟩, ⟨[1]⟩⟩]⟩) := by decide +kernel
  obtain ⟨hsound, hcomplete⟩ := (feasible_iff_realizable build_relay (by decide) build_relayGraph
    .refl hfound).result hreplay
  exact ⟨hfound, hsingle, _, hreplay, hsound, hcomplete hsingle⟩

/-- A relay with two entries, the smaller of which takes the clock back. -/
def parallelEntries : List (List Command) := [[.reset relayClock 0], []]

/-- A run that enters by the greater edge gets to the end. -/
theorem realizable_parallel : (searchedRelay parallelEntries).Realizable relayPath := by
  have hfirst : (relayAutomaton parallelEntries).Run [] ⟨⟨0⟩, ⟨[0]⟩⟩ :=
    .start rfl (by simp [Valuation.Satisfies])
  have henter : (relayEntry ⟨1⟩ []).Leads ⟨[0]⟩ ⟨[1]⟩ := by
    refine ⟨⟨[1]⟩, ⟨1, by decide, (absurd · Bool.false_ne_true), by decide +kernel, ?_⟩, .done _,
      ?_⟩ <;> simp [relayEntry, Valuation.Satisfies]
  have hsecond : (relayAutomaton parallelEntries).Run [(⟨⟨0⟩, ⟨[0]⟩⟩, ⟨1⟩)] ⟨⟨1⟩, ⟨[1]⟩⟩ :=
    hfirst.step rfl rfl henter
  have hexit : (relayExit ⟨2⟩).Leads ⟨[1]⟩ ⟨[1]⟩ :=
    relayExit_leads_iff.mpr ⟨by decide +kernel, rfl⟩
  have hthird : (relayAutomaton parallelEntries).Run
      [(⟨⟨0⟩, ⟨[0]⟩⟩, ⟨1⟩), (⟨⟨1⟩, ⟨[1]⟩⟩, ⟨2⟩)] ⟨⟨2⟩, ⟨[1]⟩⟩ :=
    hsecond.step rfl rfl hexit
  have hzero : (⟨[0]⟩ : Valuation) ∈ Zone.top 1 := show Zone.contains _ _ = _ by decide +kernel
  have hone : (⟨[1]⟩ : Valuation) ∈ Zone.top 1 := show Zone.contains _ _ = _ by decide +kernel
  refine ⟨_, _, ⟨[1]⟩, ⟨hthird, rfl, fun index configuration hentered ↦ ?_⟩,
    ⟨"end", false, []⟩, ⟨⟨2⟩, Zone.top 1, Zone.top 1⟩, rfl, rfl, ?_, hone⟩
  · rcases index with _ | _ | _ | index
    · obtain rfl := Option.some.inj hentered
      exact ⟨⟨0⟩, _, rfl, rfl, rfl, hzero⟩
    · obtain rfl := Option.some.inj hentered
      exact ⟨⟨1⟩, _, rfl, rfl, rfl, hone⟩
    · obtain rfl := Option.some.inj hentered
      exact ⟨⟨2⟩, _, rfl, rfl, rfl, hone⟩
    · simp [Automaton.entered] at hentered
  · exact ⟨0, le_rfl, (absurd · Bool.false_ne_true), by simp, by simp [Valuation.Satisfies]⟩

/-- The path through a relay with two entries is realizable, but its replay takes the smaller edge
and calls it infeasible. -/
theorem parallel_relay_misjudged :
    (relay parallelEntries).build = .ok (relayAutomaton parallelEntries) ∧
    (relayAutomaton parallelEntries).ResetsNonNegative ∧
    build (relayAutomaton parallelEntries) (.uniform .empty) = .ok (relayGraph parallelEntries) ∧
    (relayGraph parallelEntries).findPath = .ok (searchedRelay parallelEntries, some relayPath) ∧
    (searchedRelay parallelEntries).Realizable relayPath ∧
    (searchedRelay parallelEntries).replay relayPath =
      .ok (.infeasible ⟨[⟨⟨0⟩, ⟨[0]⟩⟩, ⟨⟨1⟩, ⟨[0]⟩⟩]⟩) :=
  ⟨by decide +kernel, by decide, by decide +kernel, by decide +kernel, realizable_parallel, by decide +kernel⟩

end AbstractGraph

end TimedSafety
