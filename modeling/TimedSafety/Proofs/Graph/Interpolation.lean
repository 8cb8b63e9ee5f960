import TimedSafety.Graph.Interpolation
import TimedSafety.Proofs.Automaton.Precondition
import TimedSafety.Proofs.Graph.Replay

/-!
Interpolants of infeasible paths by exact zones, of any kind and in any direction. Interpolation
succeeds, and at the position where the path fails its formula separates the state there: its zone
holds some valuations of the state but not all. This holds forwards, because the state has
valuations with which the path goes on and none of them is reached. It holds backwards whatever the
computed preimage is, because that is met with the state and used only if it is not empty and not
reached.
-/

set_option autoImplicit false

namespace TimedSafety.AbstractGraph

variable {may : Fault → Prop} {graph : AbstractGraph} {path : List StateId}

/-! ### Where the path fails -/

/-- The last position that a replay reaches holds a valuation that is not reached, if the path is
not feasible: one with which the path would go on. -/
theorem Reached.exists_unreached (hexact : graph.Exact) (herror : graph.ErrorPath path)
    {zones : List Zone} (hreached : graph.Reached path 0 zones) (hnonempty : zones ≠ [])
    (hinfeasible : zones.length = path.length → ¬ graph.Feasible path) {id : StateId}
    {state : AbstractState} (hid : path[zones.length - 1]? = some id)
    (hstate : graph.state? id = some state) :
    ∃ valuation ∈ state.zone, ¬ graph.ReachedAt path (zones.length - 1) valuation := by
  have hpos := List.length_pos_iff.mpr hnonempty
  have hlength : zones.length ≤ path.length := by simpa using hreached.length_le
  rcases Nat.lt_or_eq_of_le hlength with hshort | hfull
  · -- The next state is linked to this one, but nothing that is reached here leads there.
    have hnext := List.getElem?_eq_getElem hshort
    have hhere : path[zones.length - 1]? = some path[zones.length - 1] :=
      List.getElem?_eq_getElem (by omega)
    obtain rfl : path[zones.length - 1] = id := Option.some.inj (hhere.symm.trans hid)
    have hsucc : zones.length - 1 + 1 = zones.length := by omega
    have hlinked : graph.Linked path[zones.length - 1] path[zones.length] := by
      have hstep := herror.linked.getElem (zones.length - 1) (by omega)
      simpa only [hsucc] using hstep
    obtain ⟨move, hmove⟩ := hexact.exists_pathMove hlinked
    obtain ⟨first, second, edge, hfirst, hsecond, -, -, -, before, hbefore, after, hafter,
      hleads⟩ := hexact.joins_of_pathMove hmove
    obtain rfl : first = state := Option.some.inj (hfirst.symm.trans hstate)
    refine ⟨before, hbefore, fun hearlier ↦ hreached.stops (by omega) after ?_⟩
    rw [Nat.zero_add]
    have hthere := (reachedAt_succ_iff hhere (by rw [hsucc]; exact hnext) hmove hsecond).mpr
      ⟨⟨before, hearlier, hleads⟩, hafter⟩
    rwa [hsucc] at hthere
  · -- The last state is doomed, but nothing that is reached there can fail.
    obtain ⟨last, hlast, doomed, hmember, rfl, valuation, hmem, final, hfails⟩ := herror.reached
    rw [List.getLast?_eq_getElem?, ← hfull, hid] at hlast
    have hfound := (state?_eq_some_iff hexact.distinct).mpr ⟨hmember, Option.some.inj hlast.symm⟩
    obtain rfl : state = doomed := Option.some.inj (hstate.symm.trans hfound)
    refine ⟨valuation, hmem, fun hthere ↦ hinfeasible hfull ?_⟩
    exact ⟨zones.length - 1, state.location, valuation, final, by omega,
      by simp [hid, location?, hstate], hthere, hfails⟩

/-! ### Backward zones -/

/-- The zone is one over the clocks and lies within the state at a position of the path. -/
structure LiesAt (graph : AbstractGraph) (path : List StateId) (index : Nat) (zone : Zone) :
    Prop where
  denotes : zone.Denotes graph.automaton.clocks (· ∈ zone)
  subset : ∀ valuation ∈ zone, ∃ id state, path[index]? = some id ∧
    graph.state? id = some state ∧ valuation ∈ state.zone

theorem LiesAt.bottom (index : Nat) :
    graph.LiesAt path index (Zone.bottom graph.automaton.clocks) := by
  have hdenotes := Zone.denotes_bottom graph.automaton.clocks
  exact ⟨hdenotes.members, fun valuation hmem ↦ absurd ((hdenotes.mem_iff valuation).mp hmem) id⟩

theorem meetState_yields (hmay : Tolerant may) (hexact : graph.Exact) {index : Nat} {id : StateId}
    (hid : path[index]? = some id) {state : AbstractState} (hstate : graph.state? id = some state)
    {zone : Zone} {valuations : Valuation → Prop}
    (hzone : zone.Denotes graph.automaton.clocks valuations) :
    Yields may (zone.meet state.zone) (graph.LiesAt path index) := by
  have hmember := mem_of_state? hstate
  refine (Zone.meet_yields hmay hzone (hexact.zoneSound hmember)).mono fun met hmet ↦ ?_
  refine ⟨hmet.members, fun valuation hmem ↦ ?_⟩
  exact ⟨id, state, hid, hstate, ((hmet.mem_iff valuation).mp hmem).2⟩

/-- A preimage is some zone over the clocks. -/
theorem preimage_yields (hmay : Tolerant may) (htolerated : graph.automaton.Tolerated may)
    (hrange : graph.automaton.ConstantsInRange) {edge : EdgeId} {move : Move}
    (hmove : graph.automaton.move edge = .ok move) (hreversible : move.isReversible = true)
    {zone : Zone} (hzone : zone.Denotes graph.automaton.clocks (· ∈ zone)) :
    Yields may (move.pre zone) fun image ↦ image.Denotes graph.automaton.clocks (· ∈ image) := by
  have hundoable : move.Undoable may graph.automaton.clocks := by
    refine (htolerated.wellFormed.moveWithin hmove).undoable (List.all_eq_true.mp hreversible) ?_
    intro command hmem value hvalue hout
    exact absurd (hrange.move htolerated.wellFormed hmove command hmem value hvalue) hout
  exact (Move.pre_yields hmay hzone hundoable).mono fun _ himage ↦ himage.members

/-- The zones lie within the states of the path, position by position. -/
def LieAlong (graph : AbstractGraph) (path : List StateId) (zones : List Zone) : Prop :=
  ∀ (index : Nat) (zone : Zone), zones[index]? = some zone → graph.LiesAt path index zone

theorem LieAlong.append {zones : List Zone} {last : Zone} (hzones : graph.LieAlong path zones)
    (hlast : graph.LiesAt path zones.length last) : graph.LieAlong path (zones ++ [last]) := by
  intro index zone hzone
  rw [List.getElem?_append] at hzone
  split_ifs at hzone with hindex
  · exact hzones index zone hzone
  · obtain ⟨hsame, rfl⟩ : index - zones.length = 0 ∧ last = zone := by
      simpa [List.getElem?_singleton] using hzone
    obtain rfl : index = zones.length := by omega
    exact hlast

theorem leadBack_yields (hmay : Tolerant may) (hexact : graph.Exact)
    (htolerated : graph.automaton.Tolerated may) (hrange : graph.automaton.ConstantsInRange)
    (hlinked : path.IsChain graph.Linked) {earlier rest : List StateId} {next : StateId}
    (hpath : path = earlier.reverse ++ next :: rest) {later : Zone}
    (hlater : later.Denotes graph.automaton.clocks (· ∈ later)) :
    Yields may (graph.leadBack later next earlier) fun zones ↦ zones.length = earlier.length ∧
      graph.LieAlong path zones.reverse := by
  induction earlier generalizing next rest later with
  | nil => exact ⟨rfl, by simp [LieAlong]⟩
  | cons id earlier ih =>
    rw [List.reverse_cons, List.append_assoc, List.singleton_append] at hpath
    have hstep : graph.Linked id next := by
      rw [hpath, List.isChain_append_cons_cons] at hlinked
      exact hlinked.2.1
    have hid : path[earlier.length]? = some id := by simp [hpath]
    obtain ⟨move, hmove⟩ := hexact.exists_pathMove hstep
    obtain ⟨state, _, edge, hstate, -, hedge, -⟩ := hexact.joins_of_pathMove hmove
    rw [leadBack, hmove]
    change Yields may (if _ then _ else _) _
    by_cases hstop : (!move.isReversible || later.isBottom) = true
    · rw [if_pos hstop]
      refine ⟨by simp, fun index zone hzone ↦ ?_⟩
      have hmem := List.mem_of_getElem? hzone
      rw [List.mem_reverse] at hmem
      rw [List.eq_of_mem_replicate hmem]
      exact LiesAt.bottom index
    rw [if_neg hstop]
    have hreversible : move.isReversible = true := by
      by_contra hnot
      exact hstop (by simp [hnot])
    refine (preimage_yields hmay htolerated hrange hedge hreversible hlater).bind
      fun before hbefore ↦ ?_
    rw [pathState_eq_ok_iff.mpr hstate]
    refine (meetState_yields hmay hexact hid hstate hbefore).bind fun here hhere ↦ ?_
    refine (ih hpath hhere.denotes).bind ?_
    rintro zones ⟨hlength, hzones⟩
    refine ⟨by simp [hlength], ?_⟩
    rw [List.reverse_cons]
    exact hzones.append (by rwa [List.length_reverse, hlength])

theorem failureZone_yields (hmay : Tolerant may) (hexact : graph.Exact)
    (htolerated : graph.automaton.Tolerated may) (hrange : graph.automaton.ConstantsInRange)
    (hlinked : path.IsChain graph.Linked) {index : Nat} {id : StateId}
    (hid : path[index]? = some id) {state : AbstractState} (hstate : graph.state? id = some state) :
    Yields may (graph.failureZone id path[index + 1]?) (graph.LiesAt path index) := by
  unfold failureZone
  cases hnext : path[index + 1]? with
  | none =>
    dsimp only
    rw [hstate, Option.bind_some, pathState_eq_ok_iff.mpr hstate]
    cases herror : graph.automaton.error? state.location with
    | none => exact LiesAt.bottom index
    | some condition =>
      have hmember := mem_of_state? hstate
      refine (Zone.meet_yields hmay (hexact.zoneSound hmember)
        (Automaton.approach_denotes htolerated.wellFormed herror)).mono fun met hmet ↦ ?_
      refine ⟨hmet.members, fun valuation hmem ↦ ?_⟩
      exact ⟨id, state, hid, hstate, ((hmet.mem_iff valuation).mp hmem).1⟩
  | some next =>
    obtain ⟨hlength, rfl⟩ := List.getElem?_eq_some_iff.mp hnext
    obtain ⟨_, rfl⟩ := List.getElem?_eq_some_iff.mp hid
    obtain ⟨move, hmove⟩ := hexact.exists_pathMove (hlinked.getElem index hlength)
    obtain ⟨source, target, edge, -, htarget, hedge, -⟩ := hexact.joins_of_pathMove hmove
    have hmember := mem_of_state? htarget
    dsimp only
    rw [hmove, pathState_eq_ok_iff.mpr htarget, pathState_eq_ok_iff.mpr hstate]
    change Yields may (if _ then _ else _) _
    by_cases hreversible : move.isReversible = true
    · rw [if_pos hreversible]
      refine (preimage_yields hmay htolerated hrange hedge hreversible
        (hexact.zoneSound hmember)).bind fun before hbefore ↦ ?_
      exact meetState_yields hmay hexact hid hstate hbefore
    · rw [if_neg hreversible]
      exact LiesAt.bottom index

theorem backwardZones_yields (hmay : Tolerant may) (hexact : graph.Exact)
    (htolerated : graph.automaton.Tolerated may) (hrange : graph.automaton.ConstantsInRange)
    (herror : graph.ErrorPath path) {failure : Nat} (hfailure : failure < path.length) :
    Yields may (graph.backwardZones path failure) fun zones ↦ zones.length = failure + 1 ∧
      graph.LieAlong path zones := by
  have hid := List.getElem?_eq_getElem hfailure
  obtain ⟨state, hstate⟩ := herror.exists_state hexact _ (List.getElem_mem hfailure)
  unfold backwardZones
  rw [hid]
  refine (failureZone_yields hmay hexact htolerated hrange herror.linked hid hstate).bind
    fun bad hbad ↦ ?_
  have hpath : path = (path.take failure).reverse.reverse ++ path[failure] ::
      path.drop (failure + 1) := by
    rw [List.reverse_reverse, List.getElem_cons_drop, List.take_append_drop]
  refine (leadBack_yields hmay hexact htolerated hrange herror.linked hpath hbad.denotes).bind ?_
  rintro zones ⟨hlength, hzones⟩
  have hcount : zones.length = failure := by
    rw [hlength, List.length_reverse, List.length_take, Nat.min_eq_left hfailure.le]
  refine ⟨by simp [hcount], hzones.append ?_⟩
  rwa [List.length_reverse, hcount]

/-! ### Formulas -/

/-- The formula speaks of a zone over the clocks that is not empty, either of the reached one or of
one that lies within the state at the position and shares nothing with the reached one. -/
structure FormulaAt (graph : AbstractGraph) (path : List StateId) (index : Nat)
    (formula : Formula) : Prop where
  denotes : formula.zone.Denotes graph.automaton.clocks (· ∈ formula.zone)
  nonempty : formula.zone.isBottom = false
  reached_or : (∀ valuation, valuation ∈ formula.zone ↔ graph.ReachedAt path index valuation) ∨
    graph.LiesAt path index formula.zone ∧
      ∀ valuation, graph.ReachedAt path index valuation → valuation ∉ formula.zone

theorem formulaOf_yields (hmay : Tolerant may) {index : Nat} {reached : Zone}
    (hreached : reached.Denotes graph.automaton.clocks (graph.ReachedAt path index))
    (hbottom : reached.isBottom = false) {backward : Option Zone}
    (hbackward : ∀ zone ∈ backward, graph.LiesAt path index zone) :
    Yields may (formulaOf reached backward) (graph.FormulaAt path index) := by
  have hforward : graph.FormulaAt path index (.reach reached) :=
    ⟨hreached.members, hbottom, Or.inl hreached.mem_iff⟩
  cases backward with
  | none => exact hforward
  | some bad =>
    rw [formulaOf]
    by_cases hempty : bad.isBottom = true
    · rw [if_pos hempty]
      exact hforward
    rw [if_neg hempty]
    have hbad := hbackward bad rfl
    refine (Zone.meets_yields hmay hbad.denotes hreached).bind fun overlap hoverlap ↦ ?_
    cases overlap with
    | true => exact hforward
    | false =>
      refine ⟨hbad.denotes, by simpa [Formula.zone] using hempty, Or.inr ⟨hbad, ?_⟩⟩
      intro valuation hthere hmem
      exact absurd (hoverlap.mpr ⟨valuation, hmem, hthere⟩) Bool.false_ne_true

/-- The forward zones of all positions, each with its backward zone if there is one. -/
structure PairedAt (graph : AbstractGraph) (path : List StateId) (index : Nat)
    (pair : Zone × Option Zone) : Prop where
  reached : pair.1.Denotes graph.automaton.clocks (graph.ReachedAt path index)
  nonempty : pair.1.isBottom = false
  backward : ∀ zone ∈ pair.2, graph.LiesAt path index zone

theorem Reached.paired {zones : List Zone} (hreached : graph.Reached path 0 zones)
    {backward : List (Option Zone)}
    (hbackward : ∀ (index : Nat) (entry : Option Zone), backward[index]? = some entry →
      ∀ zone ∈ entry, graph.LiesAt path index zone)
    {index : Nat} {pair : Zone × Option Zone}
    (hpair : (zones.zip backward)[index]? = some pair) : graph.PairedAt path index pair := by
  obtain ⟨hzone, hentry⟩ := List.getElem?_zip_eq_some.mp hpair
  have hdenotes := hreached.denotes index pair.1 hzone
  rw [Nat.zero_add] at hdenotes
  exact ⟨hdenotes, hreached.nonempty _ (List.mem_of_getElem? hzone), hbackward index _ hentry⟩

/-- The formulas of the interpolant are good ones for positions below the count. The last of these
positions has one, and all have in a sequence. -/
structure Covers (kind : InterpolantKind) (count : Nat) (good : Nat → Formula → Prop)
    (interpolant : Interpolant) : Prop where
  formula : ∀ position ∈ interpolant.formulas, position.1 < count ∧ good position.1 position.2
  last : ∃ formula, (count - 1, formula) ∈ interpolant.formulas
  all : kind = .sequence → ∀ index < count, ∃ formula, (index, formula) ∈ interpolant.formulas

/-- The formulas of one or of all positions, by the kind of the interpolant. -/
theorem formulas_yields (kind : InterpolantKind) {pairs : List (Zone × Option Zone)} {count : Nat}
    (hcount : pairs.length = count) (hpos : 0 < count) {good : Nat → Formula → Prop}
    (hformula : ∀ (index : Nat) (pair : Zone × Option Zone), pairs[index]? = some pair →
      Yields may (formulaOf pair.1 pair.2) (good index)) :
    Yields (fun failure ↦ ∃ fault, failure = .broken fault ∧ may fault)
      (match kind with
        | .sequence => do
          let formulas ← (pairs.mapM fun (reached, bad) ↦ formulaOf reached bad :
            Except Fault (List Formula))
          return .sequence formulas
        | .binary =>
          match pairs[count - 1]? with
          | some (reached, bad) => do
            let formula ← formulaOf reached bad
            return .binary (count - 1) formula
          | none => throw (.broken .indexOutOfBounds) : Except (Failure SolverError) Interpolant)
      (Covers kind count good) := by
  cases kind with
  | sequence =>
    refine ((Yields.mapM_index hformula).lift fun fault hfault ↦ ⟨fault, rfl, hfault⟩).bind ?_
    rintro formulas ⟨hlength, hat⟩
    have hmem : ∀ position, position ∈ (Interpolant.sequence formulas).formulas ↔
        formulas[position.1]? = some position.2 := by
      rintro ⟨index, formula⟩
      simp [Interpolant.formulas, List.mem_zipIdx_iff_getElem?]
    have hall : ∀ index < count, ∃ formula,
        (index, formula) ∈ (Interpolant.sequence formulas).formulas := fun index hindex ↦
      ⟨formulas[index], (hmem _).mpr (List.getElem?_eq_getElem (by omega))⟩
    refine ⟨fun position hposition ↦ ?_, hall (count - 1) (by omega), fun _ ↦ hall⟩
    rw [hmem] at hposition
    have hbelow := (List.getElem?_eq_some_iff.mp hposition).1
    exact ⟨by omega, hat position.1 position.2 hposition⟩
  | binary =>
    have hlast : count - 1 < pairs.length := by omega
    have hpair := List.getElem?_eq_getElem hlast
    dsimp only
    rw [hpair]
    refine ((hformula _ _ hpair).lift fun fault hfault ↦ ⟨fault, rfl, hfault⟩).bind
      fun formula hat ↦ ?_
    refine ⟨?_, ⟨formula, by simp [Interpolant.formulas]⟩, nofun⟩
    simpa [Interpolant.formulas] using ⟨hpos, hat⟩

/-! ### The shape of interpolants -/

theorem leadBack_length (graph : AbstractGraph) (later : Zone) (next : StateId)
    (earlier : List StateId) :
    Yields (fun _ ↦ True) (graph.leadBack later next earlier) (·.length = earlier.length) := by
  induction earlier generalizing later next with
  | nil => exact rfl
  | cons id earlier ih =>
    unfold leadBack
    refine (Yields.any (graph.pathMove id next)).bind fun move _ ↦ ?_
    by_cases hstop : (!move.isReversible || later.isBottom) = true
    · rw [if_pos hstop]
      simp
    · rw [if_neg hstop]
      refine (Yields.any (move.pre later)).bind fun before _ ↦ ?_
      refine (Yields.any (graph.pathState id)).bind fun state _ ↦ ?_
      refine (Yields.any (before.meet state.zone)).bind fun here _ ↦ ?_
      exact (ih here id).bind fun zones hzones ↦ by simp [hzones]

theorem backwardZones_length (graph : AbstractGraph) (path : List StateId) (failure : Nat) :
    Yields (fun _ ↦ True) (graph.backwardZones path failure) (·.length = failure + 1) := by
  unfold backwardZones
  cases hid : path[failure]? with
  | none => trivial
  | some id =>
    have hfailure := (List.getElem?_eq_some_iff.mp hid).1
    refine (Yields.any (graph.failureZone id path[failure + 1]?)).bind fun bad _ ↦ ?_
    refine (graph.leadBack_length bad id _).bind fun zones hzones ↦ ?_
    simp only [List.length_reverse, List.length_take] at hzones
    simp [hzones, hfailure.le]

/-- Whatever the zones of the graph are, an interpolant covers the positions of its trace. Forwards,
its formulas are those of the zones that the replay reaches. -/
theorem interpolate_covers (graph : AbstractGraph) (kind : InterpolantKind)
    (direction : Direction) (path : List StateId) (trace : Trace) :
    Yields (fun _ ↦ True) (graph.interpolate kind direction path trace) fun interpolant ↦
      0 < trace.length ∧ trace.length ≤ path.length ∧ ∃ zones,
        graph.reachAlong path = .ok zones ∧ zones.length = trace.length ∧
          Covers kind trace.length (fun index formula ↦ direction = .forward →
            ∃ zone, zones[index]? = some zone ∧ formula = .reach zone) interpolant := by
  unfold interpolate
  by_cases hmisfit : trace.length = 0 ∨ path.length < trace.length
  · rw [if_pos hmisfit]
    trivial
  rw [if_neg hmisfit]
  cases hzones : graph.reachAlong path with
  | error fault => trivial
  | ok zones =>
    change Yields _ (if _ then _ else _) _
    by_cases hlength : zones.length ≠ trace.length
    · rw [if_pos hlength]
      trivial
    rw [if_neg hlength]
    have hsame : zones.length = trace.length := not_not.mp hlength
    have hpos : 0 < trace.length := by omega
    have hfits : trace.length ≤ path.length := by omega
    refine Yields.mono ?_ fun interpolant (hcovers : Covers kind trace.length
      (fun index formula ↦ direction = .forward →
        ∃ zone, zones[index]? = some zone ∧ formula = .reach zone) interpolant) ↦
      ⟨hpos, hfits, zones, rfl, hsame, hcovers⟩
    cases direction with
    | forward =>
      have hformula : ∀ (index : Nat) (pair : Zone × Option Zone),
          (zones.zip (zones.map fun _ ↦ none))[index]? = some pair →
          Yields (fun _ ↦ True) (formulaOf pair.1 pair.2) fun formula ↦
            Direction.forward = .forward →
              ∃ zone, zones[index]? = some zone ∧ formula = .reach zone := by
        intro index pair hpair
        obtain ⟨hzone, hentry⟩ := List.getElem?_zip_eq_some.mp hpair
        obtain ⟨_, -, hnone⟩ := List.mem_map.mp (List.mem_of_getElem? hentry)
        rw [← hnone]
        exact fun _ ↦ ⟨pair.1, hzone, rfl⟩
      exact (formulas_yields kind (by simpa using hsame) hpos hformula).weaken fun _ _ ↦ trivial
    | backward =>
      refine ((graph.backwardZones_length path (trace.length - 1)).lift
        fun _ _ ↦ trivial).bind fun bad hbad ↦ ?_
      refine (formulas_yields kind (by simp [hbad, hsame]; omega) hpos
        fun _ pair _ ↦ .of_forall fun _ _ ↦ nofun).weaken fun _ _ ↦ trivial

/-- Interpolation of a path that was replayed to the given zones succeeds. -/
theorem interpolate_yields (hmay : Tolerant may) (hexact : graph.Exact)
    (htolerated : graph.automaton.Tolerated may) (hrange : graph.automaton.ConstantsInRange)
    (herror : graph.ErrorPath path) (kind : InterpolantKind) (direction : Direction)
    {zones : List Zone} (hzones : graph.reachAlong path = .ok zones)
    (hreached : graph.Reached path 0 zones) (hnonempty : zones ≠ []) {trace : Trace}
    (htrace : trace.length = zones.length) :
    Yields (fun failure ↦ ∃ fault, failure = .broken fault ∧ may fault)
      (graph.interpolate kind direction path trace)
      (Covers kind zones.length (graph.FormulaAt path)) := by
  have hpos := List.length_pos_iff.mpr hnonempty
  have hlength : zones.length ≤ path.length := by simpa using hreached.length_le
  have hgood : ∀ {pairs : List (Zone × Option Zone)},
      (∀ (index : Nat) (pair : Zone × Option Zone), pairs[index]? = some pair →
        graph.PairedAt path index pair) →
      ∀ (index : Nat) (pair : Zone × Option Zone), pairs[index]? = some pair →
        Yields may (formulaOf pair.1 pair.2) (graph.FormulaAt path index) := by
    intro pairs hpaired index pair hpair
    have hat := hpaired index pair hpair
    exact formulaOf_yields hmay hat.reached hat.nonempty hat.backward
  unfold interpolate
  rw [htrace, if_neg (by omega), hzones]
  change Yields _ (if _ then _ else _) _
  rw [if_neg (by omega)]
  cases direction with
  | forward =>
    refine formulas_yields kind (by simp) hpos (hgood fun index pair hpair ↦
      hreached.paired (fun _ entry hentry zone hzone ↦ ?_) hpair)
    obtain ⟨_, -, rfl⟩ := List.mem_map.mp (List.mem_of_getElem? hentry)
    contradiction
  | backward =>
    refine ((backwardZones_yields hmay hexact htolerated hrange herror (by omega)).lift
      fun fault hfault ↦ ⟨fault, rfl, hfault⟩).bind ?_
    rintro bad ⟨hcount, hbad⟩
    refine formulas_yields kind (by simp; omega) hpos (hgood fun index pair hpair ↦
      hreached.paired (fun position entry hentry zone hzone ↦ ?_) hpair)
    rw [List.getElem?_map] at hentry
    obtain ⟨found, hfound, rfl⟩ := Option.map_eq_some_iff.mp hentry
    obtain rfl : found = zone := Option.some.inj hzone
    exact hbad position found hfound

/-! ### Separation -/

/-- A formula at a position whose state holds something reached and something unreached separates
the state: not all of its atoms are uniform on it. -/
theorem FormulaAt.not_uniformOn (hexact : graph.Exact) {index : Nat} {formula : Formula}
    (hformula : graph.FormulaAt path index formula) {id : StateId} {state : AbstractState}
    (hid : path[index]? = some id) (hstate : graph.state? id = some state)
    (hreached : ∃ valuation, graph.ReachedAt path index valuation)
    (hunreached : ∃ valuation ∈ state.zone, ¬ graph.ReachedAt path index valuation) :
    ¬ Formula.UniformOn formula state.zone := by
  rintro ⟨atoms, hlisted, huniform⟩
  have hatoms := (Zone.atoms_yields tolerant_true hformula.denotes hformula.nonempty).result hlisted
  have hsound := hexact.zoneSound (mem_of_state? hstate)
  have hsubset := Zone.subset_of_uniform hatoms hsound.canonical hsound.clocks_eq huniform
  obtain ⟨there, hthere⟩ := hreached
  have hmem := hthere.mem_of_state hid hstate
  rcases hformula.reached_or with hiff | ⟨hlies, hdisjoint⟩
  · obtain ⟨other, hother, hnot⟩ := hunreached
    exact hnot ((hiff other).mp (hsubset ⟨there, hmem, (hiff there).mpr hthere⟩ other hother))
  · obtain ⟨avoided, havoided⟩ :=
      (Zone.exists_mem_iff hformula.denotes.canonical).mp hformula.nonempty
    obtain ⟨here, found, hhere, hfound, hinside⟩ := hlies.subset avoided havoided
    obtain rfl : id = here := Option.some.inj (hid.symm.trans hhere)
    obtain rfl : state = found := Option.some.inj (hstate.symm.trans hfound)
    exact hdisjoint there hthere (hsubset ⟨avoided, hinside, havoided⟩ there hmem)

end TimedSafety.AbstractGraph
