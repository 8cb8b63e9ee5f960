import TimedSafety.Proofs.Yield
import TimedSafety.Verification.Journal

/-!
Results of computations that keep a journal. `Delivers may computation journal post` says that the
computation, begun with the journal, has a result that stands in the relation `post` to the journal
it leaves behind, or fails in one of the ways that `may` admits. The rules follow the shape of a
computation, as those of `Yields` do.
-/

set_option autoImplicit false

namespace TimedSafety

variable {ε ε' α β : Type} {may : Failure ε → Prop}

theorem Recorded.run_bind (computation : Recorded ε α) (next : α → Recorded ε β)
    (journal : Journal) :
    (computation >>= next).run.run journal =
      match computation.run.run journal with
      | (.ok value, after) => (next value).run.run after
      | (.error failure, after) => (.error failure, after) := by
  change (ExceptT.bind computation next).run journal = _
  simp only [ExceptT.bind, ExceptT.mk, StateT.run, Bind.bind, StateT.bind, ExceptT.run]
  rcases computation journal with ⟨_ | _, _⟩ <;> rfl

/-- A run has a result if something can be read off it. -/
theorem exists_some_of_map {run : Except (Failure ε) (Option α) × Journal} {read : α → β}
    {value : β} (hread : run.1.map (·.map read) = .ok (some value)) :
    ∃ result after, run = (.ok (some result), after) ∧ read result = value := by
  obtain ⟨found, hfound, hvalue⟩ := exists_ok_of_map hread
  obtain ⟨result, rfl, hresult⟩ := Option.map_eq_some_iff.mp hvalue
  exact ⟨result, run.2, Prod.ext hfound rfl, hresult⟩

/-- The computation has a result with the property, or fails in an admitted way. -/
def Delivers (may : Failure ε → Prop) (computation : Recorded ε α) (journal : Journal)
    (post : α → Journal → Prop) : Prop :=
  Yields may (computation.run.run journal).1 (post · (computation.run.run journal).2)

namespace Delivers

variable {computation : Recorded ε α} {journal : Journal} {post : α → Journal → Prop}

/-- The result of a computation has its property. -/
theorem result (hdelivers : Delivers may computation journal post) {value : α} {after : Journal}
    (hresult : computation.run.run journal = (.ok value, after)) : post value after := by
  unfold Delivers at hdelivers
  rwa [hresult] at hdelivers

/-- The failure of a computation is an admitted one. -/
theorem failure (hdelivers : Delivers may computation journal post) {failure : Failure ε}
    {after : Journal} (hresult : computation.run.run journal = (.error failure, after)) :
    may failure := by
  unfold Delivers at hdelivers
  rwa [hresult] at hdelivers

theorem pure {value : α} (hpost : post value journal) :
    Delivers may (Pure.pure value) journal post := hpost

theorem throw {failure : Failure ε} (hmay : may failure) :
    Delivers may (MonadExcept.throw failure) journal post := hmay

/-- A computation that may fail in any way delivers what all its results have. -/
theorem of_forall (hmay : ∀ failure, may failure)
    (hpost : ∀ value after, computation.run.run journal = (.ok value, after) → post value after) :
    Delivers may computation journal post := by
  unfold Delivers
  rcases hresult : computation.run.run journal with ⟨failure | value, after⟩
  · exact hmay failure
  · exact hpost value after hresult

/-- Nothing is known of a computation that may do anything. -/
theorem any (hmay : ∀ failure, may failure) :
    Delivers may computation journal fun _ _ ↦ True :=
  of_forall hmay fun _ _ _ ↦ trivial

/-- What a computation that may fail in any way delivers, if it delivers anything. -/
theorem runs (computation : Recorded ε α) (journal : Journal) :
    Delivers (fun _ ↦ True) computation journal fun value after ↦
      computation.run.run journal = (.ok value, after) :=
  of_forall (fun _ ↦ trivial) fun _ _ hresult ↦ hresult

theorem mono {weaker : α → Journal → Prop} (hdelivers : Delivers may computation journal post)
    (himp : ∀ value after, post value after → weaker value after) :
    Delivers may computation journal weaker :=
  Yields.mono hdelivers fun value hvalue ↦ himp value _ hvalue

/-- More failures may be admitted. -/
theorem weaken {admits : Failure ε → Prop} (hdelivers : Delivers may computation journal post)
    (himp : ∀ failure, may failure → admits failure) : Delivers admits computation journal post :=
  Yields.weaken hdelivers himp

/-- Sequencing: what the first computation delivers is enough for the second. -/
theorem bind {next : α → Recorded ε β} {between : α → Journal → Prop}
    {post : β → Journal → Prop} (hfirst : Delivers may computation journal between)
    (hnext : ∀ value after, between value after → Delivers may (next value) after post) :
    Delivers may (computation >>= next) journal post := by
  unfold Delivers at hfirst ⊢
  rw [Recorded.run_bind]
  rcases hresult : computation.run.run journal with ⟨value | failure, after⟩ <;>
    rw [hresult] at hfirst
  · exact hfirst
  · exact hnext _ after hfirst

/-- A computation without journal leaves the journal as it is. -/
theorem ofExcept {result : Except (Failure ε) α} (hyields : Yields may result (post · journal)) :
    Delivers may (Recorded.ofExcept result) journal post := hyields

theorem ofFault {admitted : Fault → Prop} {result : Except Fault α}
    (hyields : Yields admitted result (post · journal))
    (hmay : ∀ fault, admitted fault → may (.broken fault)) :
    Delivers may (Recorded.ofFault result) journal post := by
  cases result with
  | ok value => exact hyields
  | error fault => exact hmay fault hyields

/-- Sequencing after a computation without journal that can only fault. -/
theorem ofFault_bind {admitted : Fault → Prop} {result : Except Fault α} {between : α → Prop}
    {next : α → Recorded ε β} {post : β → Journal → Prop}
    (hyields : Yields admitted result between)
    (hmay : ∀ fault, admitted fault → may (.broken fault))
    (hnext : ∀ value, between value → Delivers may (next value) journal post) :
    Delivers may (Recorded.ofFault result >>= next) journal post := by
  cases result with
  | ok value => exact hnext value hyields
  | error fault => exact hmay fault hyields

theorem mapError {may : Failure ε' → Prop} {reword : ε → ε'}
    (hdelivers : Delivers (fun failure ↦ may (failure.map reword)) computation journal post) :
    Delivers may (computation.mapError reword) journal post := by
  unfold Delivers at hdelivers ⊢
  have hrun : (computation.mapError reword).run.run journal =
      ((computation.run.run journal).1.mapError (Failure.map reword),
        (computation.run.run journal).2) := rfl
  rw [hrun]
  cases hresult : (computation.run.run journal).1 <;> rw [hresult] at hdelivers
  · exact hdelivers
  · exact hdelivers

/-- A computation that is given up where the run was asked to stop. -/
theorem unlessStopped {instead : α} (hstop : journal.stopped = true → post instead journal)
    (hdelivers : Delivers may computation journal post) :
    Delivers may (do if ← Recorded.isStopped then return instead else computation) journal
      post := by
  have hread : Delivers may (Recorded.isStopped : Recorded ε Bool) journal fun stopped after ↦
    stopped = journal.stopped ∧ after = journal := ⟨rfl, rfl⟩
  refine hread.bind ?_
  rintro stopped after ⟨rfl, rfl⟩
  by_cases hstopped : after.stopped = true
  · rw [if_pos hstopped]
    exact pure (hstop hstopped)
  · rw [if_neg hstopped]
    exact hdelivers

end Delivers

end TimedSafety
