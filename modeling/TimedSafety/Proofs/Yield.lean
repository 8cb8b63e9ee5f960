import Mathlib.Data.List.Forall2
import TimedSafety.Failure

/-!
Results of computations that can fault. `Yields may result post` says that a computation has a
result with the property `post`, or faults in one of the ways that `may` admits. With every fault
admitted it is what holds of all results; with overflows only, it also rules out all other faults.
One statement about an operation therefore serves both purposes.

The rules follow the shape of a computation: sequencing, folding a list and mapping it.
-/

set_option autoImplicit false

namespace TimedSafety

/-- Arithmetic left the range of a word. -/
def Fault.IsOverflow : Fault → Prop
  | boundOverflow _ _ => True
  | wordOverflow => True
  | _ => False

/-- The failure is an overflow, and no reported error. -/
def Failure.IsOverflow {ε : Type} : Failure ε → Prop
  | reported _ => False
  | broken fault => fault.IsOverflow

/-- Overflows are among the admitted faults. -/
def Tolerant (may : Fault → Prop) : Prop := ∀ fault : Fault, fault.IsOverflow → may fault

theorem tolerant_isOverflow : Tolerant Fault.IsOverflow := fun _ hfault ↦ hfault

theorem tolerant_true : Tolerant fun _ ↦ True := fun _ _ ↦ trivial

/-- A computation has a result if something can be read off it. -/
theorem exists_ok_of_map {ε α β : Type} {computation : Except ε α} {read : α → β} {value : β}
    (hread : computation.map read = .ok value) :
    ∃ result, computation = .ok result ∧ read result = value := by
  cases computation with
  | ok result => exact ⟨result, rfl, Except.ok.inj hread⟩
  | error fault => cases hread

/-- The computation has a result with the property, or faults in an admitted way. -/
def Yields {ε α : Type} (may : ε → Prop) (result : Except ε α) (post : α → Prop) : Prop :=
  match result with
  | .ok value => post value
  | .error fault => may fault

namespace Yields

variable {ε α β : Type} {may : ε → Prop}

@[simp] theorem ok_iff {value : α} {post : α → Prop} :
    Yields may (.ok value) post ↔ post value := Iff.rfl

@[simp] theorem pure_iff {value : α} {post : α → Prop} :
    Yields may (pure value) post ↔ post value := Iff.rfl

@[simp] theorem error_iff {fault : ε} {post : α → Prop} :
    Yields may (.error fault) post ↔ may fault := Iff.rfl

/-- The result of a computation has its property. -/
theorem result {computation : Except ε α} {post : α → Prop}
    (hyields : Yields may computation post) {value : α} (hresult : computation = .ok value) :
    post value := by
  subst hresult
  exact hyields

/-- The fault of a computation is an admitted one. -/
theorem fault {computation : Except ε α} {post : α → Prop}
    (hyields : Yields may computation post) {fault : ε}
    (hresult : computation = .error fault) : may fault := by
  subst hresult
  exact hyields

/-- A computation that admits no fault has a result. -/
theorem exists_ok {computation : Except ε α} {post : α → Prop}
    (hyields : Yields (fun _ ↦ False) computation post) :
    ∃ value, computation = .ok value ∧ post value := by
  cases computation with
  | ok value => exact ⟨value, rfl, hyields⟩
  | error fault => exact hyields.elim

/-- What holds of every result is yielded where all faults are admitted. -/
theorem of_forall {computation : Except ε α} {post : α → Prop}
    (hpost : ∀ value, computation = .ok value → post value) :
    Yields (fun _ ↦ True) computation post := by
  cases hresult : computation with
  | ok value => exact hpost value hresult
  | error fault => trivial

/-- Nothing is claimed of the result, and every fault is admitted. -/
theorem any (computation : Except ε α) : Yields (fun _ ↦ True) computation fun _ ↦ True :=
  .of_forall fun _ _ ↦ trivial

theorem mono {computation : Except ε α} {post weaker : α → Prop}
    (hyields : Yields may computation post) (himp : ∀ value, post value → weaker value) :
    Yields may computation weaker := by
  cases computation with
  | ok value => exact himp value hyields
  | error fault => exact hyields

/-- More faults may be admitted. -/
theorem weaken {more : ε → Prop} {computation : Except ε α} {post : α → Prop}
    (hyields : Yields may computation post) (himp : ∀ fault, may fault → more fault) :
    Yields more computation post := by
  cases computation with
  | ok value => exact hyields
  | error fault => exact himp fault hyields

/-- Two properties that are each yielded hold together of the result. The faults of the computation
are among those that either admits. -/
theorem and {others : ε → Prop} {computation : Except ε α} {first second : α → Prop}
    (hfirst : Yields may computation first) (hsecond : Yields others computation second) :
    Yields may computation fun value ↦ first value ∧ second value := by
  cases computation with
  | ok value => exact ⟨hfirst, hsecond⟩
  | error fault => exact hfirst

/-- Sequencing: what the first computation yields is enough for the second. -/
theorem bind {computation : Except ε α} {next : α → Except ε β} {between : α → Prop}
    {post : β → Prop} (hfirst : Yields may computation between)
    (hnext : ∀ value, between value → Yields may (next value) post) :
    Yields may (computation >>= next) post := by
  cases computation with
  | ok value => exact hnext value hfirst
  | error fault => exact hfirst

/-- Sequencing, where the second computation may also use which result the first one has. -/
theorem bind_eq {computation : Except ε α} {next : α → Except ε β} {between : α → Prop}
    {post : β → Prop} (hfirst : Yields may computation between)
    (hnext : ∀ value, computation = .ok value → between value → Yields may (next value) post) :
    Yields may (computation >>= next) post := by
  cases computation with
  | ok value => exact hnext value rfl hfirst
  | error fault => exact hfirst

/-- A computation that can only fault, inside one that can also report errors. -/
theorem lift {may : Fault → Prop} {admitted : Failure ε → Prop} {computation : Except Fault α}
    {post : α → Prop} (hyields : Yields may computation post)
    (hmay : ∀ fault, may fault → admitted (.broken fault)) :
    Yields admitted (liftM computation : Except (Failure ε) α) post := by
  cases computation with
  | ok value => exact hyields
  | error fault => exact hmay fault hyields

/-- A fold keeps what every step keeps. The invariant may speak of the elements done so far. -/
theorem foldlM {step : β → α → Except ε β} (invariant : List α → β → Prop)
    {elements : List α} {start : β} (hstart : invariant [] start)
    (hstep : ∀ before next after, elements = before ++ next :: after → ∀ current,
      invariant before current → Yields may (step current next) (invariant (before ++ [next]))) :
    Yields may (elements.foldlM step start) (invariant elements) := by
  induction elements generalizing start invariant with
  | nil => exact hstart
  | cons head tail ih =>
    rw [List.foldlM_cons]
    refine bind (hstep [] head tail rfl start hstart) fun current hcurrent ↦ ?_
    refine ih (fun done ↦ invariant (head :: done)) hcurrent ?_
    intro before next after helements value hvalue
    exact hstep (head :: before) next after (by rw [helements, List.cons_append]) value hvalue

/-- A fold keeps an invariant that does not speak of the elements done so far. -/
theorem foldlM_const {step : β → α → Except ε β} {invariant : β → Prop} {elements : List α}
    {start : β} (hstart : invariant start)
    (hstep : ∀ next ∈ elements, ∀ current, invariant current →
      Yields may (step current next) invariant) :
    Yields may (elements.foldlM step start) invariant := by
  refine foldlM (fun _ ↦ invariant) hstart ?_
  intro before next after helements current hcurrent
  exact hstep next (by simp [helements]) current hcurrent

/-- A fold that begins with the last element. The elements done so far are the last ones. -/
theorem foldlM_reverse {step : β → α → Except ε β} (invariant : List α → β → Prop)
    {elements : List α} {start : β} (hstart : invariant [] start)
    (hstep : ∀ next ∈ elements, ∀ done current, invariant done current →
      Yields may (step current next) (invariant (next :: done))) :
    Yields may (elements.reverse.foldlM step start) (invariant elements) := by
  induction elements with
  | nil => exact hstart
  | cons head tail ih =>
    rw [List.reverse_cons, List.foldlM_append]
    refine bind (ih fun next hnext ↦ hstep next (List.mem_cons_of_mem _ hnext)) ?_
    intro current hcurrent
    exact bind (hstep head List.mem_cons_self tail current hcurrent) fun _ hdone ↦ hdone

/-- Mapping relates every element to its result. -/
theorem mapM {step : α → Except ε β} {relation : α → β → Prop} {elements : List α}
    (hstep : ∀ element ∈ elements, Yields may (step element) (relation element)) :
    Yields may (elements.mapM step) (List.Forall₂ relation elements) := by
  induction elements with
  | nil => exact List.Forall₂.nil
  | cons head tail ih =>
    rw [List.mapM_cons]
    refine bind (hstep head (by simp)) fun first hfirst ↦ ?_
    refine bind (ih fun element hmem ↦ hstep element (by simp [hmem])) fun rest hrest ↦ ?_
    exact List.Forall₂.cons hfirst hrest

/-- Mapping, where the property of a result may speak of its position. -/
theorem mapM_index {step : α → Except ε β} {relation : Nat → β → Prop} {elements : List α}
    (hstep : ∀ (index : Nat) (element : α), elements[index]? = some element →
      Yields may (step element) (relation index)) :
    Yields may (elements.mapM step) fun results ↦ results.length = elements.length ∧
      ∀ (index : Nat) (result : β), results[index]? = some result → relation index result := by
  induction elements generalizing relation with
  | nil => simp
  | cons head tail ih =>
    rw [List.mapM_cons]
    refine bind (hstep 0 head rfl) fun first hfirst ↦ ?_
    refine bind (ih fun index element helement ↦ hstep (index + 1) element helement) ?_
    rintro rest ⟨hlength, hrest⟩
    refine ⟨by simp [hlength], fun index result hresult ↦ ?_⟩
    cases index with
    | zero =>
      obtain rfl : first = result := by simpa using hresult
      exact hfirst
    | succ index => exact hrest index result (by simpa using hresult)

/-- A loop over a list does every step. -/
theorem forM {step : α → Except ε PUnit} {property : α → Prop} {elements : List α}
    (hstep : ∀ element ∈ elements, Yields may (step element) fun _ ↦ property element) :
    Yields may (elements.forM step) fun _ ↦ ∀ element ∈ elements, property element := by
  induction elements with
  | nil => simp [List.forM]
  | cons head tail ih =>
    refine bind (hstep head (by simp)) fun _ hhead ↦ ?_
    refine (ih fun element hmem ↦ hstep element (by simp [hmem])).mono fun _ htail ↦ ?_
    exact List.forall_mem_cons.mpr ⟨hhead, htail⟩

/-- Every result of a mapping belongs to an element. -/
theorem exists_related {relation : α → β → Prop} {elements : List α} {results : List β}
    (hrelated : List.Forall₂ relation elements results) {result : β} (hmem : result ∈ results) :
    ∃ element ∈ elements, relation element result := by
  induction hrelated with
  | nil => exact absurd hmem List.not_mem_nil
  | @cons element first elements results hfirst _ ih =>
    rcases List.mem_cons.mp hmem with rfl | hrest
    · exact ⟨element, List.mem_cons_self, hfirst⟩
    · obtain ⟨other, hother, hrelation⟩ := ih hrest
      exact ⟨other, List.mem_cons_of_mem _ hother, hrelation⟩

end Yields

end TimedSafety
