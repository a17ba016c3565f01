import Cpp20Showcase.Lib.SignedInt
import Cpp20Showcase.Coroutines.GeneratorDrain

/-! `irange` from `03_coroutines/generator.h`. The loop adds the step once more after the
last value it yields, before it compares with the bound. -/

namespace Cpp20Showcase.Coroutines.Irange
open Lib Generator GeneratorDelivery GeneratorDrain

abbrev LongLong := Signed 64

/-- Stands where an addition overflows; such a body has no behaviour from there on. -/
inductive Overflow where
  | overflow

variable {start stop step i : LongLong} {n k : Nat}

/-- `i` when the body is resumed for the `n`th time: `start` first, and `i += step` each time. -/
def loopVariable (start step : LongLong) : Nat → Option LongLong
  | 0 => some start
  | n + 1 => (loopVariable start step n).bind fun i => i.add step

/-- `(step > 0) ? (i < stop) : (i > stop)`. -/
def Continues (stop step i : Int) : Prop := if step > 0 then i < stop else i > stop

instance (stop step i : Int) : Decidable (Continues stop step i) := by
  unfold Continues
  infer_instance

def irangeImpl (start stop step : LongLong) (n : Nat) : Signal LongLong Overflow :=
  match loopVariable start step n with
  | none => .throw .overflow
  | some i => if Continues stop.value step.value i.value then .yield i else .finish

/-- The generator, by the body of its coroutine, or the text of the `invalid_argument`. -/
def irange (start stop step : LongLong) : Except String (Nat → Signal LongLong Overflow) :=
  if step.value = 0 then .error "irange: step must not be zero" else .ok (irangeImpl start stop step)

/-- The number of terms, `max(0, ceil((stop - start) / step))`. -/
def terms (start stop step : Int) : Nat := (-((start - stop).fdiv step)).toNat

def progression (start stop step : Int) : List Int :=
  (List.range (terms start stop step)).map fun k : Nat => start + k * step

/-- Draining `irange` yields the whole progression and no addition overflows. -/
def Enumerates (start stop step : LongLong) : Prop :=
  ∃ body values, irange start stop step = .ok body ∧
    Collects pushThenIncrement body (.returned values) ∧
    values.map Signed.value = progression start.value stop.value step.value

theorem lt_ceil_iff {low high step : Int} (positive : 0 < step) (k : Nat) :
    k < (-((low - high).fdiv step)).toNat ↔ low + k * step < high := by
  have floor : (low - high).fdiv step = (low - high) / step :=
    Int.fdiv_eq_ediv_of_nonneg _ (by omega)
  calc k < (-((low - high).fdiv step)).toNat
      ↔ (low - high) / step < -(k : Int) := by
        rw [floor]
        omega
    _ ↔ low - high < -(k : Int) * step := Int.ediv_lt_iff_lt_mul positive
    _ ↔ low + k * step < high := by
        rw [Int.neg_mul]
        omega

theorem lt_terms_iff {start stop step : Int} (nonzero : step ≠ 0) (k : Nat) :
    k < terms start stop step ↔ Continues stop step (start + k * step) := by
  unfold terms Continues
  split
  next up => exact lt_ceil_iff up k
  next down =>
    have mirrored : (start - stop).fdiv step = (-start - -stop).fdiv (-step) := by
      rw [← Int.neg_fdiv_neg]
      congr 1
      omega
    rw [mirrored, lt_ceil_iff (by omega) k, Int.mul_neg]
    omega

theorem past_terms {start stop step : Int} (nonzero : step ≠ 0) :
    ¬Continues stop step (start + terms start stop step * step) :=
  (lt_terms_iff nonzero _).not.mp (Nat.lt_irrefl _)

theorem fits_term (inside : k < terms start.value stop.value step.value) (nonzero : step.value ≠ 0) :
    Fits 64 (start.value + k * step.value) := by
  have near := (lt_terms_iff nonzero k).mp inside
  unfold Continues at near
  split at near
  next up =>
    have forward : 0 ≤ (k : Int) * step.value := Int.mul_nonneg (by omega) (by omega)
    exact Signed.fits_between start.fits stop.fits (by omega) (by omega)
  next down =>
    have backward : (k : Int) * step.value ≤ 0 := Int.mul_nonpos_of_nonneg_of_nonpos (by omega) (by omega)
    exact Signed.fits_between stop.fits start.fits (by omega) (by omega)

theorem loopVariable_succ (at_n : loopVariable start step n = some i)
    (reached : i.value = start.value + n * step.value) :
    loopVariable start step (n + 1) =
      if fits : Fits 64 (start.value + (n + 1 : Nat) * step.value) then some ⟨_, fits⟩ else none := by
  have next : i.value + step.value = start.value + (n + 1 : Nat) * step.value := by
    rw [reached, Int.natCast_succ, Int.add_mul]
    omega
  rw [loopVariable, at_n, Option.bind_some]
  split
  next fits =>
    rw [Signed.add_eq_some_iff]
    exact next.symm
  next unfit =>
    rw [Signed.add_eq_none_iff, next]
    exact unfit

theorem loopVariable_term (nonzero : step.value ≠ 0) (inside : k < terms start.value stop.value step.value) :
    loopVariable start step k = some ⟨start.value + k * step.value, fits_term inside nonzero⟩ := by
  induction k with
  | zero =>
    apply congrArg some
    apply Signed.ext_value
    simp
  | succ k earlier =>
    have before := earlier (by omega)
    rw [loopVariable_succ before rfl, dif_pos (fits_term inside nonzero)]

theorem loopVariable_terms (nonzero : step.value ≠ 0) (total : terms start.value stop.value step.value = n) :
    loopVariable start step n =
      if fits : Fits 64 (start.value + n * step.value) then some ⟨_, fits⟩ else none := by
  cases n with
  | zero =>
    have fits : Fits 64 (start.value + (0 : Nat) * step.value) := by
      simpa using start.fits
    rw [dif_pos fits]
    apply congrArg some
    apply Signed.ext_value
    simp
  | succ n =>
    have last : n < terms start.value stop.value step.value := by omega
    exact loopVariable_succ (loopVariable_term nonzero last) rfl

def finiteBody (start stop step : LongLong) (nonzero : step.value ≠ 0) : FiniteBody LongLong Overflow where
  body := irangeImpl start stop step
  values := List.ofFn fun k : Fin (terms start.value stop.value step.value) =>
    ⟨start.value + k * step.value, fits_term k.isLt nonzero⟩
  yields := by
    intro k v found
    rw [List.getElem?_ofFn] at found
    split at found
    next inside =>
      cases found
      have near := (lt_terms_iff nonzero k).mp inside
      rw [irangeImpl, loopVariable_term nonzero inside]
      simp only [if_pos near]
    next => cases found
  stops := by
    intro v yielded
    rw [List.length_ofFn, irangeImpl, loopVariable_terms nonzero rfl] at yielded
    split at yielded
    next => cases yielded
    next i reached =>
      split at reached
      next fits =>
        cases reached
        rw [if_neg (past_terms nonzero)] at yielded
        cases yielded
      next => cases reached

theorem finiteBody_values (nonzero : step.value ≠ 0) :
    (finiteBody start stop step nonzero).values.map Signed.value =
      progression start.value stop.value step.value := by
  apply List.ext_getElem
  · simp [finiteBody, progression]
  · intro k left right
    simp [finiteBody, progression]

theorem finiteBody_ended (nonzero : step.value ≠ 0) (out : List LongLong) :
    (finiteBody start stop step nonzero).ended out =
      if Fits 64 (start.value + terms start.value stop.value step.value * step.value) then .returned out
      else .threw out .overflow := by
  simp only [FiniteBody.ended, finiteBody, List.length_ofFn, irangeImpl, loopVariable_terms nonzero rfl]
  by_cases fits : Fits 64 (start.value + terms start.value stop.value step.value * step.value)
  · simp only [dif_pos fits, if_pos fits, if_neg (past_terms nonzero)]
  · simp only [dif_neg fits, if_neg fits]

theorem collects_irange (start stop : LongLong) (nonzero : step.value ≠ 0) :
    ∃ body values, irange start stop step = .ok body ∧
      values.map Signed.value = progression start.value stop.value step.value ∧
      Collects pushThenIncrement body
        (if Fits 64 (start.value + terms start.value stop.value step.value * step.value) then .returned values
        else .threw values .overflow) := by
  have made : irange start stop step = .ok (finiteBody start stop step nonzero).body := by
    rw [irange, if_neg nonzero]
    rfl
  have drained := collects_values (finiteBody start stop step nonzero)
  rw [finiteBody_ended] at drained
  exact ⟨_, _, made, finiteBody_values nonzero, drained⟩

theorem enumerates_iff (nonzero : step.value ≠ 0) :
    Enumerates start stop step ↔
      Fits 64 (start.value + terms start.value stop.value step.value * step.value) := by
  obtain ⟨body, values, made, exact_values, drained⟩ :=
    collects_irange start stop nonzero
  constructor
  · intro enumerates
    obtain ⟨other, returned, same, collected, -⟩ := enumerates
    cases made.symm.trans same
    have ended := collected.unique drained
    split at ended
    next fits => exact fits
    next => cases ended
  · intro fits
    rw [if_pos fits] at drained
    exact ⟨body, values, made, drained, exact_values⟩

/-- `irange` enumerates its progression just when the first term left out is a `long long`
as well. -/
theorem irange_enumerates_iff (start stop step : LongLong) (nonzero : step.value ≠ 0) :
    (∀ k : Nat, k < terms start.value stop.value step.value ↔
      Continues stop.value step.value (start.value + k * step.value)) ∧
    (Enumerates start stop step ↔
      Fits 64 (start.value + terms start.value stop.value step.value * step.value)) := by
  exact ⟨lt_terms_iff nonzero, enumerates_iff nonzero⟩

/-- `irange(LLONG_MAX - 1, LLONG_MAX, 2)` has one term, and overflows after it. -/
theorem irange_overflows :
    progression 9223372036854775806 9223372036854775807 2 = [9223372036854775806] ∧
      ¬ Enumerates ⟨9223372036854775806, by decide⟩ ⟨9223372036854775807, by decide⟩ ⟨2, by decide⟩ := by
  constructor
  · decide
  · rw [enumerates_iff (by decide)]
    decide

theorem irange_enumerates_even :
    (∀ k : Nat, k < terms 0 5 2 ↔ Continues 5 2 (0 + k * 2)) ∧ progression 0 5 2 = [0, 2, 4] ∧
      Enumerates ⟨0, by decide⟩ ⟨5, by decide⟩ ⟨2, by decide⟩ := by
  obtain ⟨count, enumerated⟩ :=
    irange_enumerates_iff ⟨0, by decide⟩ ⟨5, by decide⟩ ⟨2, by decide⟩ (by decide)
  exact ⟨count, by decide, enumerated.mpr (by decide)⟩

end Cpp20Showcase.Coroutines.Irange
