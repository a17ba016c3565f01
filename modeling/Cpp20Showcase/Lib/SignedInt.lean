import Mathlib.Algebra.Ring.Int.Defs
import Mathlib.Data.List.Basic

/-! Signed integers of a fixed width whose addition must not overflow. -/

namespace Cpp20Showcase.Lib

/-- `x` is a value of the signed type of `w` bits. -/
def Fits (w : Nat) (x : Int) : Prop := -2 ^ (w - 1) ≤ x ∧ x < 2 ^ (w - 1)

instance (w : Nat) (x : Int) : Decidable (Fits w x) :=
  inferInstanceAs (Decidable (-2 ^ (w - 1) ≤ x ∧ x < 2 ^ (w - 1)))

structure Signed (w : Nat) where
  value : Int
  fits : Fits w value
deriving DecidableEq

namespace Signed

variable {w : Nat} {x y z : Signed w} {i : Int}

theorem ext_value (same : x.value = y.value) : x = y := by
  cases x
  cases y
  cases same
  rfl

theorem fits_zero (w : Nat) : Fits w 0 := by
  have positive : (0 : Int) < 2 ^ (w - 1) := Int.pow_pos (by decide)
  constructor
  · omega
  · exact positive

theorem fits_between (low : Fits w i) {j k : Int} (high : Fits w k) (above : i ≤ j) (below : j ≤ k) :
    Fits w j := by
  constructor
  · exact Int.le_trans low.1 above
  · exact Int.lt_of_le_of_lt below high.2

instance : OfNat (Signed w) 0 where
  ofNat := ⟨0, fits_zero w⟩

@[simp] theorem zero_value : (0 : Signed w).value = 0 := rfl

/-- Addition; `none` stands for an overflow, which has no behaviour. -/
def add (x y : Signed w) : Option (Signed w) :=
  if fits : Fits w (x.value + y.value) then some ⟨x.value + y.value, fits⟩ else none

theorem add_eq_some_iff : x.add y = some z ↔ z.value = x.value + y.value := by
  unfold add
  split
  next fits =>
    constructor
    · intro same
      cases same
      rfl
    · intro same
      exact congrArg some (ext_value same.symm)
  next unfit =>
    constructor
    · intro impossible
      cases impossible
    · intro same
      exact absurd (same ▸ z.fits) unfit

theorem add_eq_none_iff : x.add y = none ↔ ¬ Fits w (x.value + y.value) := by
  unfold add
  split
  next fits => simp [fits]
  next unfit => simp [unfit]

def sum (l : List (Signed w)) : Int := (l.map value).sum

@[simp] theorem sum_nil : sum ([] : List (Signed w)) = 0 := rfl

@[simp] theorem sum_cons (l : List (Signed w)) : sum (x :: l) = x.value + sum l := by
  simp [sum]

/-- Adding up from the left is exact when no partial sum leaves the type, and only then
has a behaviour. -/
theorem foldlM_add_eq_some_iff (l : List (Signed w)) (init total : Signed w) :
    l.foldlM add init = some total ↔
      (∀ k ≤ l.length, Fits w (init.value + sum (l.take k))) ∧
        total.value = init.value + sum l := by
  induction l generalizing init with
  | nil =>
    have start : Fits w init.value := init.fits
    simp only [List.foldlM_nil, List.length_nil, List.take_nil, sum_nil, Int.add_zero]
    constructor
    · intro same
      cases same
      exact ⟨fun _ _ => start, rfl⟩
    · intro same
      exact congrArg some (ext_value same.2.symm)
  | cons x rest tail =>
    rw [List.foldlM_cons]
    cases first : init.add x with
    | none =>
      have unfit := add_eq_none_iff.mp first
      constructor
      · intro impossible
        cases impossible
      · intro same
        have one := same.1 1 (by simp)
        simp only [List.take_succ_cons, List.take_zero, sum_cons, sum_nil, Int.add_zero] at one
        exact absurd one unfit
    | some next =>
      have moved := add_eq_some_iff.mp first
      change rest.foldlM add next = some total ↔ _
      rw [tail, moved, sum_cons, Int.add_assoc]
      constructor
      · intro same
        constructor
        · intro k bound
          cases k with
          | zero => simpa using init.fits
          | succ k =>
            have shorter := same.1 k (by simpa using bound)
            rwa [Int.add_assoc] at shorter
        · exact same.2
      · intro same
        constructor
        · intro k bound
          have longer := same.1 (k + 1) (by simpa using bound)
          rwa [List.take_succ_cons, sum_cons, ← Int.add_assoc] at longer
        · exact same.2

end Signed

end Cpp20Showcase.Lib
