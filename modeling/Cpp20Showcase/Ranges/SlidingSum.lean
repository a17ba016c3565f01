import Cpp20Showcase.Lib.SignedInt

/-! `sliding_sum` from `02_ranges/ranges_demo.h`. The sums are added up in `int`, so a
window whose exact sum is an `int` may still overflow on the way. -/

namespace Cpp20Showcase.Ranges.SlidingSum
open Lib

abbrev CInt := Signed 32

def accumulate (range : List CInt) (init : CInt) : Option CInt := range.foldlM Signed.add init

/-- `none` when an addition overflows. The guard keeps `data.size() - w + 1` from wrapping. -/
def slidingSum (data : List CInt) (w : Nat) : Option (List CInt) :=
  if w = 0 ∨ data.length < w then some []
  else (List.range (data.length - w + 1)).mapM fun i => accumulate (data.extract i (i + w)) 0

/-- The first `k` elements of a window add up to an `int`, for every `k` and every window. -/
def PartialSumsFit (data : List CInt) (w : Nat) : Prop :=
  ∀ i k, i + w ≤ data.length → k ≤ w → Fits 32 (Signed.sum (data.extract i (i + k)))

/-- One entry for each window, each the exact sum. -/
structure Exact (data : List CInt) (w : Nat) (result : List CInt) : Prop where
  size : result.length = data.length - w + 1
  entry : ∀ (k : Nat) (s : CInt), result[k]? = some s →
    s.value = Signed.sum (data.extract k (k + w))

variable {data result : List CInt} {w : Nat}

theorem mapM_eq_some_iff {α β : Type} {f : α → Option β} {l : List α} {r : List β} :
    l.mapM f = some r ↔ l.map f = r.map some := by
  induction l generalizing r with
  | nil =>
    cases r with
    | nil => simp
    | cons => simp
  | cons a rest tail =>
    rw [List.mapM_cons, List.map_cons]
    cases r with
    | nil =>
      cases f a with
      | none => simp
      | some => cases rest.mapM f with
        | none => simp
        | some => simp
    | cons b others =>
      have shorter := tail (r := others)
      cases f a with
      | none => simp
      | some => cases found : rest.mapM f with
        | none => simp [← shorter, found]
        | some => simp [← shorter, found]

theorem window_take {i k : Nat} (bound : k ≤ w) :
    (data.extract i (i + w)).take k = data.extract i (i + k) := by
  simp only [List.extract_eq_take_drop, List.take_take]
  congr 1
  omega

theorem window_length {i : Nat} (inside : i + w ≤ data.length) :
    (data.extract i (i + w)).length = w := by
  simp only [List.extract_eq_take_drop, List.length_take, List.length_drop]
  omega

theorem accumulate_window {i : Nat} {s : CInt} (inside : i + w ≤ data.length) :
    accumulate (data.extract i (i + w)) 0 = some s ↔
      (∀ k ≤ w, Fits 32 (Signed.sum (data.extract i (i + k)))) ∧
        s.value = Signed.sum (data.extract i (i + w)) := by
  rw [accumulate, Signed.foldlM_add_eq_some_iff, window_length inside]
  simp only [Signed.zero_value, Int.zero_add]
  constructor
  · intro added
    constructor
    · intro k bound
      rw [← window_take bound]
      exact added.1 k bound
    · exact added.2
  · intro sums
    constructor
    · intro k bound
      rw [window_take bound]
      exact sums.1 k bound
    · exact sums.2

theorem slidingSum_of_no_window (none_fits : w = 0 ∨ data.length < w) :
    slidingSum data w = some [] := by
  rw [slidingSum, if_pos none_fits]

/-- The function has a behaviour when no partial sum overflows, and then it is exact. -/
theorem slidingSum_eq_some_iff (positive : 0 < w) (bound : w ≤ data.length) :
    slidingSum data w = some result ↔ PartialSumsFit data w ∧ Exact data w result := by
  have windows : ¬ (w = 0 ∨ data.length < w) := by omega
  rw [slidingSum, if_neg windows, mapM_eq_some_iff]
  constructor
  · intro same
    have size : result.length = data.length - w + 1 := by
      have lengths := congrArg List.length same
      simpa using lengths.symm
    have added : ∀ i s, result[i]? = some s → accumulate (data.extract i (i + w)) 0 = some s := by
      intro i s found
      have entry := congrArg (fun l => l[i]?) same
      obtain ⟨inside, -⟩ := List.getElem?_eq_some_iff.mp found
      simp only [List.getElem?_map, found, Option.map_some] at entry
      rw [List.getElem?_range (by omega)] at entry
      exact Option.some.inj entry
    constructor
    · intro i k inside partly
      have entry : result[i]? = some result[i] := List.getElem?_eq_getElem (by omega)
      exact ((accumulate_window inside).mp (added i _ entry)).1 k partly
    · refine ⟨size, ?_⟩
      intro k s found
      obtain ⟨inside, -⟩ := List.getElem?_eq_some_iff.mp found
      exact ((accumulate_window (by omega)).mp (added k s found)).2
  · intro exact_sums
    obtain ⟨fit, size, entry⟩ := exact_sums
    apply List.ext_getElem
    · simp [size]
    · intro i left right
      have inside : i < result.length := by simpa using right
      simp only [List.getElem_map, List.getElem_range]
      rw [accumulate_window (by omega)]
      constructor
      · intro k partly
        exact fit i k (by omega) partly
      · exact entry i _ (List.getElem?_eq_getElem inside)

theorem exists_exact (bound : w ≤ data.length) (fit : PartialSumsFit data w) :
    ∃ result, Exact data w result := by
  have whole : ∀ i : Fin (data.length - w + 1), Fits 32 (Signed.sum (data.extract i (i + w))) := by
    intro i
    exact fit i w (by omega) (by omega)
  refine ⟨List.ofFn fun i => ⟨_, whole i⟩, by simp, ?_⟩
  intro k s found
  rw [List.getElem?_ofFn] at found
  split at found
  · cases found
    rfl
  · cases found

/-- No window, no entries; otherwise what is returned is exact, and nothing overflows as long
as the partial sums of the windows are values of `int`. -/
theorem sliding_sum_exact (data : List CInt) (w : Nat) :
    ((w = 0 ∨ data.length < w) → slidingSum data w = some []) ∧
    (0 < w → w ≤ data.length →
      (∀ result, slidingSum data w = some result → Exact data w result) ∧
      (PartialSumsFit data w → ∃ result, slidingSum data w = some result ∧ Exact data w result)) := by
  constructor
  · exact slidingSum_of_no_window
  · intro positive bound
    constructor
    · intro result returned
      exact ((slidingSum_eq_some_iff positive bound).mp returned).2
    · intro fit
      obtain ⟨result, exact_sums⟩ := exists_exact bound fit
      exact ⟨result, (slidingSum_eq_some_iff positive bound).mpr ⟨fit, exact_sums⟩, exact_sums⟩

/-- The greatest `int`, 1 and -2. -/
def peak : List CInt := [⟨2147483647, by decide⟩, ⟨1, by decide⟩, ⟨-2, by decide⟩]

/-- The one window of `peak` sums to an `int`, and adding it up overflows. -/
theorem sliding_sum_overflows :
    (∀ i, i + 3 ≤ peak.length → Fits 32 (Signed.sum (peak.extract i (i + 3)))) ∧
      slidingSum peak 3 = none := by
  constructor
  · intro i inside
    have start : i = 0 := by
      change i + 3 ≤ 3 at inside
      omega
    rw [start]
    decide
  · decide

def counting : List CInt :=
  [⟨1, by decide⟩, ⟨2, by decide⟩, ⟨3, by decide⟩, ⟨4, by decide⟩, ⟨5, by decide⟩]

theorem sliding_sum_exact_counting :
    slidingSum counting 0 = some [] ∧ ∃ result, slidingSum counting 3 = some result ∧
      Exact counting 3 result ∧ result.map Signed.value = [6, 9, 12] := by
  have fit : PartialSumsFit counting 3 := by
    intro i k inside bound
    have few : i < 3 := by
      change i + 3 ≤ 5 at inside
      omega
    have small : ∀ i < 3, ∀ k < 4, Fits 32 (Signed.sum (counting.extract i (i + k))) := by decide
    exact small i few k (by omega)
  obtain ⟨result, returned, exact_sums⟩ :=
    ((sliding_sum_exact counting 3).2 (by decide) (by decide)).2 fit
  have values : (slidingSum counting 3).map (fun r => r.map Signed.value) = some [6, 9, 12] := by
    decide
  rw [returned] at values
  exact ⟨(sliding_sum_exact counting 0).1 (.inl rfl), result, returned, exact_sums,
    Option.some.inj values⟩

end Cpp20Showcase.Ranges.SlidingSum
