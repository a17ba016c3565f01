import Mathlib.Tactic.Linarith
import Cpp20Showcase.Lib.View
import Cpp20Showcase.Ranges.SlidingSum

/-! `even_squares` and `long_words_upper` from `02_ranges/ranges_demo.h`, as the views they are
made of. A square is computed when it is copied, so only those taken can overflow. -/

namespace Cpp20Showcase.Ranges.Pipelines

open Lib SlidingSum

/-- `x % 2 == 0`. -/
def isEven (x : CInt) : Bool := x.value.tmod 2 == 0

/-- `x * x`; `none` when it overflows. -/
def square (x : CInt) : Option CInt :=
  if fits : Fits 32 (x.value * x.value) then some ⟨x.value * x.value, fits⟩ else none

/-- `none` when a product overflows, or when the number to take is negative. -/
def evenSquares (data : List CInt) (n : CInt) : Option (List CInt) :=
  if n.value < 0 then none
  else ((((View.ofList data).filter isEven).transform square).take n.value.toNat).copy

/-- The bytes of a `std::string`. -/
abbrev Word := List UInt8

/-- `std::toupper` in the "C" locale. -/
def toupper (c : UInt8) : UInt8 := if 97 ≤ c ∧ c ≤ 122 then c - 32 else c

def toUpper (s : Word) : Word := s.map toupper

def longWordsUpper (words : List Word) (min_len : Nat) : Option (List Word) :=
  (((View.ofList words).filter fun w => w.length > min_len).transform fun s => some (toUpper s)).copy

variable {data result : List CInt} {n x y : CInt}

/-- What is squared: the even numbers that are taken. -/
def chosen (data : List CInt) (n : CInt) : List CInt := (data.filter isEven).take n.value.toNat

theorem square_eq_some_iff : square x = some y ↔ y.value = x.value * x.value := by
  unfold square
  split
  next fits =>
    constructor
    · intro same
      cases same
      rfl
    · intro same
      exact congrArg some (Signed.ext_value same.symm)
  next unfit =>
    constructor
    · intro impossible
      cases impossible
    · intro same
      exact absurd (same ▸ y.fits) unfit

theorem fits_square {i : Int} : Fits 32 (i * i) ↔ -46340 ≤ i ∧ i ≤ 46340 := by
  constructor
  · intro fits
    have below : i * i < 2147483648 := fits.2
    constructor <;> nlinarith
  · rintro ⟨low, high⟩
    have positive : 0 ≤ i * i := mul_self_nonneg i
    have below : i * i ≤ 46340 * 46340 := by nlinarith
    constructor <;> omega

theorem evenSquares_eq (taken : 0 ≤ n.value) : evenSquares data n = (chosen data n).mapM square := by
  have displays := (View.displays_ofList data).filter (p := isEven) |>.transform (f := square)
    |>.take (n := n.value.toNat)
  have reads : (((data.filter isEven).map some).map fun a => a.bind square).take n.value.toNat =
      (chosen data n).map square := by
    simp [chosen, List.map_take, Function.comp_def]
  rw [evenSquares, if_neg (Int.not_lt.mpr taken), displays.copy, reads, List.mapM_map]
  rfl

theorem map_square_iff {l r : List CInt} :
    l.map square = r.map some ↔ r.map Signed.value = l.map fun x => x.value * x.value := by
  induction l generalizing r with
  | nil => simp
  | cons x l ih =>
    cases r with
    | nil => simp
    | cons y r => simp [square_eq_some_iff, ih]

theorem isSome_square : (square x).isSome ↔ Fits 32 (x.value * x.value) := by
  unfold square
  split
  next fits => simp [fits]
  next unfit => simp [unfit]

theorem isSome_mapM {α β : Type} {f : α → Option β} {l : List α} :
    (l.mapM f).isSome ↔ ∀ x ∈ l, (f x).isSome := by
  induction l with
  | nil => simp
  | cons x l ih =>
    rw [List.mapM_cons, List.forall_mem_cons, ← ih]
    cases f x with
    | none => simp
    | some y => cases l.mapM f with
      | none => simp
      | some r => simp

/-- The pipeline gives the squares of the first `n` even numbers, and has a behaviour unless one
of these squares overflows: what comes after them is never squared. -/
theorem evenSquares_iff (data : List CInt) (n : CInt) :
    (∀ result, evenSquares data n = some result ↔
      0 ≤ n.value ∧ result.map Signed.value = (chosen data n).map fun x => x.value * x.value) ∧
    ((evenSquares data n).isSome ↔
      0 ≤ n.value ∧ ∀ x ∈ chosen data n, -46340 ≤ x.value ∧ x.value ≤ 46340) := by
  by_cases taken : 0 ≤ n.value
  · rw [evenSquares_eq taken, isSome_mapM]
    constructor
    · intro result
      rw [mapM_eq_some_iff, map_square_iff]
      exact (and_iff_right taken).symm
    · simp only [isSome_square, fits_square, taken, true_and]
  · have none_taken : evenSquares data n = none := if_pos (Int.not_le.mp taken)
    simp [none_taken, taken]

theorem longWordsUpper_eq (words : List Word) (min_len : Nat) :
    longWordsUpper words min_len = some ((words.filter fun w => w.length > min_len).map toUpper) := by
  have displays := (View.displays_ofList words).filter (p := fun w => w.length > min_len)
    |>.transform (f := fun s => some (toUpper s))
  rw [longWordsUpper, displays.copy, mapM_eq_some_iff]
  simp [Function.comp_def]

theorem toupper_toupper (c : UInt8) : toupper (toupper c) = toupper c := by
  unfold toupper
  split_ifs with lower again
  · simp only [UInt8.le_iff_toNat_le, UInt8.toNat_ofNat] at lower again
    have less : (32 : UInt8) ≤ c := UInt8.le_iff_toNat_le.mpr (Nat.le_trans (by decide) lower.1)
    rw [UInt8.toNat_sub_of_le c 32 less, show (32 : UInt8).toNat = 32 from rfl] at again
    omega
  all_goals rfl

/-- Filtering the result again is filtering once, by the larger bound; nothing is upper-cased twice. -/
theorem longWordsUpper_twice (words : List Word) (first second : Nat) :
    ((longWordsUpper words first).bind fun result => longWordsUpper result second) =
      longWordsUpper words (max first second) := by
  have twice : toUpper ∘ toUpper = toUpper := by
    funext s
    simp [toUpper, toupper_toupper]
  have both (w : Word) : (decide ((toUpper w).length > second) && decide (w.length > first)) =
      decide (w.length > max first second) := by
    rw [toUpper, List.length_map, ← Bool.decide_and]
    apply decide_eq_decide.mpr
    omega
  rw [longWordsUpper_eq, Option.bind_some, longWordsUpper_eq, longWordsUpper_eq, List.filter_map, List.map_map,
    List.filter_filter, twice]
  simp only [Function.comp_apply, both]

end Cpp20Showcase.Ranges.Pipelines
