import Mathlib.Algebra.Order.Ring.Int
import Cpp20Showcase.Lib.SignedInt

/-! `sum` of `01_concepts/concepts.h` over the integral types. Elements narrower than `int` are
added up in `int` and stored back into an accumulator of their own type. -/

namespace Cpp20Showcase.Concepts.Numeric

open Cpp20Showcase.Lib

inductive Width where
  | w8
  | w16
  | w32
  | w64
deriving DecidableEq

def Width.bits : Width → Nat
  | .w8 => 8
  | .w16 => 16
  | .w32 => 32
  | .w64 => 64

inductive Integral where
  | bool
  | unsigned (w : Width)
  | signed (w : Width)
deriving DecidableEq

namespace Integral

def Holds : Integral → Int → Prop
  | .bool, x => x = 0 ∨ x = 1
  | .unsigned w, x => 0 ≤ x ∧ x < 2 ^ w.bits
  | .signed w, x => Fits w.bits x

/-- `static_cast` from an integer. -/
def convert : Integral → Int → Int
  | .bool, x => if x = 0 then 0 else 1
  | .unsigned w, x => x % 2 ^ w.bits
  | .signed w, x => x.bmod (2 ^ w.bits)

def promoted : Integral → Integral
  | .bool => .signed .w32
  | .unsigned .w8 => .signed .w32
  | .unsigned .w16 => .signed .w32
  | .signed .w8 => .signed .w32
  | .signed .w16 => .signed .w32
  | t => t

/-- An addition in the type; `none` when it overflows, which has no behaviour. -/
def plus (t : Integral) (x y : Int) : Option Int :=
  match t with
  | .signed w => if Fits w.bits (x + y) then some (x + y) else none
  | t => some (t.convert (x + y))

/-- `acc += v` on values of the type. -/
def addAssign (t : Integral) (acc v : Int) : Option Int :=
  (t.promoted.plus acc v).map t.convert

end Integral

/-- `none` when an addition overflows. -/
def sum (t : Integral) (c : List Int) : Option Int := c.foldlM t.addAssign 0

namespace Integral

/-- The exact sum is one that the additions of the type have no behaviour for. -/
def Overflows : Integral → Int → Prop
  | .signed w, x => 32 ≤ w.bits ∧ ¬Fits w.bits x
  | _, _ => False

variable {t : Integral} {a v : Int}

theorem convert_of_fits {w : Width} (fits : Fits w.bits a) : (signed w).convert a = a := by
  cases w <;>
  · simp only [Fits, Width.bits] at fits
    apply Int.bmod_eq_of_le <;> simp only [Width.bits] <;> omega

theorem convert_add (holds : t.Holds v) (counts : t = .bool → 0 ≤ a) :
    t.convert (t.convert a + v) = t.convert (a + v) := by
  cases t with
  | bool =>
    have positive := counts rfl
    simp only [Holds] at holds
    simp only [convert]
    split_ifs <;> omega
  | unsigned w => exact Int.emod_add_emod a _ v
  | signed w => exact Int.bmod_add_bmod

theorem addAssign_of_fits {w : Width} (target : t.promoted = .signed w) (fits : Fits w.bits (a + v)) :
    t.addAssign a v = some (t.convert (a + v)) := by
  rw [addAssign, target, plus, if_pos fits, Option.map_some]

theorem holds_convert (t : Integral) (a : Int) : t.Holds (t.convert a) := by
  cases t with
  | bool =>
    simp only [convert, Holds]
    split_ifs <;> simp
  | unsigned w =>
    have positive : (0 : Int) < 2 ^ w.bits := Int.pow_pos (by decide)
    exact ⟨Int.emod_nonneg _ (by omega), Int.emod_lt_of_pos _ positive⟩
  | signed w =>
    have low := Int.le_bmod (x := a) (m := 2 ^ w.bits) (Nat.pow_pos (by decide))
    have high := Int.bmod_lt (x := a) (m := 2 ^ w.bits) (Nat.pow_pos (by decide))
    cases w <;>
    · simp only [convert, Holds, Fits, Width.bits] at low high ⊢
      omega

theorem fits_narrow {x y : Int} (narrow : t.promoted = .signed .w32) (same : t ≠ .signed .w32)
    (first : t.Holds x) (second : t.Holds y) : Fits 32 (x + y) := by
  have small {x : Int} (holds : t.Holds x) : -2 ^ 15 ≤ x ∧ x < 2 ^ 16 := by
    cases t with
    | bool =>
      simp only [Holds] at holds
      omega
    | unsigned w =>
      cases w with
      | w8 | w16 =>
        simp only [Holds, Width.bits] at holds
        omega
      | w32 | w64 => cases narrow
    | signed w =>
      cases w with
      | w8 | w16 =>
        simp only [Holds, Fits, Width.bits] at holds
        omega
      | w32 => exact absurd rfl same
      | w64 => cases narrow
  have low := small first
  have high := small second
  simp only [Fits]
  omega

theorem addAssign_convert (holds : t.Holds v) (exact : ¬t.Overflows a) (counts : t = .bool → 0 ≤ a) :
    (t.Overflows (a + v) ∧ t.addAssign (t.convert a) v = none) ∨
      (¬t.Overflows (a + v) ∧ t.addAssign (t.convert a) v = some (t.convert (a + v))) := by
  have narrow (target : t.promoted = .signed .w32) (same : t ≠ .signed .w32) :
      t.addAssign (t.convert a) v = some (t.convert (a + v)) := by
    rw [addAssign_of_fits target (fits_narrow target same (holds_convert t a) holds), convert_add holds counts]
  have modular {w : Width} (same : t = .unsigned w) (itself : t.promoted = t) :
      t.addAssign (t.convert a) v = some (t.convert (a + v)) := by
    rw [addAssign, itself, ← convert_add holds counts]
    subst same
    exact congrArg some (Int.emod_emod _ _)
  have wide {w : Width} (same : t = .signed w) (itself : t.promoted = t) (fits : Fits w.bits a) :
      t.addAssign (t.convert a) v = if Fits w.bits (a + v) then some (t.convert (a + v)) else none := by
    subst same
    rw [addAssign, itself, convert_of_fits fits, plus]
    split <;> rfl
  cases t with
  | bool => exact .inr ⟨id, narrow rfl (by decide)⟩
  | unsigned w =>
    cases w with
    | w8 | w16 => exact .inr ⟨id, narrow rfl (by decide)⟩
    | w32 | w64 => exact .inr ⟨id, modular rfl rfl⟩
  | signed w =>
    by_cases large : 32 ≤ w.bits
    · have itself : (signed w).promoted = signed w := by
        cases w with
        | w8 | w16 => exact absurd large (by decide)
        | w32 | w64 => rfl
      have before : Fits w.bits a := by
        by_contra unfit
        exact exact ⟨large, unfit⟩
      rw [wide rfl itself before]
      by_cases fits : Fits w.bits (a + v)
      · exact .inr ⟨fun beyond => beyond.2 fits, if_pos fits⟩
      · exact .inl ⟨⟨large, fits⟩, if_neg fits⟩
    · refine .inr ⟨fun beyond => large beyond.1, ?_⟩
      cases w with
      | w8 | w16 => exact narrow rfl (by decide)
      | w32 | w64 => exact absurd (by decide) large

theorem not_overflows_zero (t : Integral) : ¬t.Overflows 0 := by
  cases t with
  | signed w => exact fun beyond => beyond.2 (Signed.fits_zero _)
  | _ => exact id

theorem foldlM_addAssign {c : List Int} (total : Int) (holds : ∀ v ∈ c, t.Holds v) (exact : ¬t.Overflows a)
    (counts : t = .bool → 0 ≤ a) :
    c.foldlM t.addAssign (t.convert a) = some total ↔
      (∀ k ≤ c.length, ¬t.Overflows (a + (c.take k).sum)) ∧ total = t.convert (a + c.sum) := by
  induction c generalizing a with
  | nil => simp [exact, eq_comm]
  | cons v c ih =>
    obtain ⟨first, rest⟩ := List.forall_mem_cons.mp holds
    rw [List.foldlM_cons]
    rcases addAssign_convert first exact counts with ⟨beyond, stuck⟩ | ⟨exact', added⟩
    · rw [stuck]
      refine iff_of_false nofun ?_
      rintro ⟨none_over, -⟩
      refine none_over 1 (by simp) ?_
      simpa using beyond
    · have counts' : t = .bool → 0 ≤ a + v := by
        rintro rfl
        have positive := counts rfl
        simp only [Holds] at first
        omega
      rw [added, Option.bind_eq_bind, Option.bind_some, ih rest exact' counts', List.sum_cons, Int.add_assoc]
      refine and_congr_left fun _ => ⟨?_, ?_⟩
      · intro later k bound
        cases k with
        | zero => simpa using exact
        | succ k => simpa [Int.add_assoc] using later k (by simpa using bound)
      · intro all k bound
        simpa [Int.add_assoc] using all (k + 1) (by simpa using bound)

end Integral

/-- Adding up elements that are bools, unsigned or narrower than `int` always has a behaviour; the
sum is the exact one, converted to the type of the elements. In `int` and in a wider signed type
it is exact, and has a behaviour when no partial sum overflows. -/
theorem sum_eq_some_iff {t : Integral} {c : List Int} (holds : ∀ v ∈ c, t.Holds v) (total : Int) :
    sum t c = some total ↔ (∀ k ≤ c.length, ¬t.Overflows (c.take k).sum) ∧ total = t.convert c.sum := by
  have start : t.convert 0 = 0 := by
    cases t with
    | bool => rfl
    | unsigned w => exact Int.zero_emod _
    | signed w => exact Int.zero_bmod
  have whole := Integral.foldlM_addAssign (a := 0) total holds t.not_overflows_zero fun _ => Int.le_refl 0
  simpa [sum, start] using whole

theorem sum_eq_some_iff_wraps : sum (.signed .w8) [100, 100, 100] = some 44 := by
  have holds : ∀ v ∈ [100, 100, 100], Integral.Holds (.signed .w8) v := by
    simp [Integral.Holds, Fits, Width.bits]
  exact (sum_eq_some_iff holds 44).mpr ⟨fun _ _ beyond => absurd beyond.1 (by decide), by decide⟩

variable {T : Type} [LinearOrder T] {value lo hi : T}

def clamp (value lo hi : T) : T := if value < lo then lo else if value > hi then hi else value

/-- The value between the bounds that nothing between them separates from `value`. -/
theorem clamp_nearest (ordered : lo ≤ hi) :
    lo ≤ clamp value lo hi ∧ clamp value lo hi ≤ hi ∧
      ∀ u, lo ≤ u → u ≤ hi → (value ≤ u → clamp value lo hi ≤ u) ∧ (u ≤ value → u ≤ clamp value lo hi) := by
  unfold clamp
  split_ifs with low high
  · exact ⟨le_rfl, ordered, fun u above _ => ⟨fun _ => above, fun below => below.trans low.le⟩⟩
  · exact ⟨ordered, le_rfl, fun u _ below => ⟨fun above => high.le.trans above, fun _ => below⟩⟩
  · exact ⟨not_lt.mp low, not_lt.mp high, fun u _ _ => ⟨id, id⟩⟩

/-- With crossed bounds `value` itself is never returned. -/
theorem clamp_crossed (crossed : hi < lo) : clamp value lo hi = if value < lo then lo else hi := by
  unfold clamp
  split_ifs with low high
  · rfl
  · rfl
  · exact absurd (crossed.trans_le (not_lt.mp low)) high

end Cpp20Showcase.Concepts.Numeric
