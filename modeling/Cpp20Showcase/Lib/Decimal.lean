import Mathlib.Algebra.Ring.Int.Defs

/-! Decimal texts of integers. -/

namespace Cpp20Showcase.Lib.Decimal

/-- The digits of an integer in base ten, after a sign if it is negative. -/
def text : Int → List Char
  | .ofNat n => Nat.toDigits 10 n
  | .negSucc n => '-' :: Nat.toDigits 10 (n + 1)

def read : List Char → Int
  | [] => 0
  | c :: cs => if c = '-' then -(Nat.ofDigitChars 10 cs 0 : Int) else Nat.ofDigitChars 10 (c :: cs) 0

variable {z : Int} {c : Char}

theorem digit_ne {n : Nat} (digit : c ∈ Nat.toDigits 10 n) {d : Char} (other : d.isDigit = false) : c ≠ d := by
  rintro rfl
  rw [Nat.isDigit_of_mem_toDigits (by decide) (by decide) digit] at other
  cases other

theorem read_text (z : Int) : read (text z) = z := by
  cases z with
  | ofNat n =>
    rw [text]
    cases digits : Nat.toDigits 10 n with
    | nil => exact absurd digits Nat.toDigits_ne_nil
    | cons d ds =>
      have first : d ∈ Nat.toDigits 10 n := digits ▸ List.mem_cons_self
      rw [read, if_neg (digit_ne first (by decide)), ← digits, Nat.ofDigitChars_ten_toDigits]
      rfl
  | negSucc n =>
    rw [text, read, if_pos rfl, Nat.ofDigitChars_ten_toDigits]
    rfl

theorem text_ne_nil : text z ≠ [] := by
  cases z with
  | ofNat n => exact Nat.toDigits_ne_nil
  | negSucc n => exact List.cons_ne_nil _ _

theorem mem_text (member : c ∈ text z) : c.isDigit = true ∨ c = '-' := by
  cases z with
  | ofNat n => exact .inl (Nat.isDigit_of_mem_toDigits (by decide) (by decide) member)
  | negSucc n =>
    obtain sign | digit := List.mem_cons.mp member
    · exact .inr sign
    · exact .inl (Nat.isDigit_of_mem_toDigits (by decide) (by decide) digit)

theorem ne_of_mem_text (member : c ∈ text z) {d : Char} (other : d.isDigit = false) (unsigned : d ≠ '-') : c ≠ d := by
  rintro rfl
  obtain digit | sign := mem_text member
  · rw [other] at digit
    cases digit
  · exact unsigned sign

theorem not_mem_text {d : Char} (other : d.isDigit = false) (unsigned : d ≠ '-') : d ∉ text z :=
  fun member => ne_of_mem_text member other unsigned rfl

/-- The integers with at most `k + 2` characters; a sign takes the place of a digit. -/
theorem length_text_le_iff {k : Nat} : (text z).length ≤ k + 2 ↔ -10 ^ (k + 1) < z ∧ z < 10 ^ (k + 2) := by
  have positive : (0 : Int) < 10 ^ (k + 1) := Int.pow_pos (by decide)
  have more : (0 : Int) < 10 ^ (k + 2) := Int.pow_pos (by decide)
  cases z with
  | ofNat n =>
    rw [text, Nat.length_toDigits_le_iff (by decide) (Nat.succ_pos _), ← Int.ofNat_lt, Int.natCast_pow]
    change _ ↔ _ ∧ (n : Int) < _
    constructor
    · intro below
      exact ⟨Int.lt_of_lt_of_le (Int.neg_neg_of_pos positive) (Int.natCast_nonneg n), below⟩
    · exact And.right
  | negSucc n =>
    rw [text, List.length_cons, Nat.succ_le_succ_iff, Nat.length_toDigits_le_iff (by decide) (Nat.succ_pos _),
      ← Int.ofNat_lt, Int.natCast_pow, Int.negSucc_eq]
    push_cast
    omega

end Cpp20Showcase.Lib.Decimal
