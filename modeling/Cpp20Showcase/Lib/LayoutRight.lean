import Mathlib.Algebra.BigOperators.Fin
import Mathlib.Tactic.FinCases

/-! The row-major layout of a multidimensional index: the last index runs fastest. It
counts the indices of any extents, of any rank, without gaps and without repetitions. -/

namespace Cpp20Showcase.Lib.LayoutRight

variable {r k : Nat}

def Inside (extents idx : Fin r → Nat) : Prop := ∀ k, idx k < extents k

instance (extents idx : Fin r → Nat) : Decidable (Inside extents idx) :=
  inferInstanceAs (Decidable (∀ k, idx k < extents k))

def size (extents : Fin r → Nat) : Nat := ∏ k, extents k

/-- Each index counts blocks of the size of the extents after it. -/
def offset : {r : Nat} → (Fin r → Nat) → (Fin r → Nat) → Nat
  | 0, _, _ => 0
  | _ + 1, extents, idx => idx 0 * size (Fin.tail extents) + offset (Fin.tail extents) (Fin.tail idx)

theorem size_succ (extents : Fin (r + 1) → Nat) : size extents = extents 0 * size (Fin.tail extents) :=
  Fin.prod_univ_succ extents

theorem Inside.tail {extents idx : Fin (r + 1) → Nat} (inside : Inside extents idx) :
    Inside (Fin.tail extents) (Fin.tail idx) :=
  fun k => inside k.succ

theorem offset_lt {extents idx : Fin r → Nat} (inside : Inside extents idx) :
    offset extents idx < size extents := by
  induction r with
  | zero => simp [offset, size]
  | succ r ih =>
    have rest := ih inside.tail
    rw [offset, size_succ]
    calc idx 0 * size (Fin.tail extents) + offset (Fin.tail extents) (Fin.tail idx)
        < idx 0 * size (Fin.tail extents) + size (Fin.tail extents) := Nat.add_lt_add_left rest _
      _ = (idx 0 + 1) * size (Fin.tail extents) := (Nat.succ_mul _ _).symm
      _ ≤ extents 0 * size (Fin.tail extents) := Nat.mul_le_mul_right _ (inside 0)

theorem eq_of_blocks {b m n x y : Nat} (left : x < b) (right : y < b) (same : m * b + x = n * b + y) :
    m = n ∧ x = y := by
  have quotient (q z : Nat) (below : z < b) : (q * b + z) / b = q := by
    rw [Nat.mul_comm, Nat.mul_add_div (by omega), Nat.div_eq_of_lt below, Nat.add_zero]
  have first : m = n := by rw [← quotient m x left, same, quotient n y right]
  subst first
  exact ⟨rfl, Nat.add_left_cancel same⟩

theorem offset_injective {extents first second : Fin r → Nat} (left : Inside extents first)
    (right : Inside extents second) (same : offset extents first = offset extents second) :
    first = second := by
  induction r with
  | zero => exact Subsingleton.elim _ _
  | succ r ih =>
    obtain ⟨head, rest⟩ := eq_of_blocks (offset_lt left.tail) (offset_lt right.tail) same
    have tails : Fin.tail first = Fin.tail second := ih left.tail right.tail rest
    rw [← Fin.cons_self_tail first, ← Fin.cons_self_tail second, head, tails]

theorem offset_surjective {extents : Fin r → Nat} (below : k < size extents) :
    ∃ idx, Inside extents idx ∧ offset extents idx = k := by
  induction r generalizing k with
  | zero =>
    have zero : k = 0 := by simpa [size] using below
    exact ⟨Fin.elim0, fun k => k.elim0, zero.symm⟩
  | succ r ih =>
    rw [size_succ] at below
    have positive : 0 < size (Fin.tail extents) := by
      apply Nat.pos_of_ne_zero
      intro empty
      simp [empty] at below
    obtain ⟨idx, inside, rest⟩ := ih (Nat.mod_lt k positive)
    refine ⟨Fin.cons (k / size (Fin.tail extents)) idx, ?_, ?_⟩
    · exact Fin.forall_fin_succ.mpr ⟨(Nat.div_lt_iff_lt_mul positive).mpr below, inside⟩
    · rw [offset, Fin.tail_cons, Fin.cons_zero, rest, Nat.div_add_mod']

@[simp] theorem inside_one {extents : Fin 1 → Nat} {i : Nat} : Inside extents ![i] ↔ i < extents 0 := by
  simp [Inside]

@[simp] theorem inside_two {extents : Fin 2 → Nat} {i j : Nat} :
    Inside extents ![i, j] ↔ i < extents 0 ∧ j < extents 1 := by
  simp [Inside, Fin.forall_fin_two]

theorem index_one (idx : Fin 1 → Nat) : idx = ![idx 0] := by
  funext k
  fin_cases k
  rfl

theorem index_two (idx : Fin 2 → Nat) : idx = ![idx 0, idx 1] := by
  funext k
  fin_cases k
  · rfl
  · rfl

theorem size_two (extents : Fin 2 → Nat) : size extents = extents 0 * extents 1 := by
  simp [size]

theorem offset_one (extents : Fin 1 → Nat) (i : Nat) : offset extents ![i] = i := by
  simp [offset, size]

theorem offset_two (extents : Fin 2 → Nat) (i j : Nat) : offset extents ![i, j] = i * extents 1 + j := by
  simp [offset, size, Fin.tail]

end Cpp20Showcase.Lib.LayoutRight
