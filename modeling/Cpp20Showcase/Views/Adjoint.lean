import Cpp20Showcase.Views.MatrixSpecs
import Mathlib.Algebra.BigOperators.Ring.Finset
import Mathlib.Tactic.Ring

/-! How `matvec`, `transpose` and `frobenius` go together: `matvec` of the transposed matrix
is the adjoint of `matvec`, and transposing loses nothing. -/

namespace Cpp20Showcase.Views.Adjoint
open Lib CellMemory LayoutRight MatrixOps MatrixSpecs
open Finset (range)

variable {T : Type} {m m' : Memory T} {M : Nat → Nat → T} {v w : Nat → T}

/-- A matrix, a vector on either side of it, and room for the results, in buffers that share
no cell. -/
structure Buffers where
  rows : Nat
  cols : Nat
  A : Mdspan 2
  B : Mdspan 2
  x : Mdspan 1
  y : Mdspan 1
  Ax : Mdspan 1
  By : Mdspan 1
  extentsA : A.extents = ![rows, cols]
  extentsB : B.extents = ![cols, rows]
  extentsX : x.extents = ![cols]
  extentsY : y.extents = ![rows]
  extentsAx : Ax.extents = ![rows]
  extentsBy : By.extents = ![cols]
  disjoint : [A.cells, B.cells, x.cells, y.cells, Ax.cells, By.cells].Pairwise Disjoint

/-- The inputs have their values; the outputs may hold anything. -/
structure Filled (b : Buffers) (m : Memory T) (M : Nat → Nat → T) (v w : Nat → T) : Prop where
  A : HoldsMatrix b.A m M
  B : b.B.Allocated m
  x : HoldsVector b.x m v
  y : HoldsVector b.y m w
  Ax : b.Ax.Allocated m
  By : b.By.Allocated m

variable {b : Buffers}

theorem Filled.touched {cells : Finset Nat} (filled : Filled b m M v w) (touched : Touched cells m m')
    (apartA : Disjoint b.A.cells cells) (apartX : Disjoint b.x.cells cells)
    (apartY : Disjoint b.y.cells cells) : Filled b m' M v w where
  A := filled.A.touched touched apartA
  B := filled.B.touched touched
  x := filled.x.touched touched apartX
  y := filled.y.touched touched apartY
  Ax := filled.Ax.touched touched
  By := filled.By.touched touched

theorem Filled.transpose (filled : Filled b m M v w) :
    ∃ m', MatrixOps.transpose b.A b.B m = some m' ∧ HoldsMatrix b.B m' (fun j i => M i j) ∧
      Touched b.B.cells m m' := by
  have apart : Disjoint b.A.cells b.B.cells := (List.pairwise_cons.mp b.disjoint).1 _ (by simp)
  exact transpose_total filled.A filled.B apart (by simp [b.extentsA, b.extentsB])
    (by simp [b.extentsA, b.extentsB])

theorem double_transpose (filled : Filled b m M v w) (C : Mdspan 2)
    (shape : C.extents = ![b.rows, b.cols]) (allocated : C.Allocated m)
    (apart : Disjoint C.cells b.B.cells) :
    ∃ m₁ m₂, transpose b.A b.B m = some m₁ ∧ transpose b.B C m₁ = some m₂ ∧
      (∀ k < b.rows * b.cols, m₂ (C.data + k) = m (b.A.data + k)) ∧
      ∀ a, a ∉ b.B.cells → a ∉ C.cells → m₂ a = m a := by
  obtain ⟨m₁, first, holdsB, touchedB⟩ := filled.transpose
  obtain ⟨m₂, second, holdsC, touchedC⟩ := transpose_total holdsB (allocated.touched touchedB) apart.symm
    (by simp [shape, b.extentsB]) (by simp [shape, b.extentsB])
  refine ⟨m₁, m₂, first, second, ?_, ?_⟩
  · intro k below
    apply filled.A.buffer_eq holdsC (shape.trans b.extentsA.symm)
    rw [b.extentsA, size_two]
    exact below
  · intro a outsideB outsideC
    rw [touchedC.frame a outsideC, touchedB.frame a outsideB]

section
variable [CommSemiring T]

theorem product_adjoint (rows cols : Nat) (M : Nat → Nat → T) (v w : Nat → T) :
    ∑ i ∈ range rows, product cols M v i * w i =
      ∑ j ∈ range cols, v j * product rows (fun j i => M i j) w j := by
  simp only [product, Finset.sum_mul, Finset.mul_sum]
  rw [Finset.sum_comm]
  apply Finset.sum_congr rfl
  intro j _
  apply Finset.sum_congr rfl
  intro i _
  ring

theorem adjoint (filled : Filled b m M v w) :
    ∃ m₁ m₂ m₃ p q, matvec b.A b.x b.Ax m = some m₁ ∧ transpose b.A b.B m₁ = some m₂ ∧
      matvec b.B b.y b.By m₂ = some m₃ ∧ HoldsVector b.x m₃ v ∧ HoldsVector b.y m₃ w ∧
      HoldsVector b.Ax m₃ p ∧ HoldsVector b.By m₃ q ∧
      (∀ i, p i = ∑ j ∈ range b.cols, M i j * v j) ∧ (∀ j, q j = ∑ i ∈ range b.rows, M i j * w i) ∧
      ∑ i ∈ range b.rows, p i * w i = ∑ j ∈ range b.cols, v j * q j := by
  have disjoint := b.disjoint
  simp only [List.pairwise_cons, List.mem_cons, List.not_mem_nil, or_false, forall_eq_or_imp,
    forall_eq] at disjoint
  obtain ⟨⟨AB, -, -, AAx, -⟩, ⟨Bx, By, BAx, BBy⟩, ⟨-, xAx, xBy⟩, ⟨yAx, yBy⟩, AxBy, -⟩ := disjoint
  have colsA : b.A.extents 1 = b.cols := congrFun b.extentsA 1
  have colsB : b.B.extents 1 = b.rows := congrFun b.extentsB 1
  obtain ⟨m₁, first, productA, touched₁⟩ := matvec_total filled.A filled.x filled.Ax AAx xAx
    (by simp [b.extentsA, b.extentsAx]) (by simp [b.extentsA, b.extentsX])
  have filled₁ := filled.touched touched₁ AAx xAx yAx
  obtain ⟨m₂, second, holdsB, touched₂⟩ := filled₁.transpose
  have filled₂ := filled₁.touched touched₂ AB Bx.symm By.symm
  obtain ⟨m₃, third, productB, touched₃⟩ := matvec_total holdsB filled₂.y filled₂.By BBy yBy
    (by simp [b.extentsB, b.extentsBy]) (by simp [b.extentsB, b.extentsY])
  rw [colsA] at productA
  rw [colsB] at productB
  have kept := (productA.touched touched₂ BAx.symm).touched touched₃ AxBy
  exact ⟨m₁, m₂, m₃, _, _, first, second, third, filled₂.x.touched touched₃ xBy,
    filled₂.y.touched touched₃ yBy, kept, productB, fun _ => rfl, fun _ => rfl,
    product_adjoint b.rows b.cols M v w⟩

theorem frobenius_transpose (filled : Filled b m M v w) :
    ∃ m₁ n, transpose b.A b.B m = some m₁ ∧ MatrixOps.frobenius b.A m = some n ∧
      MatrixOps.frobenius b.B m₁ = some n ∧ n = ∑ i ∈ range b.rows, ∑ j ∈ range b.cols, M i j * M i j := by
  obtain ⟨m₁, runs, holdsB, -⟩ := filled.transpose
  refine ⟨m₁, _, runs, frobenius_total filled.A, ?_, ?_⟩
  · rw [frobenius_total holdsB, Finset.sum_comm, b.extentsA, b.extentsB]
    rfl
  · rw [b.extentsA]
    rfl

/-- For all extents, values and stale contents: `matvec` gives the product, and `(A x) y` is
`x (Aᵀ y)`; a second `transpose`, into any buffer apart from the first one's, restores the first
matrix cell by cell; and `frobenius` is the sum of the squares, before and after. -/
theorem matvec_transpose_adjoint (b : Buffers) (m : Memory T) (M : Nat → Nat → T) (v w : Nat → T)
    (filled : Filled b m M v w) :
    (∃ m₁ m₂ m₃ p q, matvec b.A b.x b.Ax m = some m₁ ∧ transpose b.A b.B m₁ = some m₂ ∧
      matvec b.B b.y b.By m₂ = some m₃ ∧ HoldsVector b.x m₃ v ∧ HoldsVector b.y m₃ w ∧
      HoldsVector b.Ax m₃ p ∧ HoldsVector b.By m₃ q ∧
      (∀ i, p i = ∑ j ∈ range b.cols, M i j * v j) ∧ (∀ j, q j = ∑ i ∈ range b.rows, M i j * w i) ∧
      ∑ i ∈ range b.rows, p i * w i = ∑ j ∈ range b.cols, v j * q j) ∧
    (∀ C : Mdspan 2, C.extents = ![b.rows, b.cols] → C.Allocated m → Disjoint C.cells b.B.cells →
      ∃ m₁ m₂, transpose b.A b.B m = some m₁ ∧ transpose b.B C m₁ = some m₂ ∧
        (∀ k < b.rows * b.cols, m₂ (C.data + k) = m (b.A.data + k)) ∧
        ∀ a, a ∉ b.B.cells → a ∉ C.cells → m₂ a = m a) ∧
    ∃ m₁ n, transpose b.A b.B m = some m₁ ∧ MatrixOps.frobenius b.A m = some n ∧
      MatrixOps.frobenius b.B m₁ = some n ∧ n = ∑ i ∈ range b.rows, ∑ j ∈ range b.cols, M i j * M i j :=
  ⟨adjoint filled, double_transpose filled, frobenius_transpose filled⟩

end

/-- A 2×3 matrix at 0, its transpose at 6, vectors at 12 and 15, results at 17 and 19. -/
def twoByThree : Buffers where
  rows := 2
  cols := 3
  A := ⟨0, ![2, 3]⟩
  B := ⟨6, ![3, 2]⟩
  x := ⟨12, ![3]⟩
  y := ⟨15, ![2]⟩
  Ax := ⟨17, ![2]⟩
  By := ⟨19, ![3]⟩
  extentsA := rfl
  extentsB := rfl
  extentsX := rfl
  extentsY := rfl
  extentsAx := rfl
  extentsBy := rfl
  disjoint := by decide

/-- The cells of `twoByThree`; those of the outputs are stale. -/
def stale : Memory Int := fun a =>
  [1, 2, 3, 4, 5, 6, 9, 9, 9, 9, 9, 9, 1, -1, 2, 5, 7, 9, 9, 9, 9, 9][a]?

theorem filled_stale :
    Filled twoByThree stale (fun i j => 3 * i + j + 1) ([1, -1, 2].getD · 0) ([5, 7].getD · 0) where
  A := holdsMatrix_iff.mpr (by decide)
  B := show ∀ a ∈ twoByThree.B.cells, (stale a).isSome = true by decide
  x := holdsVector_iff.mpr (by decide)
  y := holdsVector_iff.mpr (by decide)
  Ax := show ∀ a ∈ twoByThree.Ax.cells, (stale a).isSome = true by decide
  By := show ∀ a ∈ twoByThree.By.cells, (stale a).isSome = true by decide

theorem matvec_transpose_adjoint_stale :
    (∃ m₁ m₂ m₃ p q, matvec twoByThree.A twoByThree.x twoByThree.Ax stale = some m₁ ∧
      transpose twoByThree.A twoByThree.B m₁ = some m₂ ∧
      matvec twoByThree.B twoByThree.y twoByThree.By m₂ = some m₃ ∧
      HoldsVector twoByThree.Ax m₃ p ∧ HoldsVector twoByThree.By m₃ q ∧
      p 0 = 5 ∧ p 1 = 11 ∧ p 0 * 5 + p 1 * 7 = 1 * q 0 + -1 * q 1 + 2 * q 2) ∧
    (∃ m₁ m₂, transpose twoByThree.A twoByThree.B stale = some m₁ ∧
      transpose twoByThree.B twoByThree.A m₁ = some m₂ ∧ ∀ k < 6, m₂ (0 + k) = stale (0 + k)) ∧
    ∃ m₁, transpose twoByThree.A twoByThree.B stale = some m₁ ∧
      MatrixOps.frobenius twoByThree.A stale = some 91 ∧ MatrixOps.frobenius twoByThree.B m₁ = some 91 := by
  obtain ⟨first, second, third⟩ := matvec_transpose_adjoint twoByThree stale _ _ _ filled_stale
  obtain ⟨m₁, m₂, m₃, p, q, product, transposed, adjoint, -, -, left, right, sums, -, same⟩ := first
  simp only [twoByThree, Finset.sum_range_succ, Finset.sum_range_zero, zero_add] at same
  obtain ⟨n₁, n₂, once, twice, restored, -⟩ :=
    second twoByThree.A rfl filled_stale.A.allocated (by decide)
  obtain ⟨k, n, moved, before, after, rfl⟩ := third
  exact ⟨⟨m₁, m₂, m₃, p, q, product, transposed, adjoint, left, right, (sums 0).trans (by decide),
    (sums 1).trans (by decide), same⟩, ⟨n₁, n₂, once, twice, restored⟩, ⟨k, moved, before, after⟩⟩

end Cpp20Showcase.Views.Adjoint
