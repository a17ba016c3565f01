import Cpp20Showcase.Views.MatrixOps
import Mathlib.Algebra.BigOperators.Group.Finset.Basic

/-! What `matvec`, `transpose` and `frobenius` compute on buffers that do not overlap: each
succeeds, fills its output whatever that held before, and writes nowhere else. -/

namespace Cpp20Showcase.Views.MatrixSpecs
open Lib CellMemory CountedLoop LayoutRight MatrixOps
open Finset (range)

variable {T : Type} {m m' : Memory T} {A B : Mdspan 2} {x result : Mdspan 1} {M : Nat → Nat → T}
  {v : Nat → T} {i : Nat}

section
variable [CommSemiring T]

def product (cols : Nat) (M : Nat → Nat → T) (v : Nat → T) (i : Nat) : T := ∑ j ∈ range cols, M i j * v j

theorem matvecRow_eq (holdsA : HoldsMatrix A m M) (holdsX : HoldsVector x m v)
    (allocated : result.Allocated m) (apartA : Disjoint A.cells result.cells)
    (apartX : Disjoint x.cells result.cells) (rows : result.extents 0 = A.extents 0)
    (cols : x.extents 0 = A.extents 1) (below : i < A.extents 0) :
    matvecRow A x result i m =
      some (Function.update m (result.address ![i]) (some (product (A.extents 1) M v i))) := by
  have inside : Inside result.extents ![i] := inside_one.mpr (by omega)
  have start : Function.update m (result.address ![i]) (some 0) =
      Function.update m (result.address ![i]) (some (product 0 M v i)) := by
    rw [product, Finset.sum_range_zero]
  have round : ∀ j t, j < A.extents 1 →
      t = Function.update m (result.address ![i]) (some (product j M v i)) →
      ∃ u, matvecStep A x result i j t = some u ∧
        u = Function.update m (result.address ![i]) (some (product (j + 1) M v i)) := by
    intro j t column current
    have here : Touched result.cells m t := current ▸ touched_update (Mdspan.address_mem inside)
    have readA : A.load ![i, j] t = some (M i j) :=
      HoldsMatrix.load (Mdspan.Holds.touched holdsA here apartA) below column
    have readX : x.load ![j] t = some (v j) :=
      HoldsVector.load (Mdspan.Holds.touched holdsX here apartX) (by omega)
    refine ⟨_, ?_, rfl⟩
    rw [matvecStep, readA, readX, current, Mdspan.load_update inside]
    simp only [Option.bind_eq_bind, Option.bind_some]
    rw [(allocated.touched (current ▸ here)).store inside, Function.update_idem, product, product,
      Finset.sum_range_succ]
  obtain ⟨t, runs, final⟩ := forRange_total start round
  rw [matvecRow, allocated.store inside, Option.bind_eq_bind, Option.bind_some, runs, final]

def Multiplied (cols : Nat) (result : Mdspan 1) (M : Nat → Nat → T) (v : Nat → T) (m m' : Memory T)
    (i : Nat) : Prop :=
  Wrote m m' (fun k => result.address ![k]) (product cols M v) (Set.Iio i)

theorem Multiplied.touched {cols : Nat} (multiplied : Multiplied cols result M v m m' i)
    (within : i ≤ result.extents 0) : Touched result.cells m m' := by
  apply Wrote.touched multiplied
  intro k before
  exact Mdspan.address_mem (inside_one.mpr (before.trans_le within))

/-- `matvec` fills its output with the product and writes nowhere else. -/
theorem matvec_total (holdsA : HoldsMatrix A m M) (holdsX : HoldsVector x m v)
    (allocated : result.Allocated m) (apartA : Disjoint A.cells result.cells)
    (apartX : Disjoint x.cells result.cells) (rows : result.extents 0 = A.extents 0)
    (cols : x.extents 0 = A.extents 1) :
    ∃ m', matvec A x result m = some m' ∧ HoldsVector result m' (product (A.extents 1) M v) ∧
      Touched result.cells m m' := by
  have start : Multiplied (A.extents 1) result M v m m 0 := by
    have empty : Set.Iio 0 = (∅ : Set Nat) := by simp
    rw [Multiplied, empty]
    exact Wrote.nothing
  have round : ∀ i t, i < A.extents 0 → Multiplied (A.extents 1) result M v m t i →
      ∃ u, matvecRow A x result i t = some u ∧ Multiplied (A.extents 1) result M v m u (i + 1) := by
    intro i t below multiplied
    have here := multiplied.touched (by omega)
    have row := matvecRow_eq (holdsA.touched here apartA) (holdsX.touched here apartX)
      (allocated.touched here) apartA apartX rows cols below
    refine ⟨_, row, ?_⟩
    have grown : Set.Iio (i + 1) = insert i (Set.Iio i) := by
      ext k
      rw [Set.mem_insert_iff, Set.mem_Iio, Set.mem_Iio]
      omega
    rw [Multiplied, grown]
    apply Wrote.next i multiplied
    intro k before same
    have inside : ∀ n ≤ i, Inside result.extents ![n] := fun n bound => inside_one.mpr (by omega)
    have equal := Mdspan.address_injective (inside k before.le) (inside i le_rfl) same
    exact absurd (congrFun equal 0) before.ne
  obtain ⟨m', runs, multiplied⟩ := forRange_total start round
  refine ⟨m', runs, ?_, multiplied.touched rows.ge⟩
  intro idx inside
  rw [index_one idx]
  exact multiplied.holds (idx 0) (rows ▸ inside 0)

end

def Transposed (cols : Nat) (B : Mdspan 2) (M : Nat → Nat → T) (m m' : Memory T) (i j : Nat) : Prop :=
  Wrote m m' (fun p : Nat × Nat => B.address ![p.2, p.1]) (fun p => M p.1 p.2) (visited cols i j)

theorem Transposed.touched {cols j : Nat} (transposed : Transposed cols B M m m' i j)
    (inside : ∀ p ∈ visited cols i j, Inside B.extents ![p.2, p.1]) : Touched B.cells m m' :=
  Wrote.touched transposed fun p member => Mdspan.address_mem (inside p member)

theorem transposeStep_next {j : Nat} (holdsA : HoldsMatrix A m M) (allocated : B.Allocated m)
    (apart : Disjoint A.cells B.cells) (rows : B.extents 1 = A.extents 0)
    (cols : B.extents 0 = A.extents 1) (row : i < A.extents 0) (column : j < A.extents 1)
    (transposed : Transposed (A.extents 1) B M m m' i j) :
    ∃ t, transposeStep A B i j m' = some t ∧ Transposed (A.extents 1) B M m t i (j + 1) := by
  have here : Inside B.extents ![j, i] := inside_two.mpr ⟨cols ▸ column, rows ▸ row⟩
  have inside : ∀ p ∈ visited (A.extents 1) i j, Inside B.extents ![p.2, p.1] := by
    intro p member
    rw [mem_visited] at member
    rw [inside_two]
    omega
  have touched := transposed.touched inside
  have read : A.load ![i, j] m' = some (M i j) :=
    HoldsMatrix.load (Mdspan.Holds.touched holdsA touched apart) row column
  refine ⟨Function.update m' (B.address ![j, i]) (some (M i j)), ?_, ?_⟩
  · rw [transposeStep, read, Option.bind_eq_bind, Option.bind_some]
    exact (allocated.touched touched).store here
  · rw [Transposed, visited_next column]
    apply Wrote.next (i, j) transposed
    intro p member same
    have equal := Mdspan.address_injective (inside p member) here same
    have pair : p = (i, j) := Prod.ext (congrFun equal 1) (congrFun equal 0)
    exact not_mem_visited (pair ▸ member)

/-- `transpose` fills its output with the transposed matrix, each element once, and writes
nowhere else. -/
theorem transpose_total (holdsA : HoldsMatrix A m M) (allocated : B.Allocated m)
    (apart : Disjoint A.cells B.cells) (rows : B.extents 1 = A.extents 0)
    (cols : B.extents 0 = A.extents 1) :
    ∃ m', transpose A B m = some m' ∧ HoldsMatrix B m' (fun j i => M i j) ∧ Touched B.cells m m' := by
  have start : Transposed (A.extents 1) B M m m 0 0 := by
    rw [Transposed, visited_start]
    exact Wrote.nothing
  have round : ∀ i j t, i < A.extents 0 → j < A.extents 1 → Transposed (A.extents 1) B M m t i j →
      ∃ u, transposeStep A B i j t = some u ∧ Transposed (A.extents 1) B M m u i (j + 1) := by
    intro i j t row column
    exact transposeStep_next holdsA allocated apart rows cols row column
  have turn : ∀ i t, i < A.extents 0 → Transposed (A.extents 1) B M m t i (A.extents 1) →
      Transposed (A.extents 1) B M m t (i + 1) 0 := by
    intro i t _ transposed
    rwa [Transposed, visited_turn]
  obtain ⟨m', runs, transposed⟩ := nest_total start round turn
  have all : ∀ p, p ∈ visited (A.extents 1) (A.extents 0) 0 ↔ Inside B.extents ![p.2, p.1] := by
    intro p
    rw [mem_visited, inside_two]
    omega
  refine ⟨m', runs, ?_, transposed.touched fun p => (all p).mp⟩
  intro idx inside
  rw [index_two idx] at inside ⊢
  exact transposed.holds (idx 1, idx 0) ((all _).mpr inside)

section
variable [CommSemiring T]

def squares (cols : Nat) (M : Nat → Nat → T) (i j : Nat) : T :=
  ∑ k ∈ range i, ∑ l ∈ range cols, M k l * M k l + ∑ l ∈ range j, M i l * M i l

theorem frobenius_total (holdsA : HoldsMatrix A m M) :
    MatrixOps.frobenius A m =
      some (∑ i ∈ range (A.extents 0), ∑ j ∈ range (A.extents 1), M i j * M i j) := by
  have start : (0 : T) = squares (A.extents 1) M 0 0 := by simp [squares]
  have round : ∀ i j sum, i < A.extents 0 → j < A.extents 1 → sum = squares (A.extents 1) M i j →
      ∃ next, frobeniusStep A m i j sum = some next ∧ next = squares (A.extents 1) M i (j + 1) := by
    intro i j sum row column current
    have read := holdsA.load row column
    refine ⟨_, ?_, rfl⟩
    rw [frobeniusStep, read, current, squares, squares, Finset.sum_range_succ _ j, ← add_assoc]
    rfl
  have turn : ∀ i sum, i < A.extents 0 → sum = squares (A.extents 1) M i (A.extents 1) →
      sum = squares (A.extents 1) M (i + 1) 0 := by
    intro i sum _ full
    rw [full, squares, squares, Finset.sum_range_succ _ i, Finset.sum_range_zero, add_zero]
  obtain ⟨sum, runs, total⟩ := nest_total start round turn
  rw [MatrixOps.frobenius, runs, total, squares, Finset.sum_range_zero, add_zero]

end

end Cpp20Showcase.Views.MatrixSpecs
