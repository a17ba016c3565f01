import Cpp20Showcase.Views.MatrixSpecs

/-! `transpose` from `09_mdspan/test_mdspan.cpp` with both views on one buffer: an element that
the loops come to read may have been overwritten by an earlier round. -/

namespace Cpp20Showcase.Views.InPlace
open Lib CellMemory CountedLoop LayoutRight MatrixOps

variable {T : Type} {m m' : Memory T} {A B : Mdspan 2} {M : Nat → Nat → T} {f : Nat → T} {rows cols i j k n : Nat}

def flat (cols : Nat) (M : Nat → Nat → T) (k : Nat) : T := M (k / cols) (k % cols)

/-- The cell whose element transposing moves to cell `k`. -/
def origin (rows cols k : Nat) : Nat := k % rows * cols + k / rows

/-- What cell `k` holds when it is read: its own element, or one that was moved there from an
earlier cell. -/
def found (rows cols : Nat) (f : Nat → T) (k : Nat) : T :=
  if origin rows cols k < k then found rows cols f (origin rows cols k) else f k
termination_by k

/-- A matrix and its transposed one in the same cells. -/
structure Shared (rows cols : Nat) (A B : Mdspan 2) : Prop where
  data : B.data = A.data
  extentsA : A.extents = ![rows, cols]
  extentsB : B.extents = ![cols, rows]

theorem Shared.insideA (shared : Shared rows cols A B) : Inside A.extents ![i, j] ↔ i < rows ∧ j < cols := by
  rw [inside_two, shared.extentsA]
  rfl

theorem Shared.insideB (shared : Shared rows cols A B) : Inside B.extents ![j, i] ↔ j < cols ∧ i < rows := by
  rw [inside_two, shared.extentsB]
  rfl

theorem Shared.addressA (shared : Shared rows cols A B) : A.address ![i, j] = A.data + (i * cols + j) := by
  rw [Mdspan.address, offset_two, shared.extentsA]
  rfl

theorem Shared.addressB (shared : Shared rows cols A B) : B.address ![j, i] = A.data + (j * rows + i) := by
  rw [Mdspan.address, offset_two, shared.data, shared.extentsB]
  rfl

theorem Shared.cells (shared : Shared rows cols A B) : B.cells = A.cells := by
  rw [Mdspan.cells, Mdspan.cells, shared.data, size_two, size_two, shared.extentsA, shared.extentsB]
  exact congrArg (fun size => Finset.Ico A.data (A.data + size)) (Nat.mul_comm cols rows)

theorem flat_place (column : j < cols) : flat cols M (i * cols + j) = M i j := by
  rw [flat, Nat.mul_comm, Nat.mul_add_div (by omega), Nat.div_eq_of_lt column, Nat.mul_add_mod,
    Nat.mod_eq_of_lt column, Nat.add_zero]

theorem origin_place (row : i < rows) : origin rows cols (j * rows + i) = i * cols + j := by
  rw [origin, Nat.mul_comm j, Nat.mul_add_mod, Nat.mod_eq_of_lt row, Nat.mul_add_div (by omega),
    Nat.div_eq_of_lt row, Nat.add_zero]

theorem place_lt (row : i < rows) (column : j < cols) : i * cols + j < rows * cols :=
  calc i * cols + j < i * cols + cols := Nat.add_lt_add_left column _
    _ = (i + 1) * cols := (Nat.succ_mul i cols).symm
    _ ≤ rows * cols := Nat.mul_le_mul_right cols row

theorem exists_place (below : k < rows * cols) : ∃ i < rows, ∃ j < cols, k = i * cols + j := by
  have some_column : 0 < cols := by
    apply Nat.pos_of_ne_zero
    rintro rfl
    omega
  exact ⟨k / cols, (Nat.div_lt_iff_lt_mul some_column).mpr below, k % cols, Nat.mod_lt k some_column,
    (Nat.div_add_mod' k cols).symm⟩

def Moved (rows cols : Nat) (B : Mdspan 2) (f : Nat → T) (m m' : Memory T) (i j : Nat) : Prop :=
  Wrote m m' (fun p : Nat × Nat => B.address ![p.2, p.1])
    (fun p => found rows cols f (p.1 * cols + p.2)) (visited cols i j)

theorem Moved.read (shared : Shared rows cols A B) (holds : HoldsMatrix A m M)
    (moved : Moved rows cols B (flat cols M) m m' i j) (row : i < rows) (column : j < cols) :
    A.load ![i, j] m' = some (found rows cols (flat cols M) (i * cols + j)) := by
  have inside := shared.insideA.mpr ⟨row, column⟩
  obtain ⟨l, below, r, right, place⟩ : ∃ l < cols, ∃ r < rows, i * cols + j = l * rows + r :=
    exists_place (Nat.mul_comm rows cols ▸ place_lt row column)
  have from_there : origin rows cols (i * cols + j) = r * cols + l := by
    rw [place, origin_place right]
  rw [Mdspan.load, if_pos inside, found, from_there]
  split
  next earlier =>
    have before : (r, l) ∈ visited cols i j := (mem_visited_iff_lt below column).mpr earlier
    have written := moved.holds (r, l) before
    rwa [shared.addressB, ← place, ← shared.addressA] at written
  next later =>
    have fresh : ∀ p ∈ visited cols i j, A.address ![i, j] ≠ B.address ![p.2, p.1] := by
      intro p member same
      rw [shared.addressA, shared.addressB] at same
      have visited_row := mem_visited.mp member
      have origin_of : origin rows cols (p.2 * rows + p.1) = p.1 * cols + p.2 := origin_place (by omega)
      have earlier := (mem_visited_iff_lt visited_row.1 column).mp member
      rw [← Nat.add_left_cancel same, from_there] at origin_of
      omega
    rw [moved.frame _ fresh, flat_place column]
    exact holds ![i, j] inside

theorem Moved.next (shared : Shared rows cols A B) (holds : HoldsMatrix A m M)
    (moved : Moved rows cols B (flat cols M) m m' i j) (row : i < rows) (column : j < cols) :
    ∃ t, transposeStep A B i j m' = some t ∧ Moved rows cols B (flat cols M) m t i (j + 1) := by
  have read := moved.read shared holds row column
  have here : Inside B.extents ![j, i] := shared.insideB.mpr ⟨column, row⟩
  have inside : ∀ p ∈ visited cols i j, Inside B.extents ![p.2, p.1] := by
    intro p member
    rw [mem_visited] at member
    rw [shared.insideB]
    omega
  have touched : Touched B.cells m m' :=
    Wrote.touched moved fun p member => Mdspan.address_mem (inside p member)
  have allocated : B.Allocated m := by
    intro a member
    exact Mdspan.Holds.allocated holds a (shared.cells ▸ member)
  refine ⟨Function.update m' (B.address ![j, i]) (some (found rows cols (flat cols M) (i * cols + j))), ?_, ?_⟩
  · rw [transposeStep, read, Option.bind_eq_bind, Option.bind_some]
    exact (allocated.touched touched).store here
  · rw [Moved, visited_next column]
    apply Wrote.next (i, j) moved
    intro p member same
    have equal := Mdspan.address_injective (inside p member) here same
    have pair : p = (i, j) := Prod.ext (congrFun equal 1) (congrFun equal 0)
    exact not_mem_visited (pair ▸ member)

/-- Nothing is lost just when every cell that gets an element from an earlier cell had the same
element itself. -/
theorem found_eq_iff :
    (∀ k < n, found rows cols f k = f k) ↔ ∀ k < n, origin rows cols k < k → f k = f (origin rows cols k) := by
  constructor
  · intro kept k below earlier
    have own := kept k below
    rw [found, if_pos earlier, kept _ (by omega)] at own
    exact own.symm
  · intro same k below
    induction k using Nat.strongRecOn with
    | ind k ih =>
      rw [found]
      split
      next earlier => rw [ih _ earlier (by omega), same k below earlier]
      next => rfl

/-- Transposing within one buffer moves to each place what the element's cell then holds. This is
the transposed matrix just when every cell that gets an element from an earlier cell had the
same element itself. -/
theorem transpose_shared (shared : Shared rows cols A B) (holds : HoldsMatrix A m M) :
    ∃ m', transpose A B m = some m' ∧ Touched A.cells m m' ∧
      HoldsMatrix B m' (fun j i => found rows cols (flat cols M) (i * cols + j)) ∧
      (HoldsMatrix B m' (fun j i => M i j) ↔
        ∀ k < rows * cols, origin rows cols k < k → flat cols M k = flat cols M (origin rows cols k)) := by
  obtain ⟨m', runs, moved⟩ : ∃ m', transpose A B m = some m' ∧ Moved rows cols B (flat cols M) m m' rows 0 := by
    have start : Moved rows cols B (flat cols M) m m 0 0 := by
      rw [Moved, visited_start]
      exact Wrote.nothing
    have turn : ∀ i t, i < rows → Moved rows cols B (flat cols M) m t i cols →
        Moved rows cols B (flat cols M) m t (i + 1) 0 := by
      intro i t _ moved
      rwa [Moved, visited_turn]
    have round : ∀ i j t, i < rows → j < cols → Moved rows cols B (flat cols M) m t i j →
        ∃ u, transposeStep A B i j t = some u ∧ Moved rows cols B (flat cols M) m u i (j + 1) := by
      intro i j t row column moved
      exact moved.next shared holds row column
    rw [transpose, shared.extentsA]
    exact nest_total start round turn
  have all {i j : Nat} (row : i < rows) (column : j < cols) : (i, j) ∈ visited cols rows 0 := by
    rw [mem_visited]
    exact ⟨column, .inl row⟩
  have result : ∀ i < rows, ∀ j < cols,
      m' (B.address ![j, i]) = some (found rows cols (flat cols M) (i * cols + j)) :=
    fun i row j column => moved.holds (i, j) (all row column)
  refine ⟨m', runs, ?_, ?_, ?_⟩
  · rw [← shared.cells]
    apply Wrote.touched moved
    intro p member
    rw [mem_visited] at member
    exact Mdspan.address_mem (shared.insideB.mpr (by omega))
  · intro idx inside
    rw [index_two idx] at inside ⊢
    obtain ⟨column, row⟩ := shared.insideB.mp inside
    exact result _ row _ column
  · rw [← found_eq_iff]
    constructor
    · intro transposed k below
      obtain ⟨i, row, j, column, rfl⟩ := exists_place below
      have element := transposed ![j, i] (shared.insideB.mpr ⟨column, row⟩)
      rw [result i row j column] at element
      exact (Option.some.inj element).trans (flat_place column).symm
    · intro kept idx inside
      rw [index_two idx] at inside ⊢
      obtain ⟨column, row⟩ := shared.insideB.mp inside
      rw [result _ row _ column, kept _ (place_lt row column), flat_place column]
      rfl

theorem found_square (row : i < n) (column : j < n) :
    found n n (flat n M) (i * n + j) = M (min i j) (max i j) := by
  have order {a b : Nat} (first : a < n) (second : b < n) : b * n + a < a * n + b ↔ b < a := by
    rw [← mem_visited_iff_lt (p := (b, a)) first second, mem_visited]
    omega
  rw [found, origin_place column]
  split
  next earlier =>
    have below := (order row column).mp earlier
    rw [found, origin_place row, if_neg (by omega), flat_place row, min_eq_right below.le, max_eq_left below.le]
  next later =>
    have above : i ≤ j := by
      by_contra below
      exact later ((order row column).mpr (by omega))
    rw [flat_place column, min_eq_left above, max_eq_right above]

/-- A square matrix becomes symmetric, with what was above the diagonal. -/
theorem transpose_square (square : A.extents = ![n, n]) (holds : HoldsMatrix A m M) :
    ∃ m', transpose A A m = some m' ∧ HoldsMatrix A m' (fun i j => M (min i j) (max i j)) := by
  have shared : Shared n n A A := ⟨rfl, square, square⟩
  obtain ⟨m', runs, -, moved, -⟩ := transpose_shared shared holds
  refine ⟨m', runs, ?_⟩
  intro idx inside
  rw [index_two idx] at inside ⊢
  obtain ⟨column, row⟩ := shared.insideB.mp inside
  rw [moved _ inside]
  change some (found n n (flat n M) (idx 1 * n + idx 0)) = some (M (min (idx 0) (idx 1)) (max (idx 0) (idx 1)))
  rw [found_square row column, min_comm, max_comm]

def six : Memory Int := fun a => [1, 2, 3, 4, 5, 6][a]?

/-- The 2 of cell 1 comes to cell 2 before that is read, and from there goes on to cells 4 and 3. -/
theorem transpose_shared_six :
    ∃ m', transpose (⟨0, ![2, 3]⟩ : Mdspan 2) ⟨0, ![3, 2]⟩ six = some m' ∧
      [m' 0, m' 1, m' 2, m' 3, m' 4, m' 5] = [some 1, some 4, some 2, some 2, some 2, some 6] ∧
      ¬HoldsMatrix ⟨0, ![3, 2]⟩ m' (fun j i => (3 * i + j + 1 : Int)) := by
  have shared : Shared 2 3 ⟨0, ![2, 3]⟩ ⟨0, ![3, 2]⟩ := ⟨rfl, rfl, rfl⟩
  have holds : HoldsMatrix ⟨0, ![2, 3]⟩ six fun i j => (3 * i + j + 1 : Int) := holdsMatrix_iff.mpr (by decide)
  obtain ⟨m', runs, -, -, kept⟩ := transpose_shared shared holds
  have computed : transpose (⟨0, ![2, 3]⟩ : Mdspan 2) ⟨0, ![3, 2]⟩ six = some _ := rfl
  refine ⟨m', runs, ?_, ?_⟩
  · cases computed.symm.trans runs
    rfl
  · rw [kept]
    intro same
    exact absurd (same 4 (by decide) (by decide)) (by decide)

end Cpp20Showcase.Views.InPlace
