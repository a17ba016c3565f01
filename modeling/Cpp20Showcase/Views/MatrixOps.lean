import Cpp20Showcase.Lib.CellMemory
import Cpp20Showcase.Lib.CountedLoop
import Cpp20Showcase.Lib.LayoutRight
import Mathlib.Order.Interval.Finset.Nat

/-! `matvec`, `transpose` and `frobenius` from `09_mdspan/test_mdspan.cpp`. A view owns no
cells: it says where in the memory they begin and what the extents are. -/

namespace Cpp20Showcase.Views.MatrixOps
open Lib CellMemory CountedLoop LayoutRight

/-- `std::mdspan<T, std::dextents<std::size_t, rank>>` with the default layout. -/
structure Mdspan (rank : Nat) where
  data : Nat
  extents : Fin rank → Nat

namespace Mdspan

variable {rank : Nat} {T : Type}

def address (A : Mdspan rank) (idx : Fin rank → Nat) : Nat := A.data + offset A.extents idx

/-- Reading `A[idx]`; an index outside of the extents has no behaviour. -/
def load (A : Mdspan rank) (idx : Fin rank → Nat) (m : Memory T) : Option T :=
  if Inside A.extents idx then m (A.address idx) else none

/-- `A[idx] = v` -/
def store (A : Mdspan rank) (idx : Fin rank → Nat) (v : T) (m : Memory T) : Option (Memory T) :=
  if Inside A.extents idx then write m (A.address idx) v else none

def cells (A : Mdspan rank) : Finset Nat := Finset.Ico A.data (A.data + size A.extents)

end Mdspan

example : (⟨0, ![2, 3, 4]⟩ : Mdspan 3).address ![1, 2, 3] = 23 := by decide

section

variable {T : Type}

/-- `result[i] += A[i, j] * x[j];` -/
def matvecStep [Add T] [Mul T] (A : Mdspan 2) (x result : Mdspan 1) (i j : Nat) (m : Memory T) :
    Option (Memory T) := do
  let sum ← result.load ![i] m
  let a ← A.load ![i, j] m
  let b ← x.load ![j] m
  result.store ![i] (sum + a * b) m

/-- `result[i] = T{};` and the inner loop. -/
def matvecRow [Zero T] [Add T] [Mul T] (A : Mdspan 2) (x result : Mdspan 1) (i : Nat) (m : Memory T) :
    Option (Memory T) := do
  let m ← result.store ![i] 0 m
  forRange (A.extents 1) (matvecStep A x result i) m

/-- `result = A * x` -/
def matvec [Zero T] [Add T] [Mul T] (A : Mdspan 2) (x result : Mdspan 1) : Memory T → Option (Memory T) :=
  forRange (A.extents 0) (matvecRow A x result)

/-- `B[j, i] = A[i, j];` -/
def transposeStep (A B : Mdspan 2) (i j : Nat) (m : Memory T) : Option (Memory T) := do
  let a ← A.load ![i, j] m
  B.store ![j, i] a m

def transpose (A B : Mdspan 2) : Memory T → Option (Memory T) :=
  forRange (A.extents 0) fun i => forRange (A.extents 1) (transposeStep A B i)

/-- `sum += A[i, j] * A[i, j];` -/
def frobeniusStep [Add T] [Mul T] (A : Mdspan 2) (m : Memory T) (i j : Nat) (sum : T) : Option T := do
  let a ← A.load ![i, j] m
  let b ← A.load ![i, j] m
  some (sum + a * b)

/-- The sum of squares; the caller takes the root if needed. -/
def frobenius [Zero T] [Add T] [Mul T] (A : Mdspan 2) (m : Memory T) : Option T :=
  forRange (A.extents 0) (fun i => forRange (A.extents 1) (frobeniusStep A m i)) 0

end

variable {rank : Nat} {T : Type} {A B : Mdspan rank} {idx : Fin rank → Nat} {f : (Fin rank → Nat) → T}
  {v : T} {m m' : Memory T} {buffer : Finset Nat}

namespace Mdspan

theorem address_mem (inside : Inside A.extents idx) : A.address idx ∈ A.cells := by
  have below := offset_lt inside
  rw [cells, Finset.mem_Ico, address]
  omega

theorem address_injective {other : Fin rank → Nat} (inside : Inside A.extents idx)
    (insideOther : Inside A.extents other) (same : A.address idx = A.address other) : idx = other :=
  offset_injective inside insideOther (Nat.add_left_cancel same)

theorem exists_address {a : Nat} (member : a ∈ A.cells) :
    ∃ idx, Inside A.extents idx ∧ A.address idx = a := by
  rw [cells, Finset.mem_Ico] at member
  have below : a - A.data < size A.extents := by omega
  obtain ⟨idx, inside, reached⟩ := offset_surjective below
  refine ⟨idx, inside, ?_⟩
  rw [address, reached]
  omega

def Holds (A : Mdspan rank) (m : Memory T) (f : (Fin rank → Nat) → T) : Prop :=
  ∀ idx, Inside A.extents idx → m (A.address idx) = some (f idx)

def Allocated (A : Mdspan rank) (m : Memory T) : Prop := ∀ a ∈ A.cells, (m a).isSome

theorem Holds.load (holds : A.Holds m f) (inside : Inside A.extents idx) :
    A.load idx m = some (f idx) := by
  rw [Mdspan.load, if_pos inside, holds idx inside]

theorem Holds.allocated (holds : A.Holds m f) : A.Allocated m := by
  intro a member
  obtain ⟨idx, inside, rfl⟩ := exists_address member
  rw [holds idx inside]
  rfl

theorem Holds.touched (holds : A.Holds m f) (touched : Touched buffer m m')
    (apart : Disjoint A.cells buffer) : A.Holds m' f := by
  intro idx inside
  rw [touched.frame _ (Finset.disjoint_left.mp apart (address_mem inside)), holds idx inside]

theorem Holds.buffer_eq {C : Mdspan rank} {k : Nat} (holds : A.Holds m f) (holdsC : C.Holds m' f)
    (shape : C.extents = A.extents) (below : k < size A.extents) : m' (C.data + k) = m (A.data + k) := by
  obtain ⟨idx, inside, rfl⟩ := offset_surjective below
  have copied := holdsC idx (shape ▸ inside)
  rw [address, shape] at copied
  exact copied.trans (holds idx inside).symm

theorem Allocated.touched (allocated : A.Allocated m) (touched : Touched buffer m m') :
    A.Allocated m' :=
  fun a member => touched.allocated a (allocated a member)

theorem Allocated.store (allocated : A.Allocated m) (inside : Inside A.extents idx) :
    A.store idx v m = some (Function.update m (A.address idx) (some v)) := by
  rw [Mdspan.store, if_pos inside, write_allocated (allocated _ (address_mem inside))]

theorem load_update (inside : Inside A.extents idx) :
    A.load idx (Function.update m (A.address idx) (some v)) = some v := by
  rw [Mdspan.load, if_pos inside, Function.update_self]

end Mdspan

section Elements

variable {A : Mdspan 2} {x : Mdspan 1} {M : Nat → Nat → T} {v : Nat → T} {i j : Nat}

def HoldsMatrix (A : Mdspan 2) (m : Memory T) (M : Nat → Nat → T) : Prop :=
  A.Holds m fun idx => M (idx 0) (idx 1)

def HoldsVector (x : Mdspan 1) (m : Memory T) (v : Nat → T) : Prop := x.Holds m fun idx => v (idx 0)

theorem HoldsMatrix.load (holds : HoldsMatrix A m M) (row : i < A.extents 0) (column : j < A.extents 1) :
    A.load ![i, j] m = some (M i j) :=
  Mdspan.Holds.load holds (inside_two.mpr ⟨row, column⟩)

theorem HoldsVector.load (holds : HoldsVector x m v) (below : i < x.extents 0) :
    x.load ![i] m = some (v i) :=
  Mdspan.Holds.load holds (inside_one.mpr below)

theorem holdsMatrix_iff :
    HoldsMatrix A m M ↔
      ∀ i < A.extents 0, ∀ j < A.extents 1, m (A.data + (i * A.extents 1 + j)) = some (M i j) := by
  constructor
  · intro holds i row j column
    have element := holds ![i, j] (inside_two.mpr ⟨row, column⟩)
    rwa [Mdspan.address, offset_two] at element
  · intro entries idx inside
    rw [index_two idx, Mdspan.address, offset_two]
    exact entries (idx 0) (inside 0) (idx 1) (inside 1)

theorem holdsVector_iff : HoldsVector x m v ↔ ∀ i < x.extents 0, m (x.data + i) = some (v i) := by
  constructor
  · intro holds i below
    have element := holds ![i] (inside_one.mpr below)
    rwa [Mdspan.address, offset_one] at element
  · intro entries idx inside
    rw [index_one idx, Mdspan.address, offset_one]
    exact entries (idx 0) (inside 0)

end Elements

end Cpp20Showcase.Views.MatrixOps
