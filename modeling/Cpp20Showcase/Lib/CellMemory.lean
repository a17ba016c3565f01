import Mathlib.Data.Finset.Insert
import Mathlib.Data.Set.Insert
import Mathlib.Logic.Function.Basic

/-! A memory of numbered cells. What a run of writes leaves is described by the cells that
were written, each with its value; all others are as before. A coarser description says
only where the writes were. -/

namespace Cpp20Showcase.Lib.CellMemory

/-- An address that is not allocated has no cell. -/
abbrev Memory (T : Type*) := Nat → Option T

variable {T ι : Type*} {m m' : Memory T} {a : Nat} {v : T}
  {cell : ι → Nat} {value : ι → T} {done : Set ι}

def write (m : Memory T) (a : Nat) (v : T) : Option (Memory T) :=
  if (m a).isSome then some (Function.update m a (some v)) else none

theorem write_allocated (allocated : (m a).isSome) :
    write m a v = some (Function.update m a (some v)) :=
  if_pos allocated

theorem isSome_update {b : Nat} (allocated : (m a).isSome) :
    (Function.update m b (some v) a).isSome := by
  by_cases same : a = b
  · subst same
    rw [Function.update_self]
    rfl
  · rwa [Function.update_of_ne same]

/-- From `m` to `m'` nothing was written outside of `cells`. -/
structure Touched (cells : Finset Nat) (m m' : Memory T) : Prop where
  frame : ∀ a, a ∉ cells → m' a = m a
  allocated : ∀ a, (m a).isSome → (m' a).isSome

theorem touched_update {cells : Finset Nat} (inside : a ∈ cells) :
    Touched cells m (Function.update m a (some v)) where
  frame := by
    intro b outside
    rw [Function.update_of_ne]
    intro same
    exact outside (same ▸ inside)
  allocated := fun _ => isSome_update

/-- From `m` to `m'` the cells of `done`, and no others, were written. -/
structure Wrote (m m' : Memory T) (cell : ι → Nat) (value : ι → T) (done : Set ι) : Prop where
  holds : ∀ p ∈ done, m' (cell p) = some (value p)
  frame : ∀ a, (∀ p ∈ done, a ≠ cell p) → m' a = m a

namespace Wrote

theorem nothing : Wrote m m cell value ∅ where
  holds := fun p member => absurd member (Set.notMem_empty p)
  frame := fun _ _ => rfl

theorem next (p : ι) (wrote : Wrote m m' cell value done) (fresh : ∀ q ∈ done, cell q ≠ cell p) :
    Wrote m (Function.update m' (cell p) (some (value p))) cell value (insert p done) where
  holds := by
    intro q member
    obtain rfl | earlier := Set.mem_insert_iff.mp member
    · rw [Function.update_self]
    · rw [Function.update_of_ne (fresh q earlier)]
      exact wrote.holds q earlier
  frame := by
    intro a others
    rw [Function.update_of_ne (others p (Set.mem_insert p done))]
    exact wrote.frame a fun q earlier => others q (Set.mem_insert_of_mem p earlier)

theorem touched {cells : Finset Nat} (wrote : Wrote m m' cell value done)
    (inside : ∀ p ∈ done, cell p ∈ cells) : Touched cells m m' where
  frame := by
    intro a outside
    apply wrote.frame
    intro p member same
    exact outside (same ▸ inside p member)
  allocated := by
    intro a before
    by_cases written : ∃ p ∈ done, a = cell p
    · obtain ⟨p, member, rfl⟩ := written
      rw [wrote.holds p member]
      rfl
    · rwa [wrote.frame a fun p member same => written ⟨p, member, same⟩]

end Wrote

end Cpp20Showcase.Lib.CellMemory
