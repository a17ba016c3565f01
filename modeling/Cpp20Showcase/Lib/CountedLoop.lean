import Mathlib.Data.Set.Insert

/-! Loops `for (i = 0; i < n; ++i)` and nests of two of them, with a body that may fail.
A rule for each gives that the loop succeeds and what then holds. -/

namespace Cpp20Showcase.Lib.CountedLoop

variable {σ : Type*} {body : Nat → σ → Option σ} {s : σ} {i j m n : Nat}

def forRange : Nat → (Nat → σ → Option σ) → σ → Option σ
  | 0, _, s => some s
  | n + 1, body, s => (forRange n body s).bind (body n)

theorem forRange_total {I : Nat → σ → Prop} (start : I 0 s)
    (round : ∀ i s, i < n → I i s → ∃ t, body i s = some t ∧ I (i + 1) t) :
    ∃ t, forRange n body s = some t ∧ I n t := by
  induction n with
  | zero => exact ⟨s, rfl, start⟩
  | succ n ih =>
    obtain ⟨t, runs, reached⟩ := ih fun i s below => round i s (Nat.lt_succ_of_lt below)
    obtain ⟨u, last, final⟩ := round n t (Nat.lt_succ_self n) reached
    exact ⟨u, by rw [forRange, runs, Option.bind_some, last], final⟩

/-- The rule for a nest: an invariant of both counters, which a full row passes on to the
next one. -/
theorem nest_total {body : Nat → Nat → σ → Option σ} {I : Nat → Nat → σ → Prop} (start : I 0 0 s)
    (round : ∀ i j s, i < m → j < n → I i j s → ∃ t, body i j s = some t ∧ I i (j + 1) t)
    (turn : ∀ i s, i < m → I i n s → I (i + 1) 0 s) :
    ∃ t, forRange m (fun i => forRange n (body i)) s = some t ∧ I m 0 t := by
  apply forRange_total (I := fun i => I i 0) start
  intro i s below reached
  obtain ⟨t, runs, full⟩ := forRange_total reached fun j s inside => round i j s below inside
  exact ⟨t, runs, turn i t below full⟩

/-- The pairs that a nest with rows of `n` has been at when it comes to `(i, j)`. -/
def visited (n i j : Nat) : Set (Nat × Nat) := { p | p.2 < n ∧ (p.1 < i ∨ p.1 = i ∧ p.2 < j) }

theorem mem_visited {p : Nat × Nat} : p ∈ visited n i j ↔ p.2 < n ∧ (p.1 < i ∨ p.1 = i ∧ p.2 < j) :=
  Iff.rfl

theorem visited_start : visited n 0 0 = ∅ := by
  ext p
  simp [mem_visited]

theorem visited_next (inside : j < n) : visited n i (j + 1) = insert (i, j) (visited n i j) := by
  ext p
  rw [Set.mem_insert_iff, mem_visited, mem_visited, Prod.ext_iff]
  omega

theorem visited_turn : visited n (i + 1) 0 = visited n i n := by
  ext p
  rw [mem_visited, mem_visited]
  omega

theorem mem_visited_iff_lt {p : Nat × Nat} (column : p.2 < n) (inside : j < n) :
    p ∈ visited n i j ↔ p.1 * n + p.2 < i * n + j := by
  have before {a b c : Nat} (rows : a < b) (below : c < n) : a * n + c < b * n :=
    calc a * n + c < a * n + n := Nat.add_lt_add_left below _
      _ = (a + 1) * n := (Nat.succ_mul a n).symm
      _ ≤ b * n := Nat.mul_le_mul_right n rows
  rw [mem_visited]
  obtain less | same | more := Nat.lt_trichotomy p.1 i
  · have place := before less column
    omega
  · rw [same]
    omega
  · have place := before more inside
    omega

theorem not_mem_visited : (i, j) ∉ visited n i j := by
  rw [mem_visited]
  omega

end Cpp20Showcase.Lib.CountedLoop
